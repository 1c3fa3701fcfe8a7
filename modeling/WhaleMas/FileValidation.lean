import WhaleMas.PurePath
import WhaleMas.Services
import WhaleMas.UnicodeText

/-!
The validation of uploads: the cleaning of the client's file name, and the check of its
extension and of the declared type.
-/

namespace WhaleMas.FileValidation

open WhaleMas.Models WhaleMas.Services WhaleMas.UnicodeText

def mimeByExtension : List (String × List String) := [
  (".eml", ["message/rfc822", "application/octet-stream", "text/plain"]),
  (".pdf", ["application/pdf"]),
  (".doc", ["application/msword", "application/octet-stream"]),
  (".docx", ["application/vnd.openxmlformats-officedocument.wordprocessingml.document"]),
  (".xls", ["application/vnd.ms-excel", "application/octet-stream"]),
  (".xlsx", ["application/vnd.openxmlformats-officedocument.spreadsheetml.sheet"]),
  (".csv", ["text/csv", "application/csv", "application/vnd.ms-excel", "text/plain"]),
  (".txt", ["text/plain"]),
  (".jpg", ["image/jpeg"]),
  (".jpeg", ["image/jpeg"]),
  (".png", ["image/png"])]

def blockedExtensions : List String := [".exe", ".sh", ".bat", ".cmd", ".ps1", ".com"]

/-- `settings.allowed_file_extensions` by default. -/
def defaultExtensions : List String :=
  [".eml", ".pdf", ".doc", ".docx", ".xls", ".xlsx", ".csv", ".txt", ".jpg", ".jpeg", ".png"]

section Names

variable (u : Unicode)

/-- The last component of a client's file name, normalised and stripped. -/
def normalizedName (filename : String) : List Char :=
  let name := PurePath.name (filename.toList.map fun c => if c = '\\' then '/' else c)
  (strip isSpace (u.normalize name)).filter (· ≠ '\x00')

/-- The stem of a name, with every run of other characters replaced and its ends stripped. -/
def cleanStem (name : List Char) : List Char :=
  let stem := strip (fun c => c = '.' || c = '_')
    (subRuns (fun c => !(u.isWord c || c = '.' || c = '-')) '_' false (PurePath.stem name))
  if stem = [] then ['e', 'v', 'i', 'd', 'e', 'n', 'c', 'e'] else stem

def safeFilename (filename : String) : String :=
  let name := normalizedName u filename
  String.ofList ((cleanStem u name).take 200 ++ u.lower (PurePath.suffix name))

/-- The extension that a cleaned name is taken to have. -/
def extensionOf (cleaned : String) : String :=
  String.ofList (u.lower (PurePath.suffix cleaned.toList))

/-- The declared type, without its parameters. -/
def declaredType (contentType : Option String) : String :=
  String.ofList
    ((u.lower (orDefault contentType "application/octet-stream").toList).takeWhile (· ≠ ';'))

def validateMetadata (allowedExtensions : List String) (filename contentType : Option String) :
    Except DomainError (String × String) :=
  let filename := orDefault filename ""
  if filename = "" then
    .error (evidenceValidationError "EVIDENCE_FILENAME_REQUIRED" "Filename is required")
  else
    let cleaned := safeFilename u filename
    let extension := extensionOf u cleaned
    if extension ∈ blockedExtensions ∨ extension ∉ allowedExtensions then
      .error (evidenceValidationError "EVIDENCE_INVALID_TYPE" "Unsupported evidence file type")
    else
      let allowedMimes := (mimeByExtension.lookup extension).getD ["application/octet-stream"]
      if declaredType u contentType ∉ allowedMimes then
        .error (evidenceValidationError "EVIDENCE_MIME_MISMATCH"
          "Declared MIME type does not match file extension")
      else .ok (cleaned, extension)

/-- The extensions as the validator keeps them. -/
def lowered (extensions : List String) : List String :=
  extensions.map fun item => String.ofList (u.lower item.toList)

/-- The validator of `FileValidator(allowed_extensions, max_size_bytes)`. -/
def fileValidator (allowedExtensions : List String) (maxSizeBytes : ℕ) : FileValidator where
  validateMetadata := validateMetadata u (lowered u allowedExtensions)
  maxSizeBytes := maxSizeBytes

end Names

variable {u : Unicode}

/-! ### What a validation accepts -/

/-- An upload whose metadata is accepted, with the name and the extension it gets. -/
structure Accepted (u : Unicode) (allowed : List String) (filename : String)
    (contentType : Option String) (cleaned extension : String) : Prop where
  given : filename ≠ ""
  cleaned_eq : cleaned = safeFilename u filename
  extension_eq : extension = extensionOf u cleaned
  unblocked : extension ∉ blockedExtensions
  mem_allowed : extension ∈ allowed
  declared : declaredType u contentType ∈
    (mimeByExtension.lookup extension).getD ["application/octet-stream"]

lemma orDefault_some {s : String} (h : s ≠ "") (default : String) :
    orDefault (some s) default = s :=
  if_neg h

lemma validateMetadata_ok {allowed : List String} {filename contentType : Option String}
    {cleaned extension : String}
    (h : validateMetadata u allowed filename contentType = .ok (cleaned, extension)) :
    ∃ f, filename = some f ∧ Accepted u allowed f contentType cleaned extension := by
  unfold validateMetadata at h
  dsimp only at h
  split_ifs at h with hf he hm
  simp only [Except.ok.injEq, Prod.mk.injEq] at h
  obtain ⟨rfl, rfl⟩ := h
  push Not at he
  cases filename with
  | none => exact absurd rfl hf
  | some f =>
    have hne : f ≠ "" := by
      rintro rfl
      exact hf rfl
    rw [orDefault_some hne] at hf he hm ⊢
    exact ⟨f, rfl, hf, rfl, rfl, he.1, he.2, hm⟩

lemma fileValidator_validateMetadata (exts : List String) (maxSizeBytes : ℕ) :
    (fileValidator u exts maxSizeBytes).validateMetadata = validateMetadata u (lowered u exts) :=
  rfl

lemma Accepted.validateMetadata {allowed : List String} {f : String} {contentType : Option String}
    {cleaned extension : String} (h : Accepted u allowed f contentType cleaned extension) :
    validateMetadata u allowed (some f) contentType = .ok (cleaned, extension) := by
  obtain rfl := h.cleaned_eq
  obtain rfl := h.extension_eq
  have he : ¬ (extensionOf u (safeFilename u f) ∈ blockedExtensions ∨
      extensionOf u (safeFilename u f) ∉ allowed) :=
    not_or.mpr ⟨h.unblocked, not_not.mpr h.mem_allowed⟩
  unfold FileValidation.validateMetadata
  dsimp only
  rw [orDefault_some h.given, if_neg h.given, if_neg he, if_neg (not_not.mpr h.declared)]

/-! ### The cleaned name -/

lemma toList_safeFilename (f : String) : (safeFilename u f).toList =
    (cleanStem u (normalizedName u f)).take 200 ++
      u.lower (PurePath.suffix (normalizedName u f)) := by
  simp [safeFilename]

lemma isWord_evidence : ∀ c ∈ ['e', 'v', 'i', 'd', 'e', 'n', 'c', 'e'], u.isWord c := by
  have hw : ∀ c : Char, c.toNat < 128 → c.isAlphanum → u.isWord c := by
    intro c hc ha
    simp [Unicode.isWord, u.isAlnum_ascii c hc, ha]
  have hl : ['e', 'v', 'i', 'd', 'e', 'n', 'c', 'e'].all
      (fun c => c.toNat < 128 && c.isAlphanum) := by decide
  intro c hc
  have ha := List.all_eq_true.mp hl c hc
  rw [Bool.and_eq_true, decide_eq_true_eq] at ha
  exact hw c ha.1 ha.2

lemma mem_cleanStem {name : List Char} {c : Char} (h : c ∈ cleanStem u name) :
    u.isWord c ∨ c = '.' ∨ c = '-' := by
  unfold cleanStem at h
  dsimp only at h
  split_ifs at h
  · exact Or.inl (isWord_evidence c h)
  · rcases mem_subRuns (mem_of_mem_strip h) with rfl | ⟨-, hc⟩
    · exact Or.inl (by simp [Unicode.isWord])
    · simp only [Bool.not_eq_false', Bool.or_eq_true, decide_eq_true_eq] at hc
      rwa [or_assoc] at hc

/-- A clean stem starts with a character of a name, not with a dot or an underscore. -/
lemma cleanStem_eq_cons (name : List Char) :
    ∃ c t, cleanStem u name = c :: t ∧ c ≠ '.' ∧ c ≠ '_' := by
  unfold cleanStem
  dsimp only
  split_ifs with hs
  · exact ⟨'e', _, rfl, by decide, by decide⟩
  · obtain ⟨c, t, ht⟩ := List.exists_cons_of_ne_nil hs
    have hc := head_strip ht
    simp only [Bool.or_eq_false_iff, decide_eq_false_iff_not] at hc
    exact ⟨c, t, ht, hc.1, hc.2⟩

lemma slash_not_mem_suffix (path : List Char) : '/' ∉ PurePath.suffix path := by
  rcases PurePath.suffix_cases path with ⟨st, t, hp, -, -, -, -, hs⟩ | ⟨-, hs, -⟩
  · have hn := PurePath.slash_not_mem_name path
    rw [hp, List.mem_append, not_or] at hn
    rw [hs]
    exact hn.2
  · rw [hs]
    exact List.not_mem_nil

lemma slash_not_mem_safeFilename (f : String) : '/' ∉ (safeFilename u f).toList := by
  rw [toList_safeFilename, List.mem_append, not_or]
  constructor
  · intro h
    rcases mem_cleanStem (List.mem_of_mem_take h) with hw | hc | hc
    · exact isWord_not_mark hw (by decide)
    · exact absurd hc (by decide)
    · exact absurd hc (by decide)
  · exact fun h => slash_not_mem_suffix _ (mark_of_mem_lowerFrom h (by decide))

/-- A cleaned name starts with a character of a name. -/
lemma safeFilename_eq_cons (f : String) :
    ∃ c t, (safeFilename u f).toList = c :: t ∧ c ≠ '.' ∧ c ≠ '_' := by
  obtain ⟨c, t, ht, hc⟩ := cleanStem_eq_cons (u := u) (normalizedName u f)
  refine ⟨c, t.take 199 ++ u.lower (PurePath.suffix (normalizedName u f)), ?_, hc⟩
  rw [toList_safeFilename, ht, List.take_succ_cons, List.cons_append]

/-- A cleaned name is its own last component. -/
lemma name_safeFilename (f : String) :
    PurePath.name (safeFilename u f).toList = (safeFilename u f).toList := by
  obtain ⟨c, t, ht, hc, -⟩ := safeFilename_eq_cons (u := u) f
  refine PurePath.name_eq_self (slash_not_mem_safeFilename f) ?_
  rw [ht]
  intro h
  exact hc (List.cons.inj h).1

/-- A suffix of the client's name is the suffix of the cleaned name, in lower case. -/
lemma suffix_safeFilename {f : String} {st t : List Char}
    (hp : PurePath.name (normalizedName u f) = st ++ '.' :: t) (hst : st ≠ []) (ht : t ≠ [])
    (hd : '.' ∉ t) :
    ∃ t', t' ≠ [] ∧ '.' ∉ t' ∧ (∀ c ∈ t', u.IsLow c) ∧
      u.lower (PurePath.suffix (normalizedName u f)) = '.' :: t' ∧
      PurePath.suffix (safeFilename u f).toList = '.' :: t' := by
  have hs := (PurePath.split_of_name hp hst ht hd).2
  have hl : u.lower (PurePath.suffix (normalizedName u f)) = '.' :: u.lowerFrom ['.'] t := by
    rw [hs]
    exact lowerFrom_cons_of_isLow (lowerChar_of_mark (Or.inl rfl))
  have hd' : '.' ∉ u.lowerFrom ['.'] t := fun h => hd (mark_of_mem_lowerFrom h (by decide))
  refine ⟨u.lowerFrom ['.'] t, lowerFrom_ne_nil ht, hd', fun c => isLow_of_mem_lowerFrom, hl, ?_⟩
  obtain ⟨c, w, hw, -⟩ := cleanStem_eq_cons (u := u) (normalizedName u f)
  have hname : PurePath.name (safeFilename u f).toList =
      (cleanStem u (normalizedName u f)).take 200 ++ '.' :: u.lowerFrom ['.'] t := by
    rw [name_safeFilename, toList_safeFilename, hl]
  exact (PurePath.split_of_name hname (by simp [hw]) (lowerFrom_ne_nil ht) hd').2

end WhaleMas.FileValidation
