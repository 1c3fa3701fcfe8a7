import WhaleMas.ObjectKeys

/-!
What the text columns of the database store, and which validated uploads they store.
-/

namespace WhaleMas.Columns

open WhaleMas.Models WhaleMas.Services WhaleMas.UnicodeText WhaleMas.FileValidation
open WhaleMas.ObjectKeys WhaleMas.Hashing

/-- A text column stores the texts up to its width, if it has one, without a NUL. -/
def Fits (width : Option ℕ) (s : String) : Prop :=
  (∀ w ∈ width, s.length ≤ w) ∧ '\x00' ∉ s.toList

instance (width : Option ℕ) (s : String) : Decidable (Fits width s) := by
  unfold Fits
  infer_instance

/-- The texts of an evidence row, each with the width of its column. -/
def evidenceTexts (e : Evidence) : List (Option ℕ × String) := [
  (some 512, e.originalFilename), (some 512, e.storedFilename), (some 1024, e.objectKey),
  (some 255, e.mimeType), (some 32, e.fileExtension), (some 64, e.sha256)]

def Storable (e : Evidence) : Prop := ∀ c ∈ evidenceTexts e, Fits c.1 c.2

lemma Storable.filename {caseId evidenceId : Uuid} {upload : UploadFile}
    {sourceType : EvidenceSourceType} {createdBy : Option String} {parentEvidenceId : Option Uuid}
    {cleaned extension digest : String} {size : ℕ} {now : Datetime}
    (h : Storable (evidenceRow caseId evidenceId upload sourceType createdBy parentEvidenceId
      cleaned extension size digest now)) :
    Fits (some 512) (orDefault upload.filename cleaned) :=
  h (some 512, orDefault upload.filename cleaned) List.mem_cons_self

variable {u : Unicode}

/-! ### The texts the service makes -/

/-- An extension of letters and digits in lower case, after its dot, of 5 characters at most. -/
lemma mem_default : ∀ item ∈ defaultExtensions, item.toList.head? = some '.' ∧
    item.toList.length ≤ 5 ∧
    ∀ c ∈ item.toList.tail, c.toNat < 128 ∧ c.isAlphanum ∧ c.toLower = c := by
  have hall : defaultExtensions.all (fun item => item.toList.head? = some '.' &&
      item.toList.length ≤ 5 && item.toList.tail.all fun c =>
        c.toNat < 128 && c.isAlphanum && c.toLower = c) := by decide
  intro item hitem
  have hi := List.all_eq_true.mp hall item hitem
  simp only [Bool.and_eq_true, decide_eq_true_eq, List.all_eq_true, and_assoc] at hi
  exact hi

lemma isExtension_default : ∀ item ∈ defaultExtensions, IsExtension u item := by
  intro item hitem
  obtain ⟨hd, -, ht⟩ := mem_default item hitem
  refine ⟨item.toList.tail, (List.cons_head?_tail hd).symm, ?_⟩
  intro c hc
  obtain ⟨ha, hw, -⟩ := ht c hc
  simp [Unicode.isWord, u.isAlnum_ascii c ha, hw]

/-- The default extensions are in lower case. -/
lemma lowered_default : lowered u defaultExtensions = defaultExtensions := by
  have hitem : ∀ item ∈ defaultExtensions, String.ofList (u.lower item.toList) = item := by
    intro item hitem
    obtain ⟨hd, -, ht⟩ := mem_default item hitem
    have hlow : ∀ c ∈ item.toList, u.IsLow c := by
      intro c hc
      rw [← List.cons_head?_tail hd] at hc
      rcases List.mem_cons.mp hc with rfl | hc
      · exact lowerChar_of_mark (Or.inl rfl)
      · obtain ⟨ha, -, hl⟩ := ht c hc
        refine ⟨by rw [u.lowerChar_ascii c ha, hl], ?_⟩
        rintro rfl
        exact absurd ha (by decide)
    rw [Unicode.lower, lowerFrom_eq_self hlow, String.ofList_toList]
  exact (List.map_congr_left hitem).trans (List.map_id _)

/-- A cleaned name is short: 200 characters of a stem, and an extension. -/
lemma length_cleaned {f : String} {contentType : Option String} {cleaned extension : String}
    (h : Accepted u defaultExtensions f contentType cleaned extension) :
    cleaned.toList.length ≤ 205 := by
  obtain rfl := h.cleaned_eq
  rw [toList_safeFilename, List.length_append]
  have hstem : ((cleanStem u (normalizedName u f)).take 200).length ≤ 200 := by simp
  rcases PurePath.suffix_cases (normalizedName u f) with
    ⟨st, t, hp, hst, ht, hd, -, -⟩ | ⟨-, hs, -⟩
  · have hext := (mem_default _ h.mem_allowed).2.1
    rw [h.extension_eq, extensionOf_of_suffix hp hst ht hd] at hext
    omega
  · rw [hs, Unicode.lower, lowerFrom_nil]
    simp

lemma fits_of_le {w : ℕ} {s : String} (hl : s.toList.length ≤ w) (hn : '\x00' ∉ s.toList) :
    Fits (some w) s :=
  ⟨fun _ hw => by obtain rfl := Option.mem_some.mp hw; rwa [← String.length_toList], hn⟩

lemma fits_sha256 (content : List UInt8) :
    Fits (some 64) (sha256File content defaultChunkSize) := by
  rw [sha256File_default]
  obtain ⟨hl, hd⟩ := Sha256.hexdigest_isHexdigest content
  refine fits_of_le hl.le fun hm => ?_
  exact absurd (hd _ hm) (by decide)

lemma nul_not_mem_str (v : Uuid) : '\x00' ∉ v.str.toList :=
  fun h => absurd (mem_str h) (by decide)

lemma fits_default {e : String} (he : e ∈ defaultExtensions) : Fits (some 32) e := by
  obtain ⟨hd, hl, ht⟩ := mem_default e he
  refine fits_of_le (by omega) fun hn => ?_
  rw [← List.cons_head?_tail hd] at hn
  rcases List.mem_cons.mp hn with hn | hn
  · exact absurd hn (by decide)
  · exact absurd (ht _ hn).2.1 (by decide)

/-- The declared type is stored as it came, or the default is. -/
lemma fits_contentType (contentType : Option String) :
    Fits (some 255) (orDefault contentType "application/octet-stream") ↔
      ∀ t ∈ contentType, Fits (some 255) t := by
  have hdefault : Fits (some 255) "application/octet-stream" :=
    fits_of_le (by decide) (by decide)
  have hempty : Fits (some 255) "" := fits_of_le (by decide) (by decide)
  cases contentType with
  | none => simp [orDefault, hdefault]
  | some t =>
    by_cases ht : t = ""
    · simp [orDefault, ht, hdefault, hempty]
    · simp [orDefault, ht]

lemma fits_objectKey (c v : Uuid) {name : String} (hl : name.toList.length ≤ 205)
    (hn : '\x00' ∉ name.toList) : Fits (some 1024) (objectKeyOf c v name) := by
  refine fits_of_le ?_ ?_
  · have hc : "cases/".toList.length = 6 := by decide
    have he : "/evidence/".toList.length = 10 := by decide
    have hs : "/".toList.length = 1 := by decide
    simp only [objectKeyOf, String.toList_append, List.length_append, Uuid.str_length, hc, he, hs]
    omega
  · have hc : '\x00' ∉ "cases/".toList := by decide
    have he : '\x00' ∉ "/evidence/".toList := by decide
    have hs : '\x00' ∉ "/".toList := by decide
    simp only [objectKeyOf, String.toList_append, List.mem_append, not_or]
    exact ⟨⟨⟨⟨⟨hc, nul_not_mem_str c⟩, he⟩, nul_not_mem_str v⟩, hs⟩, hn⟩

/-! ### The row -/

/-- **Validated uploads are storable** exactly when the client's own texts are: the file name
and the declared type, which the row keeps as they came. -/
theorem storable_iff (u : Unicode) (maxSizeBytes : ℕ) (upload : UploadFile)
    (cleaned extension : String)
    (h : (fileValidator u defaultExtensions maxSizeBytes).validateMetadata upload.filename
      upload.contentType = .ok (cleaned, extension))
    (caseId evidenceId : Uuid) (sourceType : EvidenceSourceType) (createdBy : Option String)
    (parentEvidenceId : Option Uuid) (size : ℕ) (content : List UInt8) (now : Datetime) :
    Storable (evidenceRow caseId evidenceId upload sourceType createdBy parentEvidenceId cleaned
      extension size (sha256File content defaultChunkSize) now) ↔
    (∀ f ∈ upload.filename, Fits (some 512) f) ∧ ∀ t ∈ upload.contentType, Fits (some 255) t := by
  obtain ⟨f, hf, ha⟩ := validateMetadata_ok h
  have hseg := isSegment_of_accepted isExtension_default ha
  rw [lowered_default] at ha
  have hnul : '\x00' ∉ cleaned.toList := fun hm => (hseg.clean _ hm).2.2.1 rfl
  have hlen := length_cleaned ha
  have hname : orDefault upload.filename cleaned = f := by
    rw [hf, orDefault_some ha.given]
  have htexts : Storable (evidenceRow caseId evidenceId upload sourceType createdBy
      parentEvidenceId cleaned extension size (sha256File content defaultChunkSize) now) ↔
      Fits (some 512) f ∧ Fits (some 512) cleaned ∧
      Fits (some 1024) (objectKeyOf caseId evidenceId cleaned) ∧
      Fits (some 255) (orDefault upload.contentType "application/octet-stream") ∧
      Fits (some 32) extension ∧ Fits (some 64) (sha256File content defaultChunkSize) := by
    simp only [Storable, evidenceTexts, evidenceRow, hname, List.forall_mem_cons]
    simp
  rw [htexts, fits_contentType, hf]
  constructor
  · rintro ⟨h1, -, -, h4, -⟩
    exact ⟨fun f' hf' => by rwa [← Option.some.inj hf'], h4⟩
  · rintro ⟨h1, h4⟩
    exact ⟨h1 f rfl, fits_of_le (by omega) hnul, fits_objectKey _ _ hlen hnul, h4,
      fits_default ha.mem_allowed, fits_sha256 content⟩

def mailUpload : UploadFile := ⟨some "mail.eml", some "message/rfc822", [[72, 105]], by simp⟩

theorem storable_iff_mail :
    Storable (evidenceRow 3 5 mailUpload .email none none "mail.eml" ".eml" 2
      (sha256File [72, 105] defaultChunkSize) ⟨2024, 5, 1, 12, 30, 0, 0, by decide⟩) := by
  have hv : (fileValidator ascii defaultExtensions 10).validateMetadata (some "mail.eml")
      (some "message/rfc822") = .ok ("mail.eml", ".eml") := by decide
  refine (storable_iff ascii 10 mailUpload _ _ hv 3 5 .email none none 2 [72, 105] _).mpr ?_
  simp only [mailUpload, Option.mem_def, Option.some.injEq, forall_eq']
  decide

/-- A name of letters, with the extension of a document. -/
def letters (n : ℕ) : String := String.ofList (List.replicate n 'a' ++ ['.', 'p', 'd', 'f'])

def longUpload : UploadFile := ⟨some (letters 600), some "application/pdf", [[72, 105]], by simp⟩

lemma letters_cleaned : safeFilename ascii (letters 600) = letters 200 := by
  rw [safeFilename, normalizedName, letters, String.toList_ofList, letters]
  exact congrArg String.ofList (by decide +kernel)

lemma letters_extension : extensionOf ascii (letters 200) = ".pdf" := by
  rw [extensionOf, letters, String.toList_ofList]
  exact congrArg String.ofList (by decide +kernel : _ = ['.', 'p', 'd', 'f'])

lemma letters_length (n : ℕ) : (letters n).length = n + 4 := by
  rw [letters, ← String.length_toList, String.toList_ofList, List.length_append,
    List.length_replicate]
  rfl

/-- A name of 600 letters is cleaned to 200, and stored as it came. -/
theorem longName_not_storable :
    (fileValidator ascii defaultExtensions 10).validateMetadata (some (letters 600))
      (some "application/pdf") = .ok (letters 200, ".pdf") ∧
    ¬ Storable (evidenceRow 3 5 longUpload .email none none (letters 200) ".pdf" 2
      (sha256File [72, 105] defaultChunkSize) ⟨2024, 5, 1, 12, 30, 0, 0, by decide⟩) := by
  have hne : letters 600 ≠ "" := by
    intro h
    have hl := congrArg String.length h
    rw [letters_length] at hl
    exact absurd hl (by decide)
  have hname : ∀ d, orDefault longUpload.filename d = letters 600 := orDefault_some hne
  have haccepted : Accepted ascii (lowered ascii defaultExtensions) (letters 600)
      (some "application/pdf") (letters 200) ".pdf" := by
    refine ⟨hne, letters_cleaned.symm, letters_extension.symm, by decide, ?_, by decide⟩
    rw [lowered_default]
    decide
  constructor
  · rw [fileValidator_validateMetadata]
    exact haccepted.validateMetadata
  · intro h
    have hfits := h.filename
    rw [hname] at hfits
    have hl := hfits.1 512 rfl
    rw [letters_length] at hl
    omega

end WhaleMas.Columns
