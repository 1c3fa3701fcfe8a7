import WhaleMas.EvidenceLife
import WhaleMas.FileValidation

/-!
Object keys of validated uploads: the name that a validation returns is one harmless path
segment, so the key has five segments, and they tell the case, the evidence and the name.
-/

namespace WhaleMas.ObjectKeys

open WhaleMas.Models WhaleMas.Services WhaleMas.UnicodeText WhaleMas.FileValidation
open WhaleMas.EvidenceLife

variable {u : Unicode}

/-- A name that is one segment of a path, visible, and printable without a blank. -/
structure IsSegment (name : List Char) : Prop where
  ne_nil : name ≠ []
  head : ∀ c t, name = c :: t → c ≠ '.' ∧ c ≠ '_'
  clean : ∀ c ∈ name, c ≠ '/' ∧ c ≠ '\\' ∧ c ≠ '\x00' ∧ isSpace c = false ∧ isControl c = false

/-- A dot followed by word characters. -/
def IsExtension (u : Unicode) (item : String) : Prop :=
  ∃ w, item.toList = '.' :: w ∧ ∀ c ∈ w, u.isWord c

/-- The segments of a key. -/
def segments (key : String) : List (List Char) := key.toList.splitOn '/'

/-! ### The name -/

/-- No mark but the dot. -/
def Plain (c : Char) : Prop := IsMark c → c = '.'

lemma Plain.clean {c : Char} (h : Plain c) :
    c ≠ '/' ∧ c ≠ '\\' ∧ c ≠ '\x00' ∧ isSpace c = false ∧ isControl c = false := by
  refine ⟨?_, ?_, ?_, ?_, ?_⟩
  · rintro rfl
    exact absurd (h (by decide)) (by decide)
  · rintro rfl
    exact absurd (h (by decide)) (by decide)
  · rintro rfl
    exact absurd (h (by decide)) (by decide)
  · by_contra hs
    obtain rfl := h (Or.inl (by simpa using hs))
    exact hs (by decide)
  · by_contra hs
    obtain rfl := h (Or.inr (Or.inl (by simpa using hs)))
    exact hs (by decide)

lemma plain_of_isWord {c : Char} (h : u.isWord c) : Plain c :=
  fun hm => absurd hm (isWord_not_mark h)

lemma plain_of_mem_cleanStem {name : List Char} {c : Char} (h : c ∈ cleanStem u name) :
    Plain c := by
  rcases mem_cleanStem h with hw | rfl | rfl
  · exact plain_of_isWord hw
  · exact fun _ => rfl
  · exact fun hm => absurd hm (by decide)

/-- An extension stays plain in lower case. -/
lemma plain_of_lowered {exts : List String} (hexts : ∀ item ∈ exts, IsExtension u item)
    {e : String} (he : e ∈ lowered u exts) : ∀ c ∈ e.toList, Plain c := by
  obtain ⟨item, hitem, rfl⟩ := List.mem_map.mp he
  obtain ⟨w, hw, hword⟩ := hexts item hitem
  intro c hc hm
  rw [String.toList_ofList] at hc
  have hci : c ∈ item.toList := mark_of_mem_lowerFrom hc hm
  rw [hw] at hci
  rcases List.mem_cons.mp hci with rfl | hci
  · rfl
  · exact plain_of_isWord (hword c hci) hm

/-- A suffix is lowered once: the extension is the suffix of the cleaned name. -/
lemma extensionOf_of_suffix {f : String} {st t : List Char}
    (hp : PurePath.name (normalizedName u f) = st ++ '.' :: t) (hst : st ≠ []) (ht : t ≠ [])
    (hd : '.' ∉ t) : (extensionOf u (safeFilename u f)).toList =
      u.lower (PurePath.suffix (normalizedName u f)) := by
  obtain ⟨t', -, -, -, hl, hs⟩ := suffix_safeFilename hp hst ht hd
  rw [extensionOf, String.toList_ofList, hs, ← hl, lower_lower]

lemma isSegment_of_accepted {exts : List String} (hexts : ∀ item ∈ exts, IsExtension u item)
    {f : String} {contentType : Option String} {cleaned extension : String}
    (h : Accepted u (lowered u exts) f contentType cleaned extension) :
    IsSegment cleaned.toList := by
  obtain rfl := h.cleaned_eq
  obtain ⟨c, t, hct, hc⟩ := safeFilename_eq_cons (u := u) f
  refine ⟨?_, ?_, ?_⟩
  · rw [hct]
    exact List.cons_ne_nil c t
  · intro d w hd
    rw [hct] at hd
    rwa [← (List.cons.inj hd).1]
  · intro d hd
    refine Plain.clean ?_
    rw [toList_safeFilename, List.mem_append] at hd
    rcases hd with hd | hd
    · exact plain_of_mem_cleanStem (List.mem_of_mem_take hd)
    · rcases PurePath.suffix_cases (normalizedName u f) with
        ⟨st, t, hp, hst, ht, hdot, -, -⟩ | ⟨-, hs, -⟩
      · rw [← extensionOf_of_suffix hp hst ht hdot, ← h.extension_eq] at hd
        exact plain_of_lowered hexts h.mem_allowed d hd
      · rw [hs] at hd
        exact absurd hd List.not_mem_nil

/-! ### The key -/

lemma mem_hex {v : Uuid} {c : Char} (h : c ∈ v.hex) : c ∈ Sha256.hexDigits := by
  obtain ⟨i, -, rfl⟩ := List.mem_map.mp h
  have hd : ∀ n < 16, Sha256.hexDigits.getD n '0' ∈ Sha256.hexDigits := by decide
  exact hd _ (Nat.mod_lt _ (by omega))

/-- The text of an identifier has digits and dashes. -/
lemma mem_str {v : Uuid} {c : Char} (h : c ∈ v.str.toList) : c ∈ Sha256.hexDigits ∨ c = '-' := by
  simp only [Uuid.str, String.toList_ofList, List.mem_append, List.mem_cons] at h
  rcases h with h | h | h | h | h | h | h | h | h
  · exact Or.inl (mem_hex (List.mem_of_mem_take h))
  · exact Or.inr h
  · exact Or.inl (mem_hex (List.mem_of_mem_drop (List.mem_of_mem_take h)))
  · exact Or.inr h
  · exact Or.inl (mem_hex (List.mem_of_mem_drop (List.mem_of_mem_take h)))
  · exact Or.inr h
  · exact Or.inl (mem_hex (List.mem_of_mem_drop (List.mem_of_mem_take h)))
  · exact Or.inr h
  · exact Or.inl (mem_hex (List.mem_of_mem_drop h))

lemma slash_not_mem_str (v : Uuid) : '/' ∉ v.str.toList :=
  fun h => absurd (mem_str h) (by decide)

lemma segments_objectKeyOf (c v : Uuid) {name : String} (hn : '/' ∉ name.toList) :
    segments (objectKeyOf c v name) = ["cases".toList, c.str.toList, "evidence".toList,
      v.str.toList, name.toList] := by
  have hkey : (objectKeyOf c v name).toList = "cases".toList ++ '/' :: (c.str.toList ++
      '/' :: ("evidence".toList ++ '/' :: (v.str.toList ++ '/' :: name.toList))) := by
    simp [objectKeyOf]
  rw [segments, hkey, List.splitOn_append_cons_self_of_not_mem (by decide),
    List.splitOn_append_cons_self_of_not_mem (slash_not_mem_str c),
    List.splitOn_append_cons_self_of_not_mem (by decide),
    List.splitOn_append_cons_self_of_not_mem (slash_not_mem_str v), List.splitOn_eq_singleton hn]

lemma IsSegment.not_dots {name : List Char} (h : IsSegment name) :
    name ≠ [] ∧ name ≠ ['.'] ∧ name ≠ ['.', '.'] := by
  refine ⟨h.ne_nil, ?_, ?_⟩
  · intro he
    exact (h.head _ _ he).1 rfl
  · intro he
    exact (h.head _ _ he).1 rfl

lemma str_not_dots (v : Uuid) :
    v.str.toList ≠ [] ∧ v.str.toList ≠ ['.'] ∧ v.str.toList ≠ ['.', '.'] := by
  have hl := v.str_length
  refine ⟨?_, ?_, ?_⟩ <;> intro h <;> simp [h] at hl

/-- The name is the rest of the key. -/
lemma objectKeyOf_name_inj {c v : Uuid} {n n' : String}
    (h : objectKeyOf c v n = objectKeyOf c v n') : n = n' := by
  have hl := congrArg String.toList h
  simp only [objectKeyOf, String.toList_append] at hl
  exact String.toList_inj.mp (List.append_cancel_left hl)

/-- **Object keys stay inside the evidence folder.** The name of an accepted upload is one
harmless segment; its key has exactly the five segments it is made of, and the key tells the
case, the evidence and the name. -/
theorem accepted_key (u : Unicode) (exts : List String) (maxSizeBytes : ℕ)
    (hexts : ∀ item ∈ exts, IsExtension u item) (filename contentType : Option String)
    (name extension : String)
    (h : (fileValidator u exts maxSizeBytes).validateMetadata filename contentType =
      .ok (name, extension)) :
    IsSegment name.toList ∧
    ∀ caseId evidenceId : Uuid,
      segments (objectKeyOf caseId evidenceId name) = ["cases".toList, caseId.str.toList,
        "evidence".toList, evidenceId.str.toList, name.toList] ∧
      (∀ s ∈ segments (objectKeyOf caseId evidenceId name),
        s ≠ [] ∧ s ≠ ['.'] ∧ s ≠ ['.', '.']) ∧
      (∀ (caseId' evidenceId' : Uuid) (name' : String),
        objectKeyOf caseId evidenceId name = objectKeyOf caseId' evidenceId' name' →
          caseId = caseId' ∧ evidenceId = evidenceId' ∧ name = name') ∧
      ∀ (caseId' evidenceId' : Uuid) (name' : String), evidenceId ≠ evidenceId' →
        objectKeyOf caseId evidenceId name ≠ objectKeyOf caseId' evidenceId' name' := by
  obtain ⟨f, -, ha⟩ := validateMetadata_ok h
  have hseg := isSegment_of_accepted hexts ha
  have hslash : '/' ∉ name.toList := fun hm => (hseg.clean '/' hm).1 rfl
  refine ⟨hseg, fun c v => ?_⟩
  have hs := segments_objectKeyOf c v hslash
  refine ⟨hs, ?_, ?_, ?_⟩
  · intro s hmem
    rw [hs] at hmem
    simp only [List.mem_cons, List.not_mem_nil, or_false] at hmem
    rcases hmem with rfl | rfl | rfl | rfl | rfl
    · decide
    · exact str_not_dots c
    · decide
    · exact str_not_dots v
    · exact hseg.not_dots
  · intro c' v' n' hk
    obtain ⟨rfl, rfl⟩ := objectKeyOf_inj hk
    exact ⟨rfl, rfl, objectKeyOf_name_inj hk⟩
  · intro c' v' n' hne hk
    exact hne (objectKeyOf_inj hk).2

theorem accepted_key_evilName :
    (fileValidator ascii [".pdf"] 10).validateMetadata (some "../../x/evil name?.PDF")
      (some "application/pdf") = .ok ("evil_name.pdf", ".pdf") ∧
    IsSegment "evil_name.pdf".toList ∧
    segments (objectKeyOf 3 5 "evil_name.pdf") = ["cases".toList, (Uuid.str 3).toList,
      "evidence".toList, (Uuid.str 5).toList, "evil_name.pdf".toList] := by
  have hv : (fileValidator ascii [".pdf"] 10).validateMetadata (some "../../x/evil name?.PDF")
      (some "application/pdf") = .ok ("evil_name.pdf", ".pdf") := by decide
  have hexts : ∀ item ∈ [".pdf"], IsExtension ascii item := by
    intro item hitem
    rw [List.mem_singleton.mp hitem]
    refine ⟨['p', 'd', 'f'], by decide, ?_⟩
    simp only [List.forall_mem_cons]
    exact ⟨by decide, by decide, by decide, fun _ h => absurd h List.not_mem_nil⟩
  have hkey := accepted_key ascii [".pdf"] 10 hexts _ _ _ _ hv
  exact ⟨hv, hkey.1, (hkey.2 3 5).1⟩

end WhaleMas.ObjectKeys
