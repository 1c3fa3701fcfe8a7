import WhaleMas.Columns

/-!
The characters of cleaned names. The stem is cleaned of unsafe characters; the suffix is put
in lower case only, so a cleaned name is safe exactly when its suffix is, in lower case. With
the default extensions a validation accepts only such names.
-/

namespace WhaleMas.SafeNames

open WhaleMas.UnicodeText WhaleMas.FileValidation WhaleMas.ObjectKeys WhaleMas.Columns

/-- The characters of a safe name. -/
def IsSafe (u : Unicode) (c : Char) : Prop := u.isWord c ∨ c = '.' ∨ c = '-'

instance (u : Unicode) : DecidablePred (IsSafe u) := fun c => by unfold IsSafe; infer_instance

/-- A name of safe characters that is there, visible, and not a directory of its own. -/
structure IsSafeName (u : Unicode) (name : String) : Prop where
  nonempty : name ≠ ""
  safe : ∀ c ∈ name.toList, IsSafe u c
  not_dots : name ≠ "." ∧ name ≠ ".."
  visible : name.toList.head? ≠ some '.'

/-- A character that is safe in lower case. A capital sigma is, at the end of a word or not. -/
def LowersSafely (u : Unicode) (c : Char) : Prop := c = 'Σ' ∨ ∀ d ∈ u.lowerChar c, IsSafe u d

/-- In the last component of a client's name, normalised and stripped, the last dot is
followed by characters that are safe in lower case. A first dot starts no suffix. -/
def HasSafeSuffix (u : Unicode) (filename : String) : Prop :=
  ∀ st t, PurePath.name (normalizedName u filename) = st ++ '.' :: t → st ≠ [] → '.' ∉ t →
    ∀ c ∈ t, LowersSafely u c

variable {u : Unicode}

/-! ### Lower case -/

/-- A text is safe in lower case when all its characters are. -/
lemma lower_safe_iff (hσ : u.isWord 'σ' ∧ u.isWord 'ς') (s : List Char) :
    (∀ d ∈ u.lower s, IsSafe u d) ↔ ∀ c ∈ s, LowersSafely u c := by
  constructor
  · intro h c hc
    by_cases hne : c = 'Σ'
    · exact Or.inl hne
    · exact Or.inr fun d hd => h d (mem_lowerFrom_of_mem hc hne hd)
  · intro h d hd
    rcases mem_lowerFrom hd with ⟨c, hc, hne, hdc⟩ | rfl | rfl
    · exact (h c hc).resolve_left hne d hdc
    · exact Or.inl hσ.2
    · exact Or.inl hσ.1

lemma lowersSafely_dot : LowersSafely u '.' := by
  refine Or.inr fun d hd => ?_
  rw [(lowerChar_of_mark (Or.inl rfl)).1] at hd
  obtain rfl := List.mem_singleton.mp hd
  exact Or.inr (Or.inl rfl)

/-! ### The suffix -/

/-- The characters after the last dot are those of the suffix. -/
lemma suffix_safe_iff (f : String) :
    (∀ c ∈ PurePath.suffix (normalizedName u f), LowersSafely u c) ↔ HasSafeSuffix u f := by
  constructor
  · intro h st t hp hst hd c hc
    refine h c ?_
    rw [(PurePath.split_of_name hp hst (List.ne_nil_of_mem hc) hd).2]
    exact List.mem_cons_of_mem '.' hc
  · intro h c hc
    rcases PurePath.suffix_cases (normalizedName u f) with
      ⟨st, t, hp, hst, -, hd, -, hs⟩ | ⟨-, hs, -⟩
    · rw [hs] at hc
      rcases List.mem_cons.mp hc with rfl | hc
      · exact lowersSafely_dot
      · exact h st t hp hst hd c hc
    · rw [hs] at hc
      cases hc

/-! ### The cleaned name -/

/-- What a cleaned name can lack is the safety of its suffix. -/
lemma isSafeName_iff (f : String) : IsSafeName u (safeFilename u f) ↔
    ∀ d ∈ u.lower (PurePath.suffix (normalizedName u f)), IsSafe u d := by
  obtain ⟨c, t, hct, hc, -⟩ := safeFilename_eq_cons (u := u) f
  constructor
  · intro h d hd
    apply h.safe
    rw [toList_safeFilename]
    exact List.mem_append_right _ hd
  · intro h
    have hsafe : ∀ d ∈ (safeFilename u f).toList, IsSafe u d := by
      intro d hd
      rw [toList_safeFilename] at hd
      rcases List.mem_append.mp hd with hd | hd
      · exact mem_cleanStem (List.mem_of_mem_take hd)
      · exact h d hd
    have hhead : ∀ s : String, safeFilename u f = s → s.toList.head? = some c := by
      rintro s rfl
      rw [hct, List.head?_cons]
    refine ⟨?_, hsafe, ⟨?_, ?_⟩, ?_⟩
    · intro he
      cases hhead "" he
    · intro he
      exact hc (Option.some.inj (hhead "." he)).symm
    · intro he
      exact hc (Option.some.inj (hhead ".." he)).symm
    · rw [hhead _ rfl]
      intro he
      exact hc (Option.some.inj he)

/-- **A cleaned name is safe** exactly when the suffix of the client's name is safe in lower
case. -/
theorem isSafeName_safeFilename (u : Unicode) (hσ : u.isWord 'σ' ∧ u.isWord 'ς')
    (filename : String) :
    IsSafeName u (safeFilename u filename) ↔ HasSafeSuffix u filename := by
  rw [isSafeName_iff, lower_safe_iff hσ, suffix_safe_iff]

/-- The tables of ASCII, with the small sigmas as letters. -/
def greek : Unicode where
  __ := ascii
  isAlnum c := ascii.isAlnum c || c = 'σ' || c = 'ς'
  isAlnum_ascii c hc := by
    have hs : c ≠ 'σ' := by rintro rfl; revert hc; decide
    have hf : c ≠ 'ς' := by rintro rfl; revert hc; decide
    simp [hs, hf, ascii.isAlnum_ascii c hc]
  isAlnum_blank c hb := by
    have hs : c ≠ 'σ' := by rintro rfl; revert hb; decide
    have hf : c ≠ 'ς' := by rintro rfl; revert hb; decide
    simp [hs, hf, ascii.isAlnum_blank c hb]

theorem isSafeName_evilName :
    safeFilename greek "../../案件/evil name?.PDF" = "evil_name.pdf" ∧
    IsSafeName greek (safeFilename greek "../../案件/evil name?.PDF") := by
  have hsuffix : PurePath.suffix (normalizedName greek "../../案件/evil name?.PDF") =
      ['.', 'P', 'D', 'F'] := by decide
  have hsafe : HasSafeSuffix greek "../../案件/evil name?.PDF" := by
    have hall : ['.', 'P', 'D', 'F'].all (fun c =>
        (greek.lowerChar c).all fun d => decide (IsSafe greek d)) := by decide
    rw [← suffix_safe_iff, hsuffix]
    intro c hc
    refine Or.inr fun d hd => ?_
    exact of_decide_eq_true (List.all_eq_true.mp (List.all_eq_true.mp hall c hc) d hd)
  exact ⟨by decide, (isSafeName_safeFilename greek (by decide) _).mpr hsafe⟩

/-- A question mark is replaced before the last dot, and kept after it. -/
theorem questionMark_kept :
    safeFilename ascii "evil name?.p?f" = "evil_name.p?f" ∧ ¬ IsSafe ascii '?' ∧
    ¬ ∀ filename, IsSafeName ascii (safeFilename ascii filename) := by
  have hname : safeFilename ascii "evil name?.p?f" = "evil_name.p?f" := by decide
  have hmark : ¬ IsSafe ascii '?' := by decide
  refine ⟨hname, hmark, fun h => ?_⟩
  have hall := (h "evil name?.p?f").safe
  rw [hname] at hall
  exact hmark (hall '?' (by decide))

/-! ### Validated names -/

/-- With the default extensions a name that a validation accepts is safe: its suffix is one of
them in lower case. -/
theorem isSafeName_of_validated (u : Unicode) (maxSizeBytes : ℕ) (filename : String)
    (contentType : Option String) (cleaned extension : String)
    (h : (fileValidator u defaultExtensions maxSizeBytes).validateMetadata (some filename)
      contentType = .ok (cleaned, extension)) : IsSafeName u cleaned := by
  obtain ⟨f, -, ha⟩ := validateMetadata_ok h
  rw [lowered_default] at ha
  obtain rfl := ha.cleaned_eq
  rw [isSafeName_iff]
  intro d hd
  rcases PurePath.suffix_cases (normalizedName u f) with
    ⟨st, t, hp, hst, ht, hdot, -, -⟩ | ⟨-, hs, -⟩
  · obtain ⟨w, hw, hword⟩ := isExtension_default (u := u) extension ha.mem_allowed
    rw [← extensionOf_of_suffix hp hst ht hdot, ← ha.extension_eq, hw] at hd
    rcases List.mem_cons.mp hd with rfl | hd
    · exact Or.inr (Or.inl rfl)
    · exact Or.inl (hword d hd)
  · rw [hs] at hd
    cases hd

end WhaleMas.SafeNames
