import WhaleMas.FileValidation

/-!
The extension that is checked against the extension that was sent. The two agree when the
client's name ends in its suffix, or when neither that name nor its cleaned stem has one.
-/

namespace WhaleMas.SentExtension

open WhaleMas.Models WhaleMas.Services WhaleMas.UnicodeText WhaleMas.FileValidation

variable {u : Unicode}

/-- The client's name, in lower case, and the cleaned name end with the extension. -/
def Sent (u : Unicode) (filename cleaned extension : String) : Prop :=
  extension.toList <:+ u.lower (normalizedName u filename) ∧ extension.toList <:+ cleaned.toList

/-- A name that ends in its suffix, whose capital sigmas end a word there as they do in the
suffix alone. -/
def EndsInSuffix (u : Unicode) (name : List Char) : Prop :=
  PurePath.suffix name ≠ [] ∧ ∃ before, name = before ++ PurePath.suffix name ∧
    ∀ t r, PurePath.suffix name = t ++ 'Σ' :: r →
      u.isFinalSigma (t.reverse ++ before.reverse) r = u.isFinalSigma t.reverse r

/-- A letter, a digit or a hyphen. -/
def IsKept (u : Unicode) (c : Char) : Prop := u.isWord c ∧ c ≠ '_' ∨ c = '-'

/-- What stands before and after a dot of the name that cleaning keeps, because letters, digits
or hyphens stand on both sides of it. -/
structure KeptDot (u : Unicode) (name before after : List Char) : Prop where
  parts : PurePath.name name = before ++ '.' :: after
  left : ∃ c ∈ before, IsKept u c
  right : ∃ c ∈ after, IsKept u c

/-- The characters that cleaning replaces, and those that it strips. -/
def replaced (u : Unicode) (c : Char) : Bool := !(u.isWord c || c = '.' || c = '-')
def stripped (c : Char) : Bool := c = '.' || c = '_'

/-- How many characters cleaning makes of the beginning of a name. -/
def cleanedLength (u : Unicode) (before : List Char) : ℕ :=
  ((subRuns (replaced u) '_' false before).dropWhile stripped).length

/-- A name without a suffix, of which no kept dot is among the first two hundred characters, or
one is the last of these. -/
def HasNoSuffix (u : Unicode) (name : List Char) : Prop :=
  PurePath.suffix name = [] ∧
    ((∀ before after, KeptDot u name before after → 200 ≤ cleanedLength u before) ∨
      ∃ before after, KeptDot u name before after ∧ cleanedLength u before = 199)

/-! ### A name with a suffix -/

/-- A text that ends in a separator or a dot has no suffix that ends in neither. -/
lemma not_isSuffix_of_end {w t : List Char} {c : Char} (hc : c = '.' ∨ c = '/') (ht : t ≠ [])
    (hct : c ∉ t) : ¬ '.' :: t <:+ u.lower (w ++ [c]) := by
  rintro ⟨x, hx⟩
  obtain ⟨y, hy⟩ := lowerFrom_suffix (u := u) [] w [c]
  have hlow : u.lower (w ++ [c]) = y ++ [c] := by
    rw [Unicode.lower, hy, lowerFrom_cons_of_isLow (lowerChar_of_mark hc), lowerFrom_nil]
  obtain ⟨t', d, rfl⟩ : ∃ t' d, t = t' ++ [d] :=
    ⟨t.dropLast, t.getLast ht, (List.dropLast_append_getLast ht).symm⟩
  have hlast : (x ++ '.' :: t') ++ [d] = y ++ [c] := by
    rw [← hlow, ← hx]
    simp
  obtain rfl := (List.append_inj' hlast rfl).2 |> List.cons.inj |>.1
  exact hct (by simp)

/-- The suffix of a text in lower case is the lower case of its suffix, or the sigmas differ. -/
lemma lower_isSuffix_iff {n before t : List Char} (hn : n = before ++ t) :
    u.lower t <:+ u.lower n ↔ ∀ s r, t = s ++ 'Σ' :: r →
      u.isFinalSigma (s.reverse ++ before.reverse) r = u.isFinalSigma s.reverse r := by
  subst hn
  obtain ⟨x, hx⟩ := lowerFrom_suffix (u := u) [] before t
  have hiff := lowerFrom_eq_iff (u := u) (before.reverse ++ []) [] t
  simp only [List.append_nil] at hiff hx
  rw [← hiff, Unicode.lower, Unicode.lower, hx]
  constructor
  · rintro ⟨y, hy⟩
    exact ((List.append_inj' hy (length_lowerFrom [] before.reverse t)).2).symm
  · intro h
    rw [h]
    exact List.suffix_append x _

lemma sent_iff_of_suffix {f : String} {st t : List Char}
    (hp : PurePath.name (normalizedName u f) = st ++ '.' :: t) (hst : st ≠ []) (ht : t ≠ [])
    (hd : '.' ∉ t) :
    Sent u f (safeFilename u f) (extensionOf u (safeFilename u f)) ↔
      EndsInSuffix u (normalizedName u f) := by
  have hsuf := (PurePath.split_of_name hp hst ht hd).2
  have hne : PurePath.suffix (normalizedName u f) ≠ [] := by
    rw [hsuf]
    exact List.cons_ne_nil _ _
  obtain ⟨t', ht', hd', -, hl, hs⟩ := suffix_safeFilename hp hst ht hd
  have hext : (extensionOf u (safeFilename u f)).toList =
      u.lower (PurePath.suffix (normalizedName u f)) := by
    rw [extensionOf, String.toList_ofList, hs, ← hl, lower_lower]
  have hcleaned : u.lower (PurePath.suffix (normalizedName u f)) <:+
      (safeFilename u f).toList := by
    rw [toList_safeFilename]
    exact List.suffix_append _ _
  unfold Sent
  rw [hext]
  constructor
  · rintro ⟨hsent, -⟩
    rcases PurePath.name_isSuffix_or (normalizedName u f) with ⟨w, hw⟩ | ⟨w, c, hw, hc⟩
    · have hn : normalizedName u f = (w ++ st) ++ PurePath.suffix (normalizedName u f) := by
        rw [hsuf, List.append_assoc, ← hp, hw]
      exact ⟨hne, w ++ st, hn, (lower_isSuffix_iff hn).mp hsent⟩
    · -- the normalised name ends in a separator or a dot, the extension in neither
      have hct : c ∉ t' := by
        rcases hc with rfl | rfl
        · intro hm
          have hml : '/' ∈ u.lower (PurePath.suffix (normalizedName u f)) := by
            rw [hl]
            exact List.mem_cons_of_mem _ hm
          exact slash_not_mem_suffix _ (mark_of_mem_lowerFrom hml (by decide))
        · exact hd'
      rw [hl, hw] at hsent
      exact absurd hsent (not_isSuffix_of_end hc.symm ht' hct)
  · rintro ⟨-, before, hn, hsig⟩
    exact ⟨(lower_isSuffix_iff hn).mpr hsig, hcleaned⟩

/-! ### A name without a suffix -/

/-- A dot of a clean stem is one that its strip leaves. -/
lemma dot_mem_strip {name : List Char} (h : '.' ∈ cleanStem u name) :
    '.' ∈ strip (fun c => c = '.' || c = '_')
      (subRuns (fun c => !(u.isWord c || c = '.' || c = '-')) '_' false (PurePath.stem name)) := by
  unfold cleanStem at h
  dsimp only at h
  split_ifs at h
  · exact absurd h (by decide)
  · exact h

lemma dot_mem_of_subRuns {p : Char → Bool} {s : List Char} (h : '.' ∈ subRuns p '_' false s) :
    '.' ∈ s := by
  rcases mem_subRuns h with hc | ⟨hc, -⟩
  · exact absurd hc (by decide)
  · exact hc

/-- The stem of a name that starts with its last dot is clean of dots. -/
lemma dot_not_mem_cleanStem {name t : List Char} (h : PurePath.stem name = '.' :: t)
    (hd : '.' ∉ t) : '.' ∉ cleanStem u name := by
  intro hc
  have hm := dot_mem_strip hc
  have hsub : subRuns (fun c => !(u.isWord c || c = '.' || c = '-')) '_' false ('.' :: t) =
      '.' :: subRuns (fun c => !(u.isWord c || c = '.' || c = '-')) '_' false t := by
    simp [subRuns]
  rw [h, hsub, strip, List.dropWhile_cons_of_pos (by simp)] at hm
  exact hd (dot_mem_of_subRuns (mem_of_mem_strip hm))

/-- A name without a suffix whose clean stem has a dot ends in a separator or a dot. -/
lemma end_of_dot_mem_cleanStem {name : List Char} (hs : PurePath.suffix name = [])
    (hd : '.' ∈ cleanStem u name) : ∃ w c, name = w ++ [c] ∧ (c = '/' ∨ c = '.') := by
  rcases PurePath.suffix_cases name with ⟨_, _, _, _, _, _, _, hsuf⟩ | ⟨hstem, -, hcases⟩
  · rw [hs] at hsuf
    cases hsuf
  rcases PurePath.name_isSuffix_or name with ⟨w, hw⟩ | hend
  · have hdot : '.' ∈ PurePath.name name := by
      rw [← hstem]
      exact dot_mem_of_subRuns (mem_of_mem_strip (dot_mem_strip hd))
    obtain ⟨st, t, hp, ht⟩ := PurePath.exists_last_of_mem hdot
    rcases hcases st t hp ht with rfl | rfl
    · rw [List.nil_append] at hp
      exact absurd hd (dot_not_mem_cleanStem (hstem.trans hp) ht)
    · exact ⟨w ++ st, '.', by rw [List.append_assoc, ← hp, hw], Or.inr rfl⟩
  · exact hend

lemma IsKept.keep {c : Char} (h : IsKept u c) : replaced u c = false ∧ stripped c = false := by
  rcases h with ⟨hw, hne⟩ | rfl
  · have hdot : c ≠ '.' := by
      rintro rfl
      exact isWord_not_mark hw (by simp [IsMark])
    simp [replaced, stripped, hw, hne, hdot]
  · simp [replaced, stripped]

/-- What the replacement leaves besides dots and underscores is kept. -/
lemma exists_isKept {s : List Char}
    (h : ∃ c ∈ subRuns (replaced u) '_' false s, stripped c = false) : ∃ c ∈ s, IsKept u c := by
  obtain ⟨c, hc, hq⟩ := h
  simp only [stripped, Bool.or_eq_false_iff, decide_eq_false_iff_not] at hq
  rcases mem_subRuns hc with rfl | ⟨hcs, hp⟩
  · exact absurd rfl hq.2
  · simp only [replaced, Bool.not_eq_false', Bool.or_eq_true, decide_eq_true_eq] at hp
    rcases hp with (hw | rfl) | rfl
    · exact ⟨c, hcs, Or.inl ⟨hw, hq.2⟩⟩
    · exact absurd rfl hq.1
    · exact ⟨_, hcs, Or.inr rfl⟩

lemma exists_not_stripped {s : List Char} (h : ∃ c ∈ s, IsKept u c) :
    ∃ c ∈ subRuns (replaced u) '_' false s, stripped c = false := by
  obtain ⟨c, hc, hk⟩ := h
  exact ⟨c, mem_subRuns_of_mem hc hk.keep.1, hk.keep.2⟩

lemma cleanStem_of_no_suffix {name : List Char} (hs : PurePath.suffix name = []) :
    cleanStem u name =
      if strip stripped (subRuns (replaced u) '_' false (PurePath.name name)) = [] then
        ['e', 'v', 'i', 'd', 'e', 'n', 'c', 'e']
      else strip stripped (subRuns (replaced u) '_' false (PurePath.name name)) := by
  rcases PurePath.suffix_cases name with ⟨_, _, _, _, _, _, _, hsuf⟩ | ⟨hstem, -, -⟩
  · rw [hs] at hsuf
    cases hsuf
  · rw [← hstem]
    rfl

/-- A kept dot is in the clean stem, with something behind it. -/
lemma cleanStem_of_keptDot {name before after : List Char} (hs : PurePath.suffix name = [])
    (h : KeptDot u name before after) : ∃ v w, cleanStem u name = v ++ '.' :: w ∧
      v.length = cleanedLength u before ∧ w ≠ [] := by
  have hstrip := strip_append (c := '.') (exists_not_stripped h.left)
    (exists_not_stripped h.right)
  rw [← subRuns_append (by simp [replaced]), ← h.parts] at hstrip
  refine ⟨_, (subRuns (replaced u) '_' false after).rdropWhile stripped, ?_, rfl, ?_⟩
  · rw [cleanStem_of_no_suffix hs, hstrip, if_neg (by simp)]
  · rw [Ne, List.rdropWhile_eq_nil_iff]
    intro hall
    obtain ⟨c, hc, hq⟩ := exists_not_stripped h.right
    rw [hall c hc] at hq
    cases hq

/-- And the dots of the clean stem are kept ones. -/
lemma keptDot_of_cleanStem {name v w : List Char} (hs : PurePath.suffix name = [])
    (h : cleanStem u name = v ++ '.' :: w) :
    ∃ before after, KeptDot u name before after ∧ cleanedLength u before = v.length := by
  rw [cleanStem_of_no_suffix hs] at h
  split_ifs at h
  · have hdot : '.' ∈ v ++ '.' :: w := by simp
    rw [← h] at hdot
    exact absurd hdot (by decide)
  · obtain ⟨x, y, hx, rfl, hleft, hright⟩ := strip_split (by simp [stripped]) h
    obtain ⟨before, after, hname, rfl, rfl⟩ := subRuns_split (by decide) hx
    exact ⟨before, after, ⟨hname, exists_isKept hleft, exists_isKept hright⟩, rfl⟩

/-- What is left of the clean stem where it is cut has no suffix, in terms of the name. -/
lemma cut_iff {name : List Char} (hs : PurePath.suffix name = []) :
    ('.' ∉ (cleanStem u name).take 200 ∨ ((cleanStem u name).take 200).getLast? = some '.') ↔
      (∀ before after, KeptDot u name before after → 200 ≤ cleanedLength u before) ∨
        ∃ before after, KeptDot u name before after ∧ cleanedLength u before = 199 := by
  have hcut := List.take_append_drop 200 (cleanStem u name)
  refine or_congr ⟨fun hno before after hk => ?_, fun hfar hmem => ?_⟩
    ⟨fun hlast => ?_, fun ⟨before, after, hk, hlen⟩ => ?_⟩
  · obtain ⟨v, w, hvw, hv, -⟩ := cleanStem_of_keptDot hs hk
    by_contra hlt
    refine hno ?_
    rw [hvw, List.take_append, List.take_cons (by omega)]
    simp
  · obtain ⟨v, w, hvw⟩ := List.append_of_mem hmem
    rw [hvw, List.append_assoc, List.cons_append] at hcut
    obtain ⟨before, after, hk, hlen⟩ := keptDot_of_cleanStem hs hcut.symm
    have hfew : v.length < 200 := by
      have := congrArg List.length hvw
      simp only [List.length_take, List.length_append, List.length_cons] at this
      omega
    exact absurd (hfar before after hk) (by omega)
  · obtain ⟨v, hv⟩ := List.getLast?_eq_some_iff.mp hlast
    rw [hv, List.append_assoc, List.singleton_append] at hcut
    obtain ⟨before, after, hk, hlen⟩ := keptDot_of_cleanStem hs hcut.symm
    obtain ⟨v', w, hvw, hv', hw⟩ := cleanStem_of_keptDot hs hk
    -- something stands behind the dot, so the stem was cut there
    obtain ⟨-, hrest⟩ := List.append_inj (hcut.trans hvw) (by omega)
    have hlong : 200 < (cleanStem u name).length := by
      by_contra hle
      rw [List.drop_of_length_le (by omega)] at hrest
      exact hw (List.cons.inj hrest).2.symm
    refine ⟨before, after, hk, ?_⟩
    have := congrArg List.length hv
    simp only [List.length_take, List.length_append, List.length_singleton] at this
    omega
  · obtain ⟨v, w, hvw, hv, -⟩ := cleanStem_of_keptDot hs hk
    rw [hvw, List.take_append, List.take_of_length_le (by omega), hv, hlen]
    simp

lemma sent_iff_of_no_suffix {f : String} (hs : PurePath.suffix (normalizedName u f) = []) :
    Sent u f (safeFilename u f) (extensionOf u (safeFilename u f)) ↔
      HasNoSuffix u (normalizedName u f) := by
  have hcl : (safeFilename u f).toList = (cleanStem u (normalizedName u f)).take 200 := by
    rw [toList_safeFilename, hs, Unicode.lower, lowerFrom_nil, List.append_nil]
  have hext : (extensionOf u (safeFilename u f)).toList =
      u.lower (PurePath.suffix (safeFilename u f).toList) := by
    rw [extensionOf, String.toList_ofList]
  unfold Sent HasNoSuffix
  rw [hext, ← cut_iff hs, ← hcl]
  rcases PurePath.suffix_cases (safeFilename u f).toList with
    ⟨st, t, hp, -, ht, hd, -, hsuf⟩ | ⟨-, hsuf, hcases⟩
  · -- the cut stem has a suffix, the client's name ends in a separator or a dot
    rw [name_safeFilename] at hp
    have hlow : u.lower (PurePath.suffix (safeFilename u f).toList) =
        '.' :: u.lowerFrom ['.'] t := by
      rw [hsuf]
      exact lowerFrom_cons_of_isLow (lowerChar_of_mark (Or.inl rfl))
    have hdot : '.' ∈ cleanStem u (normalizedName u f) := by
      refine List.mem_of_mem_take (i := 200) ?_
      rw [← hcl, hp]
      simp
    obtain ⟨w, c, hw, hc⟩ := end_of_dot_mem_cleanStem hs hdot
    have hct : c ∉ u.lowerFrom ['.'] t := by
      intro hm
      have hmt : c ∈ t := mark_of_mem_lowerFrom hm (by rcases hc with rfl | rfl <;> decide)
      rcases hc with rfl | rfl
      · refine slash_not_mem_safeFilename (u := u) f ?_
        rw [hp]
        simp [hmt]
      · exact hd hmt
    constructor
    · rintro ⟨hsent, -⟩
      rw [hlow, hw] at hsent
      exact absurd hsent (not_isSuffix_of_end hc.symm (lowerFrom_ne_nil ht) hct)
    · rintro ⟨-, hno | hlast⟩
      · refine absurd ?_ hno
        rw [hp]
        simp
      · rw [hp, List.getLast?_append_cons, List.getLast?_cons_of_ne_nil ht] at hlast
        exact absurd (List.mem_of_getLast? hlast) hd
  · -- neither has a suffix
    rw [name_safeFilename] at hcases
    rw [hsuf]
    refine ⟨fun _ => ⟨hs, ?_⟩, fun _ => ⟨List.nil_suffix, List.nil_suffix⟩⟩
    by_cases hd : '.' ∈ (safeFilename u f).toList
    · obtain ⟨st, t, hp, ht⟩ := PurePath.exists_last_of_mem hd
      rcases hcases st t hp ht with rfl | rfl
      · obtain ⟨c, w, hw, hc, -⟩ := safeFilename_eq_cons (u := u) f
        rw [hw] at hp
        exact absurd (List.cons.inj hp).1 hc
      · rw [hp]
        exact Or.inr (by simp)
    · exact Or.inl hd

/-- **The extension checked is the extension sent** exactly for the names that end in their
suffix, and for those without one whose cleaned stem has none either. -/
theorem sent_iff (u : Unicode) (exts : List String) (maxSizeBytes : ℕ)
    (filename : String) (contentType : Option String) (cleaned extension : String)
    (h : (fileValidator u exts maxSizeBytes).validateMetadata (some filename) contentType =
      .ok (cleaned, extension)) :
    Sent u filename cleaned extension ↔
      EndsInSuffix u (normalizedName u filename) ∨ HasNoSuffix u (normalizedName u filename) := by
  obtain ⟨f, hf, ha⟩ := validateMetadata_ok h
  obtain rfl := Option.some.inj hf
  obtain rfl := ha.cleaned_eq
  obtain rfl := ha.extension_eq
  rcases PurePath.suffix_cases (normalizedName u filename) with
    ⟨st, t, hp, hst, ht, hd, -, hs⟩ | ⟨-, hs, -⟩
  · rw [sent_iff_of_suffix hp hst ht hd]
    refine ⟨Or.inl, ?_⟩
    rintro (he | ⟨hno, -⟩)
    · exact he
    · rw [hs] at hno
      cases hno
  · rw [sent_iff_of_no_suffix hs]
    refine ⟨Or.inr, ?_⟩
    rintro (⟨hne, -⟩ | hno)
    · exact absurd hs hne
    · exact hno

theorem sent_iff_invoice :
    (fileValidator ascii [".pdf"] 10).validateMetadata (some "in/Invoice.PDF")
      (some "application/pdf") = .ok ("Invoice.pdf", ".pdf") ∧
    Sent ascii "in/Invoice.PDF" "Invoice.pdf" ".pdf" ∧
    (EndsInSuffix ascii (normalizedName ascii "in/Invoice.PDF") ∨
      HasNoSuffix ascii (normalizedName ascii "in/Invoice.PDF")) := by
  have hv : (fileValidator ascii [".pdf"] 10).validateMetadata (some "in/Invoice.PDF")
      (some "application/pdf") = .ok ("Invoice.pdf", ".pdf") := by decide
  have hs : Sent ascii "in/Invoice.PDF" "Invoice.pdf" ".pdf" := by
    unfold Sent
    decide
  exact ⟨hv, hs, (sent_iff ascii [".pdf"] 10 _ _ _ _ hv).mp hs⟩

/-- A last dot hides the suffix from its lower case, and the strip brings it back. -/
theorem evilPdf_not_sent :
    (fileValidator ascii [".pdf"] 10).validateMetadata (some "evil.PDF.")
      (some "application/pdf") = .ok ("evil.PDF", ".pdf") ∧
    ¬ ".pdf".toList <:+ ascii.lower (normalizedName ascii "evil.PDF.") ∧
    ¬ ".pdf".toList <:+ "evil.PDF".toList ∧
    ¬ ∀ (filename cleaned extension : String) (contentType : Option String),
      (fileValidator ascii [".pdf"] 10).validateMetadata (some filename) contentType =
        .ok (cleaned, extension) → Sent ascii filename cleaned extension := by
  have hv : (fileValidator ascii [".pdf"] 10).validateMetadata (some "evil.PDF.")
      (some "application/pdf") = .ok ("evil.PDF", ".pdf") := by decide
  have hc : ¬ ".pdf".toList <:+ "evil.PDF".toList := by decide
  exact ⟨hv, by decide, hc, fun h => hc (h _ _ _ _ hv).2⟩

end WhaleMas.SentExtension
