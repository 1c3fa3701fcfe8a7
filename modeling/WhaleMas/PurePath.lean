import Mathlib.Data.Int.Notation
import Mathlib.Tactic.SplitIfs
import Mathlib.Data.List.Basic

/-!
The name, the stem and the suffix of a path, as Python's `pathlib` takes them on POSIX.
-/

namespace WhaleMas.PurePath

/-- The last component of a path; empty components and dots are no components. -/
def name (path : List Char) : List Char :=
  ((path.splitOn '/').filter fun x => x ≠ [] && x ≠ ['.']).getLastD []

/-- `str.rfind`. -/
def rfind (s : List Char) (c : Char) : ℤ := s.length - 1 - s.reverse.idxOf c

def suffix (path : List Char) : List Char :=
  let name := name path
  let i := rfind name '.'
  if 0 < i ∧ i < name.length - 1 then name.drop i.toNat else []

def stem (path : List Char) : List Char :=
  let name := name path
  let i := rfind name '.'
  if 0 < i ∧ i < name.length - 1 then name.take i.toNat else name

/-! ### The last occurrence -/

lemma exists_last_of_mem {α : Type} {s : List α} {c : α} (h : c ∈ s) :
    ∃ t x, s = t ++ c :: x ∧ c ∉ x := by
  obtain ⟨x, t, hs, hx⟩ := List.eq_append_cons_of_mem (List.mem_reverse.mpr h)
  refine ⟨t.reverse, x.reverse, ?_, by simpa using hx⟩
  have hr := congrArg List.reverse hs
  simpa using hr

lemma rfind_append_cons {t x : List Char} {c : Char} (hx : c ∉ x) :
    rfind (t ++ c :: x) c = t.length := by
  have hr : (t ++ c :: x).reverse = x.reverse ++ c :: t.reverse := by simp
  have hi : (t ++ c :: x).reverse.idxOf c = x.length := by
    rw [hr, List.idxOf_append_of_notMem (by simpa using hx), List.length_reverse,
      List.idxOf_cons_self, Nat.add_zero]
  unfold rfind
  rw [hi]
  simp only [List.length_append, List.length_cons]
  omega

lemma rfind_of_not_mem {s : List Char} {c : Char} (h : c ∉ s) : rfind s c = -1 := by
  unfold rfind
  rw [List.idxOf_of_notMem (by simpa using h), List.length_reverse]
  omega

/-! ### Names -/

lemma not_mem_of_mem_splitOn {c : Char} {s x : List Char} (h : x ∈ s.splitOn c) : c ∉ x := by
  induction hn : s.length using Nat.strongRecOn generalizing s with
  | ind n ih =>
    subst hn
    by_cases hc : c ∈ s
    · obtain ⟨t, y, rfl, hy⟩ := exists_last_of_mem hc
      rw [List.splitOn_append_cons_self, List.splitOn_eq_singleton hy, List.mem_append] at h
      rcases h with h | h
      · exact ih t.length (by simp) h rfl
      · rwa [List.mem_singleton.mp h]
    · rw [List.splitOn_eq_singleton hc] at h
      rwa [List.mem_singleton.mp h]

lemma mem_splitOn_or_nil (path : List Char) : name path ∈ path.splitOn '/' ∨ name path = [] := by
  unfold name
  rcases hl : (path.splitOn '/').filter fun x => x ≠ [] && x ≠ ['.'] with _ | ⟨x, l⟩
  · exact Or.inr rfl
  · refine Or.inl (List.mem_of_mem_filter (p := fun x => x ≠ [] && x ≠ ['.']) ?_)
    rw [hl, List.getLastD_cons]
    exact List.getLastD_mem_cons

lemma slash_not_mem_name (path : List Char) : '/' ∉ name path := by
  rcases mem_splitOn_or_nil path with h | h
  · exact not_mem_of_mem_splitOn h
  · rw [h]
    exact List.not_mem_nil

lemma name_eq_self {s : List Char} (hs : '/' ∉ s) (hd : s ≠ ['.']) : name s = s := by
  unfold name
  rw [List.splitOn_eq_singleton hs]
  by_cases hn : s = []
  · simp [hn]
  · simp [hn, hd]

lemma name_append {t x : List Char} (hs : '/' ∉ x) (hn : x ≠ []) (hd : x ≠ ['.']) :
    name (t ++ '/' :: x) = x := by
  unfold name
  rw [List.splitOn_append_cons_self, List.splitOn_eq_singleton hs, List.filter_append]
  simp [hn, hd]

/-- A path ends in its name, or in a separator or a dot. -/
lemma name_isSuffix_or (path : List Char) :
    name path <:+ path ∨ ∃ t c, path = t ++ [c] ∧ (c = '/' ∨ c = '.') := by
  by_cases hs : '/' ∈ path
  · obtain ⟨t, x, rfl, hx⟩ := exists_last_of_mem hs
    by_cases hn : x = []
    · exact Or.inr ⟨t, '/', by rw [hn], Or.inl rfl⟩
    by_cases hd : x = ['.']
    · exact Or.inr ⟨t ++ ['/'], '.', by simp [hd], Or.inr rfl⟩
    · rw [name_append hx hn hd]
      exact Or.inl ⟨t ++ ['/'], by simp⟩
  · by_cases hd : path = ['.']
    · exact Or.inr ⟨[], '.', hd, Or.inr rfl⟩
    · rw [name_eq_self hs hd]
      exact Or.inl List.suffix_rfl

/-! ### Stems and suffixes -/

/-- A name with a suffix: a dot inside it, and no dot after that one. -/
lemma split_of_name {path st t : List Char} (h : name path = st ++ '.' :: t) (hst : st ≠ [])
    (ht : t ≠ []) (hd : '.' ∉ t) : stem path = st ∧ suffix path = '.' :: t := by
  have hi : 0 < rfind (name path) '.' ∧ rfind (name path) '.' < (name path).length - 1 := by
    have h1 := List.length_pos_of_ne_nil hst
    have h2 := List.length_pos_of_ne_nil ht
    rw [h, rfind_append_cons hd]
    simp only [List.length_append, List.length_cons]
    omega
  simp only [stem, suffix, if_pos hi]
  rw [h, rfind_append_cons hd]
  simp

/-- A name without a suffix: no dot, only a first one, or a last one. -/
lemma whole_of_name {path : List Char}
    (h : ∀ st t, name path = st ++ '.' :: t → '.' ∉ t → st = [] ∨ t = []) :
    stem path = name path ∧ suffix path = [] := by
  have hi : ¬ (0 < rfind (name path) '.' ∧ rfind (name path) '.' < (name path).length - 1) := by
    by_cases hd : '.' ∈ name path
    · obtain ⟨st, t, hp, ht⟩ := exists_last_of_mem hd
      have hcase := h st t hp ht
      rw [hp, rfind_append_cons ht]
      rcases hcase with rfl | rfl <;> simp
    · rw [rfind_of_not_mem hd]
      omega
  exact ⟨if_neg hi, if_neg hi⟩

/-- Either a name has a suffix, or its stem is all of it. -/
lemma suffix_cases (path : List Char) :
    (∃ st t, name path = st ++ '.' :: t ∧ st ≠ [] ∧ t ≠ [] ∧ '.' ∉ t ∧ stem path = st ∧
      suffix path = '.' :: t) ∨
    (stem path = name path ∧ suffix path = [] ∧
      ∀ st t, name path = st ++ '.' :: t → '.' ∉ t → st = [] ∨ t = []) := by
  by_cases h : ∃ st t, name path = st ++ '.' :: t ∧ '.' ∉ t ∧ st ≠ [] ∧ t ≠ []
  · obtain ⟨st, t, hp, hd, hst, ht⟩ := h
    exact Or.inl ⟨st, t, hp, hst, ht, hd, split_of_name hp hst ht hd⟩
  · have hw : ∀ st t, name path = st ++ '.' :: t → '.' ∉ t → st = [] ∨ t = [] := by
      intro st t hp hd
      by_contra hc
      push Not at hc
      exact h ⟨st, t, hp, hd, hc.1, hc.2⟩
    exact Or.inr ⟨(whole_of_name hw).1, (whole_of_name hw).2, hw⟩

end WhaleMas.PurePath
