import Mathlib

/-!
Lists whose members may name a parent by its key. Where every parent comes earlier in the list
than its children, following parents from any member ends.
-/

namespace WhaleMas.Lineage

variable {α K : Type*} (key : α → K) (parent : α → Option K) (R : α → α → Prop)

/-- Every parent that a member names comes before it, and is related to it. -/
def Grounded (l : List α) : Prop :=
  ∀ pre a post, l = pre ++ a :: post → ∀ k, parent a = some k → ∃ b ∈ pre, key b = k ∧ R b a

variable {key parent R}

lemma grounded_nil : Grounded key parent R [] := by
  intro pre a post h
  simp at h

lemma Grounded.of_prefix {l m : List α} (h : Grounded key parent R m) (hl : l <+: m) :
    Grounded key parent R l := by
  obtain ⟨t, rfl⟩ := hl
  intro pre a post hpre
  exact h pre a (post ++ t) (by simp [hpre])

lemma grounded_snoc {l : List α} {a : α} : Grounded key parent R (l ++ [a]) ↔
    Grounded key parent R l ∧ ∀ k, parent a = some k → ∃ b ∈ l, key b = k ∧ R b a := by
  refine ⟨fun h => ⟨h.of_prefix (List.prefix_append ..), fun k => h l a [] rfl k⟩, ?_⟩
  rintro ⟨hl, ha⟩ pre b post hpre
  rcases List.eq_nil_or_concat post with rfl | ⟨post, c, rfl⟩
  · obtain ⟨rfl, hb⟩ := List.append_inj' hpre rfl
    obtain rfl : a = b := by simpa using hb
    exact ha
  · have hsplit : l ++ [a] = (pre ++ b :: post) ++ [c] := by simpa using hpre
    exact hl pre b post (List.append_inj' hsplit rfl).1

/-- A member with a parent has it in the list. -/
lemma Grounded.parent_mem {l : List α} (h : Grounded key parent R l) {a : α} (ha : a ∈ l) {k : K}
    (hk : parent a = some k) : ∃ b ∈ l, key b = k ∧ R b a := by
  obtain ⟨pre, post, rfl⟩ := List.append_of_mem ha
  obtain ⟨b, hb, hkey⟩ := h pre a post rfl k hk
  exact ⟨b, by simp [hb], hkey⟩

/-- Members go, and those that stay forget the parents that go. -/
lemma Grounded.prune {l : List α} {p : α → Prop} [DecidablePred p] {f : α → α}
    (h : Grounded key parent R l) (hkey : ∀ a, key (f a) = key a)
    (hR : ∀ a b, R b a → R (f b) (f a))
    (hparent : ∀ a k, parent (f a) = some k → parent a = some k ∧ ∀ b, key b = k → p b) :
    Grounded key parent R ((l.filter p).map f) := by
  induction l using List.reverseRecOn with
  | nil => exact grounded_nil
  | append_singleton l a ih =>
    obtain ⟨hl, ha⟩ := grounded_snoc.mp h
    rw [List.filter_append, List.map_append]
    by_cases hp : p a
    · simp only [hp, decide_true, List.filter_cons_of_pos, List.filter_nil, List.map_cons,
        List.map_nil]
      refine grounded_snoc.mpr ⟨ih hl, fun k hk => ?_⟩
      obtain ⟨hpa, hstays⟩ := hparent a k hk
      obtain ⟨b, hb, hbk, hba⟩ := ha k hpa
      have hmem : b ∈ l.filter p := List.mem_filter.mpr ⟨hb, by simpa using hstays b hbk⟩
      exact ⟨f b, List.mem_map_of_mem hmem, (hkey b).trans hbk, hR a b hba⟩
    · simpa [hp] using ih hl

/-- The front of a list is exchanged for one that keeps the parents of the rest. -/
lemma Grounded.exchange {l l' m : List α} (h : Grounded key parent R (l ++ m))
    (hl' : Grounded key parent R l') (hparent : ∀ a ∈ m, ∀ k, parent a = some k →
      ∀ b ∈ l, key b = k → R b a → ∃ b' ∈ l', key b' = k ∧ R b' a) :
    Grounded key parent R (l' ++ m) := by
  induction m using List.reverseRecOn with
  | nil => simpa using hl'
  | append_singleton m a ih =>
    rw [← List.append_assoc] at h ⊢
    obtain ⟨hm, ha⟩ := grounded_snoc.mp h
    refine grounded_snoc.mpr ⟨ih hm fun b hb => hparent b (by simp [hb]), fun k hk => ?_⟩
    obtain ⟨b, hb, hbk, hba⟩ := ha k hk
    rcases List.mem_append.mp hb with hb | hb
    · obtain ⟨b', hb', hkey⟩ := hparent a (by simp) k hk b hb hbk hba
      exact ⟨b', by simp [hb'], hkey⟩
    · exact ⟨b, by simp [hb], hbk, hba⟩

/-! ### Following parents -/

variable [DecidableEq K]

variable (key parent) in
/-- The member of a list that is reached from `a` by following `n` parents. -/
def ancestor (l : List α) : ℕ → α → Option α
  | 0, a => some a
  | n + 1, a => ((parent a).bind fun k => l.find? fun b => key b = k).bind (ancestor l n)

/-- **Following parents ends**, from every member of a grounded list. -/
theorem Grounded.ends {l : List α} (h : Grounded key parent R l) {a : α} (ha : a ∈ l) :
    ∃ n, ancestor key parent l n a = none := by
  -- by the place of the member: its parent is found at an earlier one
  have hplace : ∀ m pre a post, pre.length = m → l = pre ++ a :: post →
      ∃ n, ancestor key parent l n a = none := by
    intro m
    induction m using Nat.strongRecOn with
    | ind m ih =>
      intro pre a post hm hl
      cases hk : parent a with
      | none => exact ⟨1, by simp [ancestor, hk]⟩
      | some k =>
        obtain ⟨b, hb, hbk, -⟩ := h pre a post hl k hk
        obtain ⟨c, hc⟩ : ∃ c, pre.find? (fun b => key b = k) = some c := by
          rw [← Option.isSome_iff_exists, List.find?_isSome]
          exact ⟨b, hb, by simpa using hbk⟩
        obtain ⟨pre', post', hpre⟩ := List.append_of_mem (List.mem_of_find?_eq_some hc)
        have hshort : pre'.length < m := by
          rw [← hm, hpre]
          simp
        obtain ⟨n, hn⟩ := ih pre'.length hshort pre' c (post' ++ a :: post) rfl (by simp [hl, hpre])
        have hfind : l.find? (fun b => key b = k) = some c := by
          rw [hl, List.find?_append, hc]
          rfl
        exact ⟨n + 1, by simp [ancestor, hk, hfind, hn]⟩
  obtain ⟨pre, post, hl⟩ := List.append_of_mem ha
  exact hplace _ pre a post rfl hl

end WhaleMas.Lineage
