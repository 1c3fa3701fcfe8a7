import WhaleMas.HashChain

/-!
Reading a set of rows page by page, every page from a query of its own.

A query lists the rows in some order that keeps to its key; rows with equal keys may come in
another order in the next query. The rows before a position are the same in all orders
unless rows with equal keys stand on both sides of it. Hence the pages are a partition of
the rows exactly when no page ends between rows with equal keys.
-/

namespace WhaleMas.OffsetPaging

/-! ### Predicates that hold on a prefix -/

section Prefix

variable {α : Type*} {P : α → Bool}

lemma countP_eq_zero_of_head {a : α} {l : List α}
    (h : (a :: l).Pairwise fun x y => P y = true → P x = true) (ha : P a = false) :
    l.countP P = 0 := by
  rw [List.countP_eq_zero]
  intro b hb hPb
  have hPa := (List.pairwise_cons.mp h).1 b hb hPb
  rw [ha] at hPa
  cases hPa

lemma take_countP {l : List α} (h : l.Pairwise fun x y => P y = true → P x = true) :
    l.take (l.countP P) = l.filter P := by
  induction l with
  | nil => rfl
  | cons a l ih =>
    have hl := (List.pairwise_cons.mp h).2
    cases ha : P a with
    | true => simp [ha, ih hl]
    | false =>
      have hzero := countP_eq_zero_of_head h ha
      have hnil : l.filter P = [] := by rw [← ih hl, hzero, List.take_zero]
      simp [ha, hzero, hnil]

lemma getElem_iff {l : List α} (h : l.Pairwise fun x y => P y = true → P x = true) {i : ℕ}
    (hi : i < l.length) : P l[i] = true ↔ i < l.countP P := by
  induction l generalizing i with
  | nil => simp at hi
  | cons a l ih =>
    have hl := (List.pairwise_cons.mp h).2
    cases i with
    | zero =>
      cases ha : P a with
      | true => simp [ha]
      | false => simp [ha, countP_eq_zero_of_head h ha]
    | succ i =>
      have hi' : i < l.length := by simpa using hi
      rw [List.getElem_cons_succ, ih hl hi']
      cases ha : P a with
      | true => simp [ha]
      | false => simp [ha, countP_eq_zero_of_head h ha]

end Prefix

variable {α K : Type*} [LinearOrder K] (key : α → K)

/-- What a query may answer with: all rows, in an order that keeps to the key. -/
structure IsOrder (s : Finset α) (l : List α) : Prop where
  rows : (l : Multiset α) = s.val
  sorted : l.Pairwise fun a b => key a ≤ key b

def page {α : Type*} (offset limit : ℕ) (l : List α) : List α := (l.drop offset).take limit

/-- The first `n` pages one after the other, the `m`-th from the order its query chose. -/
def pages {α : Type*} (limit : ℕ) (order : ℕ → List α) (n : ℕ) : List α :=
  (List.range n).flatMap fun m => page (m * limit) limit (order m)

/-- No rows with equal keys stand on both sides of the position. -/
def Clean (s : Finset α) (b : ℕ) : Prop :=
  ∀ t, ¬ ((s.filter (key · < t)).card < b ∧ b < (s.filter (key · ≤ t)).card)

variable {key} {s : Finset α} {l m : List α}

/-! ### Orders of the same rows -/

namespace IsOrder

lemma length_eq (h : IsOrder key s l) : l.length = s.card := by
  rw [← Multiset.coe_card, h.rows]
  rfl

lemma perm (h : IsOrder key s l) (h' : IsOrder key s m) : l.Perm m :=
  Multiset.coe_eq_coe.mp (h.rows.trans h'.rows.symm)

lemma card_filter (h : IsOrder key s l) (P : α → Prop) [DecidablePred P] :
    (s.filter P).card = l.countP (fun a => decide (P a)) := by
  rw [Finset.card_def, Finset.filter_val, ← h.rows, Multiset.filter_coe, Multiset.coe_card,
    List.countP_eq_length_filter]

lemma prefix_lt (h : IsOrder key s l) (t : K) :
    l.Pairwise fun a b => decide (key b < t) = true → decide (key a < t) = true :=
  h.sorted.imp fun hab hb => decide_eq_true (hab.trans_lt (of_decide_eq_true hb))

lemma prefix_le (h : IsOrder key s l) (t : K) :
    l.Pairwise fun a b => decide (key b ≤ t) = true → decide (key a ≤ t) = true :=
  h.sorted.imp fun hab hb => decide_eq_true (hab.trans (of_decide_eq_true hb))

lemma getElem_lt_iff (h : IsOrder key s l) {i : ℕ} (hi : i < l.length) (t : K) :
    key l[i] < t ↔ i < (s.filter (key · < t)).card := by
  rw [h.card_filter, ← getElem_iff (h.prefix_lt t) hi, decide_eq_true_iff]

lemma getElem_le_iff (h : IsOrder key s l) {i : ℕ} (hi : i < l.length) (t : K) :
    key l[i] ≤ t ↔ i < (s.filter (key · ≤ t)).card := by
  rw [h.card_filter, ← getElem_iff (h.prefix_le t) hi, decide_eq_true_iff]

/-- The rows before a clean position are the same in all orders. -/
lemma take_perm (h : IsOrder key s l) (h' : IsOrder key s m) {b : ℕ} (hb : Clean key s b) :
    (l.take b).Perm (m.take b) := by
  rcases Nat.lt_or_ge b s.card with hlt | hge
  · -- the key at the position separates it from the rows before
    have hlen : b < l.length := by rw [h.length_eq]; exact hlt
    set t := key l[b] with ht
    have hle : (s.filter (key · < t)).card ≤ b := by
      by_contra hc
      push Not at hc
      exact lt_irrefl _ ((h.getElem_lt_iff hlen t).mpr hc)
    have hupto : b < (s.filter (key · ≤ t)).card := (h.getElem_le_iff hlen t).mp le_rfl
    have hcard : (s.filter (key · < t)).card = b := by
      by_contra hc
      exact hb t ⟨by omega, hupto⟩
    have hl : l.take b = l.filter fun a => decide (key a < t) := by
      rw [← take_countP (h.prefix_lt t), ← h.card_filter, hcard]
    have hm : m.take b = m.filter fun a => decide (key a < t) := by
      rw [← take_countP (h'.prefix_lt t), ← h'.card_filter, hcard]
    rw [hl, hm]
    exact (h.perm h').filter _
  · rw [List.take_of_length_le (by rw [h.length_eq]; exact hge),
      List.take_of_length_le (by rw [h'.length_eq]; exact hge)]
    exact h.perm h'

end IsOrder

lemma exists_isOrder (key : α → K) (s : Finset α) : ∃ l, IsOrder key s l := by
  refine ⟨HashChain.sortByKey key s.toList, ?_, HashChain.sortByKey_pairwise _⟩
  rw [Multiset.coe_eq_coe.mpr (HashChain.sortByKey_perm s.toList), Finset.coe_toList]

/-- Where the key tells the rows apart, every position is clean. -/
lemma clean_of_injOn (h : Set.InjOn key s) (b : ℕ) : Clean key s b := by
  classical
  rintro t ⟨hlo, hhi⟩
  have hsub : s.filter (key · < t) ⊆ s.filter (key · ≤ t) :=
    Finset.monotone_filter_right s fun a _ ha => le_of_lt ha
  have hone : (s.filter (key · ≤ t) \ s.filter (key · < t)).card ≤ 1 := by
    refine Finset.card_le_one.mpr fun x hx y hy => ?_
    simp only [Finset.mem_sdiff, Finset.mem_filter, not_and, not_lt] at hx hy
    have hxt : key x = t := le_antisymm hx.1.2 (hx.2 hx.1.1)
    have hyt : key y = t := le_antisymm hy.1.2 (hy.2 hy.1.1)
    exact h hx.1.1 hy.1.1 (hxt.trans hyt.symm)
  rw [Finset.card_sdiff_of_subset hsub] at hone
  omega

/-! ### Pages -/

lemma pages_succ (limit : ℕ) (order : ℕ → List α) (n : ℕ) :
    pages limit order (n + 1) = pages limit order n ++ page (n * limit) limit (order n) := by
  simp [pages, List.range_succ]

/-- Where every boundary is clean, the pages read so far are the rows before the boundary. -/
lemma pages_perm {limit : ℕ} {order : ℕ → List α} (horder : ∀ m, IsOrder key s (order m))
    (hclean : ∀ m, Clean key s (m * limit)) (n : ℕ) :
    (pages limit order n).Perm ((order 0).take (n * limit)) := by
  induction n with
  | zero => simp [pages]
  | succ n ih =>
    have hn : (pages limit order n).Perm ((order n).take (n * limit)) :=
      ih.trans ((horder 0).take_perm (horder n) (hclean n))
    have hsplit : (order n).take ((n + 1) * limit) =
        (order n).take (n * limit) ++ page (n * limit) limit (order n) := by
      rw [Nat.succ_mul, List.take_add, page]
    have hnext : (pages limit order n ++ page (n * limit) limit (order n)).Perm
        ((order n).take ((n + 1) * limit)) := by
      rw [hsplit]
      exact hn.append_right _
    rw [pages_succ]
    exact hnext.trans ((horder n).take_perm (horder 0) (hclean (n + 1)))

lemma mem_page {offset limit i : ℕ} {a : α} (hi : l[i]? = some a) (hlo : offset ≤ i)
    (hhi : i < offset + limit) : a ∈ page offset limit l := by
  refine List.mem_iff_getElem?.mpr ⟨i - offset, ?_⟩
  rw [page, List.getElem?_take_of_lt (by omega), List.getElem?_drop, ← hi]
  congr 1
  omega

/-- Two neighbours with equal keys may come the other way round. -/
lemma IsOrder.swap {pre post : List α} {a b : α} (h : IsOrder key s (pre ++ a :: b :: post))
    (hab : key a = key b) : IsOrder key s (pre ++ b :: a :: post) := by
  constructor
  · rw [← h.rows, Multiset.coe_eq_coe]
    exact (List.Perm.swap a b post).append_left pre
  · have hs := h.sorted
    simp only [List.pairwise_append, List.pairwise_cons, List.mem_cons, forall_eq_or_imp] at hs ⊢
    obtain ⟨hpre, ⟨⟨-, ha⟩, hb, hpost⟩, hcross⟩ := hs
    refine ⟨hpre, ⟨⟨hab.ge, hb⟩, ha, hpost⟩, fun x hx => ?_⟩
    obtain ⟨hxa, hxb, hxpost⟩ := hcross x hx
    exact ⟨hxb, hxa, hxpost⟩

/-- A row that stands on two pages is read twice. -/
lemma not_nodup_pages {limit n i j : ℕ} {order : ℕ → List α} {a : α} (hij : i < j) (hj : j < n)
    (hi : a ∈ page (i * limit) limit (order i)) (ha : a ∈ page (j * limit) limit (order j)) :
    ¬ (pages limit order n).Nodup := by
  intro h
  have hpair := (List.nodup_flatMap.mp h).2
  have hdisj := List.pairwise_iff_getElem.mp hpair i j (by simp; omega) (by simpa) hij
  simp only [List.getElem_range] at hdisj
  exact hdisj hi ha

/-- At an unclean boundary there are two orders whose pages repeat a row. -/
lemma exists_repeated {limit b : ℕ} (hlimit : 1 ≤ limit) (hb : ¬ Clean key s (b * limit)) :
    ∃ order : ℕ → List α, (∀ m, IsOrder key s (order m)) ∧
      ∀ n, s.card ≤ n * limit → ¬ (pages limit order n).Nodup := by
  rw [Clean] at hb
  push Not at hb
  obtain ⟨t, hlo, hhi⟩ := hb
  obtain ⟨l, hl⟩ := exists_isOrder key s
  have hcard : (s.filter (key · ≤ t)).card ≤ s.card := Finset.card_filter_le _ _
  obtain ⟨c, hc⟩ : ∃ c, b * limit = c + 1 := ⟨b * limit - 1, by omega⟩
  have hlen : c + 1 < l.length := by rw [hl.length_eq]; omega
  -- both neighbours of the boundary have the key `t`
  have hkey : ∀ i (hi : i < l.length), c ≤ i → i ≤ c + 1 → key l[i] = t := by
    intro i hi h1 h2
    apply le_antisymm
    · exact (hl.getElem_le_iff hi t).mpr (by omega)
    · rw [← not_lt, hl.getElem_lt_iff hi t]
      omega
  have hkeys : key l[c] = key l[c + 1] := by
    rw [hkey c (by omega) le_rfl (by omega), hkey (c + 1) hlen (by omega) le_rfl]
  have hsplit : l = l.take c ++ l[c] :: l[c + 1] :: l.drop (c + 2) := by simp
  set l' := l.take c ++ l[c + 1] :: l[c] :: l.drop (c + 2) with hl'
  have hswap : IsOrder key s l' := (hsplit ▸ hl).swap hkeys
  refine ⟨fun m => if m < b then l else l', fun m => ?_, fun n hn => ?_⟩
  · by_cases hm : m < b
    · simpa [hm] using hl
    · simpa [hm] using hswap
  · obtain ⟨d, rfl⟩ : ∃ d, b = d + 1 := ⟨b - 1, by
      rcases b with _ | b
      · omega
      · omega⟩
    have hbn : d + 1 < n := by
      by_contra hcon
      have := Nat.mul_le_mul_right limit (Nat.not_lt.mp hcon)
      omega
    have hd : (d + 1) * limit = d * limit + limit := Nat.succ_mul d limit
    refine not_nodup_pages (a := l[c]) (Nat.lt_add_one d) hbn ?_ ?_
    · rw [if_pos (Nat.lt_add_one d)]
      have hget : l[c]? = some l[c] := List.getElem?_eq_getElem (by omega)
      exact mem_page hget (by omega) (by omega)
    · rw [if_neg (lt_irrefl _)]
      have hmin : min c l.length = c := by omega
      have hget : l'[c + 1]? = some l[c] := by
        rw [hl', List.getElem?_append_right (by rw [List.length_take]; omega), List.length_take,
          hmin]
        simp
      exact mem_page hget (by omega) (by omega)

/-- **Paging partitions the rows exactly when no page ends between rows with equal keys.** -/
theorem pages_iff (key : α → K) (s : Finset α) (limit : ℕ) (hlimit : 1 ≤ limit) :
    (∀ order : ℕ → List α, (∀ m, IsOrder key s (order m)) →
      ∀ n, s.card ≤ n * limit → (pages limit order n : Multiset α) = s.val) ↔
    ∀ m, Clean key s (m * limit) := by
  constructor
  · intro h m
    by_contra hm
    obtain ⟨order, horder, hrepeat⟩ := exists_repeated hlimit hm
    have hn : s.card ≤ s.card * limit := Nat.le_mul_of_pos_right _ hlimit
    refine hrepeat s.card hn ?_
    rw [← Multiset.coe_nodup, h order horder s.card hn]
    exact s.nodup
  · intro hclean order horder n hn
    have hperm := pages_perm horder hclean n
    rw [List.take_of_length_le (by rw [(horder 0).length_eq]; exact hn)] at hperm
    rw [Multiset.coe_eq_coe.mpr hperm, (horder 0).rows]

end WhaleMas.OffsetPaging
