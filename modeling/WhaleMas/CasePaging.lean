import WhaleMas.Models
import WhaleMas.OffsetPaging

/-!
Listing the cases page by page.

The query orders the cases by the time of their creation alone, the latest first, so cases
created at the same time may come in another order for the next page.
-/

namespace WhaleMas.CasePaging

open WhaleMas.Models WhaleMas.OffsetPaging

/-- `ORDER BY created_at DESC`. -/
def orderBy (case : Case) : Datetimeᵒᵈ := OrderDual.toDual case.createdAt

/-- `CaseRepository.list`, on the order its query has put the cases in. -/
def list (ordered : List Case) (offset limit : ℕ) : List Case := page offset limit ordered

/-- `CaseService.list_cases`. -/
def listCases (ordered : List Case) (offset limit : ℕ) : List Case := list ordered offset limit

/-- The answers to `n` requests for one page after the other. -/
def readThrough (limit : ℕ) (ordered : ℕ → List Case) (n : ℕ) : List Case :=
  (List.range n).flatMap fun m => listCases (ordered m) (m * limit) limit

/-- Every query answers with an order of its own that keeps to the time of creation. -/
def Answers (cases : Finset Case) (ordered : ℕ → List Case) : Prop :=
  ∀ m, IsOrder orderBy cases (ordered m)

/-- Every case is on exactly one of the pages. -/
def Partition (cases : Finset Case) (limit : ℕ) (ordered : ℕ → List Case) : Prop :=
  ∀ n, cases.card ≤ n * limit → (readThrough limit ordered n : Multiset Case) = cases.val

lemma filter_lt (cases : Finset Case) (t : Datetime) :
    cases.filter (orderBy · < OrderDual.toDual t) = cases.filter (t < ·.createdAt) :=
  Finset.filter_congr fun _ _ => OrderDual.toDual_lt_toDual

lemma filter_le (cases : Finset Case) (t : Datetime) :
    cases.filter (orderBy · ≤ OrderDual.toDual t) = cases.filter (t ≤ ·.createdAt) :=
  Finset.filter_congr fun _ _ => OrderDual.toDual_le_toDual

/-- A boundary is clean when it is outside every group of cases created at the same time. -/
lemma clean_iff (cases : Finset Case) (b : ℕ) : Clean orderBy cases b ↔
    ∀ t, ¬ ((cases.filter (t < ·.createdAt)).card < b ∧
      b < (cases.filter (t ≤ ·.createdAt)).card) := by
  constructor
  · intro h t
    rw [← filter_lt, ← filter_le]
    exact h (OrderDual.toDual t)
  · intro h t
    have := h (OrderDual.ofDual t)
    rwa [← filter_lt, ← filter_le] at this

/-- **Paging loses and repeats no case exactly when no page ends inside a group of cases
created at the same time.** -/
theorem paging_iff (cases : Finset Case) (limit : ℕ) (hlimit : 1 ≤ limit) :
    (∀ ordered, Answers cases ordered → Partition cases limit ordered) ↔
      ∀ m t, ¬ ((cases.filter (t < ·.createdAt)).card < m * limit ∧
        m * limit < (cases.filter (t ≤ ·.createdAt)).card) := by
  simp only [← clean_iff]
  exact pages_iff orderBy cases limit hlimit

section Example

def caseAt (id : Uuid) (createdAt : Datetime) : Case where
  id := id
  caseNo := "CASE-2026-000001"
  name := "case"
  description := none
  status := .created
  createdBy := none
  createdAt := createdAt
  updatedAt := createdAt

def later : Datetime := ⟨2026, 8, 18, 12, 0, 1, 0, by decide⟩

lemma caseAt_ne {s t : Datetime} : caseAt 1 s ≠ caseAt 2 t := by
  intro h
  have hid : (1 : Uuid) ≠ 2 := by decide
  exact hid (congrArg Case.id h)

def twoCases (s t : Datetime) : Finset Case :=
  Finset.cons (caseAt 1 s) {caseAt 2 t} (by simpa using caseAt_ne)

/-- Two cases created one second apart. -/
theorem paging_iff_oneSecondApart :
    (∀ m t, ¬ (((twoCases noon later).filter (t < ·.createdAt)).card < m * 1 ∧
      m * 1 < ((twoCases noon later).filter (t ≤ ·.createdAt)).card)) ∧
    ∀ ordered, Answers (twoCases noon later) ordered →
      Partition (twoCases noon later) 1 ordered := by
  have hinj : Set.InjOn orderBy (twoCases noon later) := by
    have hne : orderBy (caseAt 1 noon) ≠ orderBy (caseAt 2 later) := by
      intro h
      have hsecond : noon.second ≠ later.second := by decide
      exact hsecond (congrArg Datetime.second (OrderDual.toDual_inj.mp h))
    intro x hx y hy hxy
    simp only [twoCases, Finset.coe_cons, Finset.coe_singleton, Set.mem_insert_iff,
      Set.mem_singleton_iff] at hx hy
    rcases hx with rfl | rfl
    · rcases hy with rfl | rfl
      · rfl
      · exact absurd hxy hne
    · rcases hy with rfl | rfl
      · exact absurd hxy.symm hne
      · rfl
  have hclean := fun m => (clean_iff _ _).mp (clean_of_injOn hinj (m * 1))
  exact ⟨hclean, (paging_iff (twoCases noon later) 1 le_rfl).mpr hclean⟩

/-- The second query puts the cases the other way round. -/
def turned (s : Datetime) (m : ℕ) : List Case :=
  if m = 0 then [caseAt 1 s, caseAt 2 s] else [caseAt 2 s, caseAt 1 s]

lemma answers_turned (s : Datetime) : Answers (twoCases s s) (turned s) := by
  intro m
  by_cases hm : m = 0
  · simp only [turned, hm, if_true]
    exact ⟨rfl, by simp [orderBy, caseAt]⟩
  · simp only [turned, hm, if_false]
    exact ⟨Multiset.coe_eq_coe.mpr (List.Perm.swap _ _ _), by simp [orderBy, caseAt]⟩

lemma readThrough_turned (s : Datetime) :
    readThrough 1 (turned s) 2 = [caseAt 1 s, caseAt 1 s] := rfl

/-- Two cases created at the same time, read one by one: the first is read twice and the
other never. -/
theorem sameTime_not_partition : Answers (twoCases noon noon) (turned noon) ∧
    readThrough 1 (turned noon) 2 = [caseAt 1 noon, caseAt 1 noon] ∧
    ¬ Partition (twoCases noon noon) 1 (turned noon) := by
  refine ⟨answers_turned noon, readThrough_turned noon, fun h => ?_⟩
  have hcard : (twoCases noon noon).card ≤ 2 * 1 := by simp [twoCases]
  have hnodup : (readThrough 1 (turned noon) 2).Nodup := by
    rw [← Multiset.coe_nodup, h 2 hcard]
    exact (twoCases noon noon).nodup
  rw [readThrough_turned] at hnodup
  simp at hnodup

end Example

end WhaleMas.CasePaging
