import WhaleMas.Intake

/-!
The numbers of cases. A number is read back from its text: the year stands before a dash, and
leading zeros do not change a value, however many digits it has. So cases created from
different sequence values get different numbers, whatever the clock says.
-/

namespace WhaleMas.CaseNumbers

open WhaleMas.JsonText WhaleMas.Models WhaleMas.Program WhaleMas.RelyGuarantee WhaleMas.Plays
open WhaleMas.Database WhaleMas.Services WhaleMas.SessionFrame WhaleMas.Intake

/-! ### Padded numbers -/

lemma ofDigitChars_zpad (w n : ℕ) : Nat.ofDigitChars 10 (zpad w n) 0 = n := by
  unfold zpad
  dsimp only
  rw [Nat.ofDigitChars_append, Nat.ofDigitChars_replicate_zero, Nat.mul_zero,
    Nat.ofDigitChars_ten_toDigits]

/-- A padded number tells the number, also when it is longer than its padding. -/
lemma zpad_injective (w : ℕ) : Function.Injective (zpad w) := by
  intro m n h
  calc
    m = Nat.ofDigitChars 10 (zpad w m) 0 := (ofDigitChars_zpad w m).symm
    _ = Nat.ofDigitChars 10 (zpad w n) 0 := by rw [h]
    _ = n := ofDigitChars_zpad w n

lemma length_zpad_le {w n k : ℕ} (hw : w ≤ k) (hk : 0 < k) (hn : n < 10 ^ k) :
    (zpad w n).length ≤ k := by
  have hdigits := (Nat.length_toDigits_le_iff (by omega) hk).mpr hn
  unfold zpad
  simp only [List.length_append, List.length_replicate]
  omega

/-! ### Numbers of cases -/

lemma dash_not_mem_toDigits (n : ℕ) : '-' ∉ Nat.toDigits 10 n := by
  intro h
  have hdigit := Nat.isDigit_of_mem_toDigits (by omega) (by omega) h
  exact absurd hdigit (by decide)

lemma dash_not_mem_zpad (w n : ℕ) : '-' ∉ zpad w n := by
  intro h
  rcases List.mem_append.mp h with h | h
  · exact absurd (List.eq_of_mem_replicate h) (by decide)
  · exact dash_not_mem_toDigits n h

lemma toList_formatCaseNo (s : ℕ) (now : Datetime) : (formatCaseNo s now).toList =
    ['C', 'A', 'S', 'E', '-'] ++ (Nat.toDigits 10 now.year ++ '-' :: zpad 6 s) := by
  have hcase : "CASE-".toList = ['C', 'A', 'S', 'E', '-'] := by decide
  have hdash : "-".toList = ['-'] := by decide
  simp only [formatCaseNo, String.toList_append, hcase, hdash, Nat.toString_eq_ofList_toDigits,
    String.toList_ofList, List.append_assoc, List.singleton_append]

/-- The year ends at the only dash after the first. -/
lemma formatCaseNo_inj {s s' : ℕ} {now now' : Datetime}
    (h : formatCaseNo s now = formatCaseNo s' now') : now.year = now'.year ∧ s = s' := by
  have hlist := congrArg String.toList h
  rw [toList_formatCaseNo, toList_formatCaseNo] at hlist
  have htail := List.append_cancel_left hlist
  obtain ⟨hyear, -, hs⟩ := (List.append_cons_inj_of_notMem (dash_not_mem_toDigits _)
    (dash_not_mem_zpad 6 s)).mp htail
  exact ⟨toDigits_inj hyear, zpad_injective 6 hs⟩

/-- Four digits of a year, and nineteen of a 64-bit sequence. -/
lemma length_formatCaseNo {s : ℕ} (hs : s < 2 ^ 63) (now : Datetime) :
    (formatCaseNo s now).length ≤ 32 := by
  have hyear : (Nat.toDigits 10 now.year).length ≤ 4 :=
    (Nat.length_toDigits_le_iff (by omega) (by omega)).mpr (by have := now.valid; omega)
  have hnumber : (zpad 6 s).length ≤ 19 := length_zpad_le (by omega) (by omega) (by omega)
  rw [← String.length_toList, toList_formatCaseNo]
  simp only [List.length_append, List.length_cons, List.length_nil]
  omega

/-! ### Created cases -/

/-- The play has drawn a sequence value. -/
def Drew (t : Exchange Op Answer) (s : ℕ) : Prop := ⟨.nextSequenceValue, .ok s⟩ ∈ t

/-- The play has asked to insert a case. -/
def Inserts (t : Exchange Op Answer) (row : Datetime → Case) : Prop := ∃ r, ⟨.createCase row, r⟩ ∈ t

/-- The row has the number of a sequence value, at some time of the clock. -/
def NumberedFrom (s : ℕ) (row : Datetime → Case) : Prop :=
  ∃ now, ∀ stamp, (row stamp).caseNo = formatCaseNo s now

/-- The rows inserted have the number of the sequence value drawn. -/
def Numbered (t : Exchange Op Answer) : Prop :=
  ∀ s row, Drew t s → Inserts t row → NumberedFrom s row

/-- No other sequence value is drawn, and all rows are numbered from it. -/
def From (s : ℕ) (t : Exchange Op Answer) : Prop :=
  (∀ s', Drew t s' → s' = s) ∧ ∀ row, Inserts t row → NumberedFrom s row

variable {s : ℕ} {t : Exchange Op Answer}

lemma From.numbered (h : From s t) : Numbered t := by
  intro s' row hs hrow
  rw [h.1 s' hs]
  exact h.2 row hrow

lemma From.snoc {e : Σ o : Op, Answer o} (h : From s t)
    (hdraw : ∀ s', e = ⟨.nextSequenceValue, .ok s'⟩ → s' = s)
    (hrow : ∀ row r, e = ⟨.createCase row, r⟩ → NumberedFrom s row) : From s (t ++ [e]) := by
  constructor
  · intro s' hs
    rcases List.mem_append.mp hs with hs | hs
    · exact h.1 s' hs
    · exact hdraw s' (List.mem_singleton.mp hs).symm
  · rintro row ⟨r, hr⟩
    rcases List.mem_append.mp hr with hr | hr
    · exact h.2 row ⟨r, hr⟩
    · exact hrow row r (List.mem_singleton.mp hr).symm

lemma from_nil : From s [] :=
  ⟨fun _ h => absurd h List.not_mem_nil, fun _ ⟨_, h⟩ => absurd h List.not_mem_nil⟩

/-- The first call draws the sequence value. -/
lemma triple_draw : ETriple anything (keeping Numbered) () (fun t => t = [])
    (call .nextSequenceValue) From (fun _ _ => True) := by
  refine triple_play fun t r _ h => ?_
  subst h
  cases r with
  | ok s =>
    have hfrom : From s [⟨.nextSequenceValue, .ok s⟩] := by
      refine from_nil.snoc ?_ ?_
      · intro s' he
        cases he
        rfl
      · intro row r he
        cases he
    exact ⟨hfrom.numbered, hfrom⟩
  | error x =>
    have hfrom : From 0 [⟨.nextSequenceValue, .error x⟩] := by
      refine from_nil.snoc ?_ ?_
      · intro s' he
        cases he
      · intro row r he
        cases he
    exact ⟨hfrom.numbered, trivial⟩

/-- A later call draws none, and inserts a row that is numbered from the value drawn. -/
lemma triple_from {o : Op} (hdraw : o ≠ .nextSequenceValue)
    (hrow : ∀ row, o = .createCase row → NumberedFrom s row) :
    ETriple anything (keeping Numbered) () (From s) (call o) (fun _ => From s)
      (fun _ _ => True) := by
  refine triple_play fun t r _ h => ?_
  have hfrom : From s (t ++ [⟨o, r⟩]) := by
    refine h.snoc ?_ ?_
    · intro s' he
      exact absurd (congrArg Sigma.fst he) hdraw
    · intro row r' he
      exact hrow row (congrArg Sigma.fst he)
  refine ⟨hfrom.numbered, ?_⟩
  cases r with
  | ok a => exact hfrom
  | error x => trivial

/-- A call that neither draws nor inserts a case. -/
lemma triple_plain {o : Op} (hdraw : o ≠ .nextSequenceValue) (hrow : ∀ row, o ≠ .createCase row) :
    ETriple anything (keeping Numbered) () (From s) (call o) (fun _ => From s)
      (fun _ _ => True) :=
  triple_from hdraw fun row h => absurd h (hrow row)

lemma triple_createCase (self : CaseService) (data : CaseCreate) :
    ETriple anything (keeping Numbered) () (fun t => t = []) (self.createCase data)
      (fun _ _ => True) (fun _ _ => True) := by
  refine etriple_bind triple_draw fun s => ?_
  refine etriple_bind (triple_plain (by simp) (by simp)) fun now => ?_
  split_ifs
  · exact etriple_bind (Q := fun _ _ => False) (etriple_throw fun _ _ _ => trivial)
      fun _ _ _ h => h.elim
  refine etriple_bind (triple_plain (by simp) (by simp)) fun id => ?_
  refine etriple_bind (triple_from (by simp) ?_) fun case => ?_
  · intro row h
    cases h
    exact ⟨now, fun _ => rfl⟩
  have happend : ∀ a, ETriple anything (keeping Numbered) () (From s) (self.auditService.append a)
      (fun _ => From s) (fun _ _ => True) := by
    intro a
    exact triple_append_of (D := fun _ => From s) (triple_plain (by simp) (by simp))
      (triple_plain (by simp) (by simp)) (triple_plain (by simp) (by simp))
      (fun _ => triple_plain (by simp) (by simp))
      fun _ _ _ => triple_plain (by simp) (by simp)
  refine etriple_bind (happend _) fun _ => ?_
  refine etriple_bind (triple_plain (by simp) (by simp)) fun _ => ?_
  exact etriple_pure fun _ _ _ => trivial

/-- Whatever the answers are, a created case has the number of the sequence value drawn. -/
lemma createCase_numbered {self : CaseService} {data : CaseCreate}
    {q : Prog Op Answer (Except Exn Case)} (h : Play (self.createCase data).run t q) :
    Numbered t :=
  (plays_post (triple_createCase self data) h (from_nil (s := 0)).numbered rfl).1

/-- **Case numbers are unique and fit**: a number tells its year and its sequence value, it has
32 characters at most, and cases created from different sequence values have different ones,
whatever the clock and the database answer. -/
theorem caseNo_unique :
    (∀ (s s' : ℕ) (now now' : Datetime), formatCaseNo s now = formatCaseNo s' now' →
      now.year = now'.year ∧ s = s') ∧
    (∀ (s : ℕ) (now : Datetime), s < 2 ^ 63 → (formatCaseNo s now).length ≤ 32) ∧
    ∀ (self self' : CaseService) (data data' : CaseCreate) (t t' : Exchange Op Answer)
      (q q' : Prog Op Answer (Except Exn Case)) (s s' : ℕ) (row row' : Datetime → Case),
      Play (self.createCase data).run t q → Play (self'.createCase data').run t' q' →
      Drew t s → Drew t' s' → s ≠ s' → Inserts t row → Inserts t' row' →
      ∀ stamp stamp', (row stamp).caseNo ≠ (row' stamp').caseNo := by
  refine ⟨fun _ _ _ _ h => formatCaseNo_inj h, fun _ now hs => length_formatCaseNo hs now, ?_⟩
  intro self self' data data' t t' q q' s s' row row' ht ht' hs hs' hne hrow hrow' stamp stamp' he
  obtain ⟨now, hno⟩ := createCase_numbered ht s row hs hrow
  obtain ⟨now', hno'⟩ := createCase_numbered ht' s' row' hs' hrow'
  rw [hno, hno'] at he
  exact hne (formatCaseNo_inj he).2

section Example

def whale : CaseCreate := ⟨"whale", none, none, by decide, none_short⟩

/-- A database whose sequence has come to `n`. -/
def sequenceAt (n : ℕ) : (o : Op) → Answer o
  | .nextSequenceValue => .ok n
  | o => obliging o

def created (n : ℕ) : Exchange Op Answer × Except Exn Case :=
  against (sequenceAt n) ((⟨⟨true⟩⟩ : CaseService).createCase whale).run

def whaleCase (n : ℕ) (stamp : Datetime) : Case :=
  ⟨2, formatCaseNo n noon, "whale", none, .created, none, stamp, stamp⟩

/-- The first case whose number has seven digits, and the longest number. -/
theorem caseNo_unique_million :
    formatCaseNo 1000000 noon ≠ formatCaseNo 100000 noon ∧
    (formatCaseNo (2 ^ 63 - 1) noon).length ≤ 32 ∧
    (whaleCase 1000000 noon).caseNo ≠ (whaleCase 999999 noon).caseNo := by
  obtain ⟨hinj, hlength, hcreated⟩ := caseNo_unique
  refine ⟨fun h => absurd (hinj _ _ _ _ h).2 (by decide), hlength _ noon (by decide), ?_⟩
  exact hcreated ⟨⟨true⟩⟩ ⟨⟨true⟩⟩ whale whale (created 1000000).1 (created 999999).1 _ _
    1000000 999999 (whaleCase 1000000) (whaleCase 999999)
    (play_against (sequenceAt 1000000) _) (play_against (sequenceAt 999999) _)
    (List.mem_of_getElem? (i := 0) rfl) (List.mem_of_getElem? (i := 0) rfl) (by decide)
    ⟨_, List.mem_of_getElem? (i := 3) rfl⟩ ⟨_, List.mem_of_getElem? (i := 3) rfl⟩ noon noon

end Example

end WhaleMas.CaseNumbers
