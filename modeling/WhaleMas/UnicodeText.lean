import Mathlib.Data.List.DropRight
import Mathlib.Data.List.Infix
import Mathlib.Data.List.Induction

/-!
Python's strings as lists of characters: white space, stripping, replacing runs and lower case.
The tables of the Unicode database are a parameter, with the laws the tables keep.
-/

namespace WhaleMas.UnicodeText

/-! ### White space and control characters -/

/-- `str.isspace` of one character. -/
def isSpace (c : Char) : Bool :=
  let n := c.toNat
  (0x09 ≤ n && n ≤ 0x0D) || (0x1C ≤ n && n ≤ 0x20) || n = 0x85 || n = 0xA0 || n = 0x1680 ||
    (0x2000 ≤ n && n ≤ 0x200A) || n = 0x2028 || n = 0x2029 || n = 0x202F || n = 0x205F ||
    n = 0x3000

/-- The category `Cc`. -/
def isControl (c : Char) : Bool := c.toNat < 0x20 || (0x7F ≤ c.toNat && c.toNat < 0xA0)

/-- The characters that mean something to a path or to a terminal. -/
def IsMark (c : Char) : Prop := isSpace c ∨ isControl c ∨ c = '/' ∨ c = '\\' ∨ c = '.'

instance : DecidablePred IsMark := fun c => by unfold IsMark; infer_instance

/-! ### The tables -/

/-- The tables of the Unicode database that the string methods read. -/
structure Unicode where
  /-- `unicodedata.normalize("NFKC", s)`. -/
  normalize : List Char → List Char
  /-- `str.isalnum` of one character. -/
  isAlnum : Char → Bool
  /-- The full lower-case mapping of one character, out of context. -/
  lowerChar : Char → List Char
  isCased : Char → Bool
  isCaseIgnorable : Char → Bool
  isAlnum_ascii : ∀ c, c.toNat < 128 → isAlnum c = c.isAlphanum
  isAlnum_blank : ∀ c, isSpace c ∨ isControl c → isAlnum c = false
  lowerChar_ascii : ∀ c, c.toNat < 128 → lowerChar c = [c.toLower]
  lowerChar_sigma : lowerChar 'σ' = ['σ'] ∧ lowerChar 'ς' = ['ς']
  lowerChar_ne_nil : ∀ c, lowerChar c ≠ []
  lowerChar_fixed : ∀ c, ∀ d ∈ lowerChar c, lowerChar d = [d] ∧ d ≠ 'Σ'
  lowerChar_mark : ∀ c, ∀ d ∈ lowerChar c, IsMark d → d = c

variable (u : Unicode)

/-- What `\w` matches. -/
def Unicode.isWord (c : Char) : Bool := u.isAlnum c || c = '_'

/-! ### Lower case -/

/-- Does a capital sigma between `before`, read backwards, and `rest` end a word? -/
def Unicode.isFinalSigma (before rest : List Char) : Bool :=
  match before.dropWhile u.isCaseIgnorable with
  | [] => false
  | c :: _ => u.isCased c &&
    match rest.dropWhile u.isCaseIgnorable with
    | [] => true
    | d :: _ => !u.isCased d

/-- The lower case of a text that follows `before`, read backwards. -/
def Unicode.lowerFrom : List Char → List Char → List Char
  | _, [] => []
  | before, c :: rest =>
    (if c = 'Σ' then [if u.isFinalSigma before rest then 'ς' else 'σ'] else u.lowerChar c) ++
      lowerFrom (c :: before) rest

/-- `str.lower`. -/
def Unicode.lower (s : List Char) : List Char := u.lowerFrom [] s

/-! ### Stripping and replacing -/

/-- `str.strip`, of the characters that `p` holds of. -/
def strip (p : Char → Bool) (s : List Char) : List Char := (s.dropWhile p).rdropWhile p

/-- `re.sub` of `r` for every run of characters that `p` holds of; in such a run the
replacement is already there. -/
def subRuns (p : Char → Bool) (r : Char) : Bool → List Char → List Char
  | _, [] => []
  | inRun, c :: s =>
    if p c then (if inRun then subRuns p r true s else r :: subRuns p r true s)
    else c :: subRuns p r false s

/-! ### Lemmas -/

variable {u}

lemma isWord_not_mark {c : Char} (h : u.isWord c) : ¬ IsMark c := by
  simp only [Unicode.isWord, Bool.or_eq_true, decide_eq_true_eq] at h
  rintro hm
  rcases h with h | rfl
  · rcases hm with hm | hm | rfl | rfl | rfl
    · simp [u.isAlnum_blank c (Or.inl hm)] at h
    · simp [u.isAlnum_blank c (Or.inr hm)] at h
    all_goals
      rw [u.isAlnum_ascii _ (by decide)] at h
      revert h
      decide
  · exact absurd hm (by decide)

@[simp] lemma lowerFrom_nil (before : List Char) : u.lowerFrom before [] = [] := rfl

lemma lowerFrom_cons (before : List Char) (c : Char) (rest : List Char) :
    u.lowerFrom before (c :: rest) =
      (if c = 'Σ' then [if u.isFinalSigma before rest then 'ς' else 'σ'] else u.lowerChar c) ++
        u.lowerFrom (c :: before) rest :=
  rfl

lemma lowerFrom_ne_nil {before s : List Char} (hs : s ≠ []) : u.lowerFrom before s ≠ [] := by
  cases s with
  | nil => exact absurd rfl hs
  | cons c s =>
    rw [lowerFrom_cons]
    refine List.append_ne_nil_of_left_ne_nil ?_ _
    split_ifs
    · exact List.cons_ne_nil _ _
    · exact List.cons_ne_nil _ _
    · exact u.lowerChar_ne_nil c

/-- A suffix of a text is lowered after what stands before it. -/
lemma lowerFrom_suffix (before s t : List Char) :
    ∃ x, u.lowerFrom before (s ++ t) = x ++ u.lowerFrom (s.reverse ++ before) t := by
  induction s generalizing before with
  | nil => exact ⟨[], rfl⟩
  | cons c s ih =>
    obtain ⟨x, hx⟩ := ih (c :: before)
    refine ⟨(if c = 'Σ' then [if u.isFinalSigma before (s ++ t) then 'ς' else 'σ']
      else u.lowerChar c) ++ x, ?_⟩
    rw [List.cons_append, lowerFrom_cons, hx, List.reverse_cons]
    simp only [List.append_assoc, List.cons_append, List.nil_append]

lemma mem_lowerFrom {before s : List Char} {d : Char} (h : d ∈ u.lowerFrom before s) :
    (∃ c ∈ s, c ≠ 'Σ' ∧ d ∈ u.lowerChar c) ∨ d = 'ς' ∨ d = 'σ' := by
  induction s generalizing before with
  | nil => simp at h
  | cons c s ih =>
    rw [lowerFrom_cons, List.mem_append] at h
    rcases h with h | h
    · split_ifs at h with hc
      · simp only [List.mem_singleton] at h
        exact Or.inr (Or.inl h)
      · simp only [List.mem_singleton] at h
        exact Or.inr (Or.inr h)
      · exact Or.inl ⟨c, List.mem_cons_self, hc, h⟩
    · rcases ih h with ⟨e, he, hd⟩ | hd
      · exact Or.inl ⟨e, List.mem_cons_of_mem c he, hd⟩
      · exact Or.inr hd

/-- A text in lower case has the lower case of each of its characters. -/
lemma mem_lowerFrom_of_mem {before s : List Char} {c d : Char} (hc : c ∈ s) (hne : c ≠ 'Σ')
    (hd : d ∈ u.lowerChar c) : d ∈ u.lowerFrom before s := by
  induction s generalizing before with
  | nil => cases hc
  | cons e s ih =>
    rw [lowerFrom_cons, List.mem_append]
    rcases List.mem_cons.mp hc with rfl | hc
    · left
      rwa [if_neg hne]
    · exact Or.inr (ih hc)

/-- Lower case brings in no mark. -/
lemma mark_of_mem_lowerFrom {before s : List Char} {d : Char} (h : d ∈ u.lowerFrom before s)
    (hm : IsMark d) : d ∈ s := by
  rcases mem_lowerFrom h with ⟨c, hc, -, hd⟩ | rfl | rfl
  · rw [u.lowerChar_mark c d hd hm]
    exact hc
  · exact absurd hm (by decide)
  · exact absurd hm (by decide)

/-- A character that lower case leaves alone. -/
def Unicode.IsLow (u : Unicode) (c : Char) : Prop := u.lowerChar c = [c] ∧ c ≠ 'Σ'

lemma isLow_of_mem_lowerFrom {before s : List Char} {d : Char} (h : d ∈ u.lowerFrom before s) :
    u.IsLow d := by
  rcases mem_lowerFrom h with ⟨c, -, -, hd⟩ | rfl | rfl
  · exact u.lowerChar_fixed c d hd
  · exact ⟨u.lowerChar_sigma.2, by decide⟩
  · exact ⟨u.lowerChar_sigma.1, by decide⟩

lemma lowerFrom_eq_self {before s : List Char} (h : ∀ c ∈ s, u.IsLow c) :
    u.lowerFrom before s = s := by
  induction s generalizing before with
  | nil => rfl
  | cons c s ih =>
    have hc := h c List.mem_cons_self
    rw [lowerFrom_cons, if_neg hc.2, hc.1, ih fun d hd => h d (List.mem_cons_of_mem c hd)]
    rfl

@[simp] lemma lower_lower (s : List Char) : u.lower (u.lower s) = u.lower s :=
  lowerFrom_eq_self fun _ => isLow_of_mem_lowerFrom

/-- A mark of ASCII is lowered to itself. -/
lemma lowerChar_of_mark {c : Char} (h : c = '.' ∨ c = '/') : u.lowerChar c = [c] ∧ c ≠ 'Σ' := by
  rcases h with rfl | rfl
  · exact ⟨u.lowerChar_ascii _ (by decide), by decide⟩
  · exact ⟨u.lowerChar_ascii _ (by decide), by decide⟩

lemma lowerFrom_cons_of_isLow {before s : List Char} {c : Char} (h : u.IsLow c) :
    u.lowerFrom before (c :: s) = c :: u.lowerFrom (c :: before) s := by
  rw [lowerFrom_cons, if_neg h.2, h.1]
  rfl

/-! ### The context of a capital sigma -/

lemma length_lowerFrom (b b' s : List Char) :
    (u.lowerFrom b s).length = (u.lowerFrom b' s).length := by
  induction s generalizing b b' with
  | nil => rfl
  | cons c s ih =>
    simp only [lowerFrom_cons, List.length_append, ih (c :: b) (c :: b')]
    split_ifs <;> simp

/-- After two texts, a third is lowered alike when its capital sigmas end a word alike. -/
lemma lowerFrom_eq_iff (b b' s : List Char) : u.lowerFrom b s = u.lowerFrom b' s ↔
    ∀ t r, s = t ++ 'Σ' :: r →
      u.isFinalSigma (t.reverse ++ b) r = u.isFinalSigma (t.reverse ++ b') r := by
  induction s generalizing b b' with
  | nil => simp
  | cons c s ih =>
    have hstep : u.lowerFrom b (c :: s) = u.lowerFrom b' (c :: s) ↔
        (c = 'Σ' → u.isFinalSigma b s = u.isFinalSigma b' s) ∧
          u.lowerFrom (c :: b) s = u.lowerFrom (c :: b') s := by
      simp only [lowerFrom_cons]
      by_cases hc : c = 'Σ'
      · simp only [hc, if_true, List.cons_append, List.nil_append, List.cons.injEq, forall_const]
        cases u.isFinalSigma b s <;> cases u.isFinalSigma b' s <;> simp
      · simp [hc]
    rw [hstep, ih]
    constructor
    · rintro ⟨hc, hs⟩ t r ht
      cases t with
      | nil =>
        obtain ⟨rfl, rfl⟩ := List.cons.inj ht
        exact hc rfl
      | cons d t =>
        obtain ⟨rfl, rfl⟩ := List.cons.inj ht
        simpa using hs t r rfl
    · intro h
      constructor
      · rintro rfl
        exact h [] s rfl
      · rintro t r rfl
        simpa using h (c :: t) r rfl

/-! ### Stripped and replaced texts -/

lemma mem_of_mem_strip {p : Char → Bool} {s : List Char} {c : Char} (h : c ∈ strip p s) :
    c ∈ s :=
  (List.dropWhile_sublist p).subset ((List.rdropWhile_prefix p _).subset h)

/-- What a strip leaves starts with a character it keeps. -/
lemma head_strip {p : Char → Bool} {s : List Char} {c : Char} {t : List Char}
    (h : strip p s = c :: t) : p c = false := by
  have hpre : c :: t <+: s.dropWhile p := h ▸ List.rdropWhile_prefix p _
  obtain ⟨w, hw⟩ := hpre
  have hd := List.head?_dropWhile_not p s
  rw [← hw] at hd
  simpa using hd

/-- A replaced text has its own characters that are not replaced, and the replacement. -/
lemma mem_subRuns {p : Char → Bool} {r : Char} {inRun : Bool} {s : List Char} {c : Char}
    (h : c ∈ subRuns p r inRun s) : c = r ∨ (c ∈ s ∧ p c = false) := by
  induction s generalizing inRun with
  | nil => simp [subRuns] at h
  | cons d s ih =>
    have htail : ∀ {b}, c ∈ subRuns p r b s → c = r ∨ (c ∈ d :: s ∧ p c = false) := by
      intro b hb
      exact (ih hb).imp_right fun hc => ⟨List.mem_cons_of_mem d hc.1, hc.2⟩
    unfold subRuns at h
    split_ifs at h with hd
    · exact htail h
    · rcases List.mem_cons.mp h with rfl | h
      · exact Or.inl rfl
      · exact htail h
    · rcases List.mem_cons.mp h with rfl | h
      · exact Or.inr ⟨List.mem_cons_self, by simpa using hd⟩
      · exact htail h

/-- A character that is kept parts the replaced text where it parts the text. -/
lemma subRuns_append {p : Char → Bool} {r c : Char} (hc : p c = false) (inRun : Bool)
    (x y : List Char) : subRuns p r inRun (x ++ c :: y) =
      subRuns p r inRun x ++ c :: subRuns p r false y := by
  induction x generalizing inRun with
  | nil => simp [subRuns, hc]
  | cons d x ih =>
    simp only [List.cons_append, subRuns, ih]
    split_ifs <;> rfl

/-- And a character of the replaced text that is not the replacement is one of the text. -/
lemma subRuns_split {p : Char → Bool} {r c : Char} (hc : c ≠ r) {inRun : Bool}
    {s v w : List Char} (h : subRuns p r inRun s = v ++ c :: w) :
    ∃ x y, s = x ++ c :: y ∧ subRuns p r inRun x = v ∧ subRuns p r false y = w := by
  induction s generalizing inRun v with
  | nil => simp [subRuns] at h
  | cons d s ih =>
    by_cases hd : p d
    · cases inRun with
      | true =>
        have hs : subRuns p r true s = v ++ c :: w := by simpa [subRuns, hd] using h
        obtain ⟨x, y, rfl, hx, hy⟩ := ih hs
        exact ⟨d :: x, y, rfl, by simpa [subRuns, hd] using hx, hy⟩
      | false =>
        cases v with
        | nil =>
          have hrc : r = c := by simpa [subRuns, hd] using (congrArg List.head? h)
          exact absurd hrc.symm hc
        | cons e v =>
          obtain ⟨rfl, hs⟩ : r = e ∧ subRuns p r true s = v ++ c :: w := by
            simpa [subRuns, hd] using h
          obtain ⟨x, y, rfl, hx, hy⟩ := ih hs
          exact ⟨d :: x, y, rfl, by simpa [subRuns, hd] using hx, hy⟩
    · cases v with
      | nil =>
        obtain ⟨rfl, hs⟩ : d = c ∧ subRuns p r false s = w := by simpa [subRuns, hd] using h
        exact ⟨[], s, rfl, rfl, hs⟩
      | cons e v =>
        obtain ⟨rfl, hs⟩ : d = e ∧ subRuns p r false s = v ++ c :: w := by
          simpa [subRuns, hd] using h
        obtain ⟨x, y, rfl, hx, hy⟩ := ih hs
        exact ⟨d :: x, y, rfl, by simpa [subRuns, hd] using hx, hy⟩

/-- Characters are kept by a replacement. -/
lemma mem_subRuns_of_mem {p : Char → Bool} {r c : Char} {inRun : Bool} {s : List Char}
    (h : c ∈ s) (hc : p c = false) : c ∈ subRuns p r inRun s := by
  obtain ⟨x, y, rfl⟩ := List.append_of_mem h
  rw [subRuns_append hc]
  simp

/-- Between characters that stay, a strip leaves everything. -/
lemma strip_append {p : Char → Bool} {c : Char} {x y : List Char} (hx : ∃ d ∈ x, p d = false)
    (hy : ∃ d ∈ y, p d = false) :
    strip p (x ++ c :: y) = x.dropWhile p ++ c :: y.rdropWhile p := by
  have hfirst : (x ++ c :: y).dropWhile p = x.dropWhile p ++ c :: y := by
    obtain ⟨d, hd, hpd⟩ := hx
    rw [List.dropWhile_append, if_neg]
    simp only [List.isEmpty_iff, List.dropWhile_eq_nil_iff]
    intro h
    rw [h d hd] at hpd
    cases hpd
  have hlast : ∀ z : List Char, (z ++ c :: y).rdropWhile p = z ++ c :: y.rdropWhile p := by
    intro z
    obtain ⟨d, hd, hpd⟩ := hy
    have hrev : (z ++ c :: y).reverse = y.reverse ++ (c :: z.reverse) := by simp
    rw [List.rdropWhile, hrev, List.dropWhile_append, if_neg]
    · simp [List.rdropWhile]
    · simp only [List.isEmpty_iff, List.dropWhile_eq_nil_iff]
      intro h
      rw [h d (List.mem_reverse.mpr hd)] at hpd
      cases hpd
  rw [strip, hfirst, hlast]

/-- And what a strip leaves of the characters it strips stands between ones that stay. -/
lemma strip_split {p : Char → Bool} {c : Char} {s v w : List Char} (hc : p c)
    (h : strip p s = v ++ c :: w) : ∃ x y, s = x ++ c :: y ∧ x.dropWhile p = v ∧
      (∃ d ∈ x, p d = false) ∧ ∃ d ∈ y, p d = false := by
  have hv : ∃ d v', v = d :: v' ∧ p d = false := by
    cases v with
    | nil => rw [head_strip h] at hc; cases hc
    | cons d v' => exact ⟨d, v', rfl, head_strip h⟩
  have hw : ∃ d w', w = w' ++ [d] ∧ p d = false := by
    have hne : strip p s ≠ [] := by simp [h]
    have hlast := List.rdropWhile_last_not p (s.dropWhile p) hne
    rcases List.eq_nil_or_concat w with rfl | ⟨w', d, rfl⟩
    · refine absurd hc ?_
      have hl : (strip p s).getLast hne = c := by simp [h]
      rwa [← hl]
    · refine ⟨d, w', by simp, ?_⟩
      have hl : (strip p s).getLast hne = d := by simp [h]
      rw [← hl]
      exact Bool.eq_false_iff.mpr hlast
  obtain ⟨d, v', rfl, hd⟩ := hv
  obtain ⟨e, w', rfl, he⟩ := hw
  refine ⟨s.takeWhile p ++ d :: v', (w' ++ [e]) ++ (s.dropWhile p).rtakeWhile p, ?_, ?_,
    ⟨d, by simp, hd⟩, ⟨e, by simp, he⟩⟩
  · have hback := List.rdropWhile_append_rtakeWhile (p := p) (l := s.dropWhile p)
    rw [show (s.dropWhile p).rdropWhile p = strip p s from rfl, h] at hback
    calc s = s.takeWhile p ++ s.dropWhile p := List.takeWhile_append_dropWhile.symm
      _ = s.takeWhile p ++ ((d :: v' ++ c :: (w' ++ [e])) ++
          (s.dropWhile p).rtakeWhile p) := by rw [hback]
      _ = _ := by simp
  · rw [List.dropWhile_append, if_pos]
    · simp [hd]
    · simp only [List.isEmpty_iff, List.dropWhile_eq_nil_iff]
      exact fun x hx => List.mem_takeWhile_imp hx

/-! ### The tables of ASCII -/

lemma ascii_forall {P : Char → Prop} (h : ∀ n < 128, P (Char.ofNat n)) (c : Char)
    (hc : c.toNat < 128) : P c := by
  have hp := h c.toNat hc
  rwa [Char.ofNat_toNat] at hp

lemma toLower_of_not_ascii {c : Char} (hc : ¬ c.toNat < 128) : c.toLower = c := by
  unfold Char.toLower
  have hv : c.toNat = c.val.toNat := rfl
  split_ifs with h
  · have hz := UInt32.le_iff_toNat_le.mp h.2
    rw [← hv] at hz
    exact absurd (Nat.lt_of_le_of_lt hz (by decide)) hc
  · rfl

lemma toLower_ascii : ∀ n < 128, (Char.ofNat n).toLower.toLower = (Char.ofNat n).toLower ∧
    (Char.ofNat n).toLower ≠ 'Σ' ∧
    (IsMark (Char.ofNat n).toLower → (Char.ofNat n).toLower = Char.ofNat n) := by
  decide

/-- The tables on the texts of ASCII, where they are exact. -/
def ascii : Unicode where
  normalize s := s
  isAlnum c := c.toNat < 128 && c.isAlphanum
  lowerChar c := if c = 'Σ' then ['σ'] else [c.toLower]
  isCased c := c.isAlpha
  isCaseIgnorable c := c ∈ ['\'', '.', ':', '^', '`']
  isAlnum_ascii c hc := by simp [hc]
  isAlnum_blank c hb := by
    by_cases hc : c.toNat < 128
    · have key := ascii_forall (P := fun c => isSpace c ∨ isControl c →
        (decide (c.toNat < 128) && c.isAlphanum) = false) (by decide) c hc
      exact key hb
    · simp [hc]
  lowerChar_ascii c hc := by
    have hne : c ≠ 'Σ' := by rintro rfl; revert hc; decide
    simp [hne]
  lowerChar_sigma := by decide
  lowerChar_ne_nil c := by split_ifs <;> simp
  lowerChar_fixed c d hd := by
    split_ifs at hd with h
    · obtain rfl := List.mem_singleton.mp hd
      decide
    · obtain rfl := List.mem_singleton.mp hd
      by_cases hc : c.toNat < 128
      · obtain ⟨hll, hne, -⟩ := ascii_forall (P := fun c => c.toLower.toLower = c.toLower ∧
          c.toLower ≠ 'Σ' ∧ (IsMark c.toLower → c.toLower = c)) toLower_ascii c hc
        exact ⟨by rw [if_neg hne, hll], hne⟩
      · rw [toLower_of_not_ascii hc]
        exact ⟨by rw [if_neg h, toLower_of_not_ascii hc], h⟩
  lowerChar_mark c d hd hm := by
    split_ifs at hd with h
    · obtain rfl := List.mem_singleton.mp hd
      exact absurd hm (by decide)
    · obtain rfl := List.mem_singleton.mp hd
      by_cases hc : c.toNat < 128
      · exact (ascii_forall (P := fun c => c.toLower.toLower = c.toLower ∧
          c.toLower ≠ 'Σ' ∧ (IsMark c.toLower → c.toLower = c)) toLower_ascii c hc).2.2 hm
      · exact toLower_of_not_ascii hc

end WhaleMas.UnicodeText
