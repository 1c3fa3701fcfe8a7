import Mathlib

/-!
Compact JSON text and its canonical form.

A value is printed without white space, the members of every object in the order of their
keys. Two values have the same canonical text exactly when they are equal as JSON values,
that is, up to the order of the keys at every level.

The number tokens are the only ones that do not say where they end; everything that can
follow a value does not continue a number, which is what `Stop` records.
-/

namespace WhaleMas.JsonText

/-- The characters a number is written with. -/
def numChar (c : Char) : Bool := c.isDigit || c == '-' || c == '+' || c == '.' || c == 'e'

/-- A number starts with a digit or with the minus sign. -/
def numStart (c : Char) : Bool := c.isDigit || c == '-'

/-- A finite floating-point number, known by the text it is written as. The text has a
point or an exponent, so it is not the text of an integer. -/
structure FloatText where
  text : List Char
  start : text.head?.any numStart = true
  chars : text.all numChar = true
  mark : text.any (fun c => c == '.' || c == 'e') = true
  deriving DecidableEq

/-- A JSON value. The members of an object are in the order they were inserted. -/
inductive Json
  | null
  | bool (b : Bool)
  | int (n : ℤ)
  | float (x : FloatText)
  | str (s : String)
  | arr (l : List Json)
  | obj (l : List (String × Json))

/-! ### Printing -/

def hexDigit (n : ℕ) : Char := Char.ofNat (if n < 10 then 48 + n else 87 + n)

/-- One character of a string literal. Only quotes, backslashes and the control characters
below the space are escaped. -/
def escapeChar (c : Char) : List Char :=
  if c = '"' then ['\\', '"']
  else if c = '\\' then ['\\', '\\']
  else if c = '\n' then ['\\', 'n']
  else if c = '\r' then ['\\', 'r']
  else if c = '\t' then ['\\', 't']
  else if c = '\x08' then ['\\', 'b']
  else if c = '\x0c' then ['\\', 'f']
  else if c.toNat < 32 then
    ['\\', 'u', '0', '0', hexDigit (c.toNat / 16), hexDigit (c.toNat % 16)]
  else [c]

def quote (s : String) : List Char := '"' :: (s.toList.flatMap escapeChar ++ ['"'])

def intText (n : ℤ) : List Char :=
  if n < 0 then '-' :: Nat.toDigits 10 n.natAbs else Nat.toDigits 10 n.natAbs

mutual

/-- The text of a value, the members of an object in the order they are listed. -/
def render : Json → List Char
  | .null => ['n', 'u', 'l', 'l']
  | .bool true => ['t', 'r', 'u', 'e']
  | .bool false => ['f', 'a', 'l', 's', 'e']
  | .int n => intText n
  | .float x => x.text
  | .str s => quote s
  | .arr l => '[' :: renderItems l
  | .obj l => '{' :: renderMembers l

def renderItems : List Json → List Char
  | [] => [']']
  | x :: l => render x ++ renderMoreItems l

def renderMoreItems : List Json → List Char
  | [] => [']']
  | x :: l => ',' :: (render x ++ renderMoreItems l)

def renderMembers : List (String × Json) → List Char
  | [] => ['}']
  | (k, x) :: l => quote k ++ ':' :: (render x ++ renderMoreMembers l)

def renderMoreMembers : List (String × Json) → List Char
  | [] => ['}']
  | (k, x) :: l => ',' :: (quote k ++ ':' :: (render x ++ renderMoreMembers l))

end

/-- Members in the order of their keys. -/
def sortMembers (l : List (String × Json)) : List (String × Json) :=
  l.mergeSort fun p q => decide (p.1 ≤ q.1)

mutual

/-- The value with the members of every object sorted by key. -/
def sortKeys : Json → Json
  | .arr l => .arr (sortItems l)
  | .obj l => .obj (sortMembers (sortValues l))
  | x => x

def sortItems : List Json → List Json
  | [] => []
  | x :: l => sortKeys x :: sortItems l

def sortValues : List (String × Json) → List (String × Json)
  | [] => []
  | (k, x) :: l => (k, sortKeys x) :: sortValues l

end

/-- The canonical text of a value. -/
def canonical (x : Json) : List Char := render (sortKeys x)

/-! ### Equality of values -/

mutual

/-- No object has a key twice. -/
def WF : Json → Prop
  | .arr l => WFItems l
  | .obj l => (l.map Prod.fst).Nodup ∧ WFMembers l
  | _ => True

def WFItems : List Json → Prop
  | [] => True
  | x :: l => WF x ∧ WFItems l

def WFMembers : List (String × Json) → Prop
  | [] => True
  | (_, x) :: l => WF x ∧ WFMembers l

end

mutual

/-- Equality of JSON values: two objects are equal when they have equally many members and
every key of the first has an equal value in the second. -/
def Same : Json → Json → Prop
  | .null, .null => True
  | .bool a, .bool b => a = b
  | .int a, .int b => a = b
  | .float a, .float b => a = b
  | .str a, .str b => a = b
  | .arr l, .arr m => SameItems l m
  | .obj l, .obj m => l.length = m.length ∧ SameMembers l m
  | _, _ => False

def SameItems : List Json → List Json → Prop
  | [], [] => True
  | x :: l, y :: m => Same x y ∧ SameItems l m
  | _, _ => False

def SameMembers : List (String × Json) → List (String × Json) → Prop
  | [], _ => True
  | (k, x) :: l, m => (∃ y, m.lookup k = some y ∧ Same x y) ∧ SameMembers l m

end

/-- A dictionary: the members of an object without repeated keys. -/
structure Dict where
  members : List (String × Json)
  wf : WF (.obj members)

def Dict.toJson (d : Dict) : Json := .obj d.members

lemma Dict.wf_toJson (d : Dict) : WF d.toJson := d.wf

def Dict.empty : Dict := ⟨[], by simp [WF, WFMembers]⟩

/-! ### Reading a text back -/

/-- The text does not go on with a number. -/
def Stop (r : List Char) : Prop := r.head?.all (fun c => !numChar c) = true

@[simp] lemma stop_nil : Stop [] := rfl

lemma stop_cons {c : Char} {r : List Char} (h : numChar c = false) : Stop (c :: r) := by
  simp [Stop, h]

/-- Two runs of number characters that are followed by something else are equal as soon as
the texts are. -/
lemma token_inj {s t r r' : List Char} (hs : s.all numChar = true) (ht : t.all numChar = true)
    (hr : Stop r) (hr' : Stop r') (h : s ++ r = t ++ r') : s = t ∧ r = r' := by
  have key : ∀ {u w : List Char}, u.all numChar = true → Stop w →
      (u ++ w).takeWhile numChar = u := by
    intro u w hu hw
    rw [List.takeWhile_append_of_pos (by simpa using hu)]
    cases w with
    | nil => simp
    | cons c w =>
      have hc : numChar c = false := by simpa [Stop] using hw
      simp [hc]
  have hst : s = t := by rw [← key hs hr, ← key ht hr', h]
  subst hst
  exact ⟨rfl, List.append_cancel_left h⟩

def hexVal (c : Char) : ℕ := if c.toNat < 58 then c.toNat - 48 else c.toNat - 87

lemma hexVal_hexDigit : ∀ n < 16, hexVal (hexDigit n) = n := by decide

/-- Undoes one escaped character. -/
def unescape : List Char → Option (Char × List Char)
  | '\\' :: 'n' :: r => some ('\n', r)
  | '\\' :: 'r' :: r => some ('\r', r)
  | '\\' :: 't' :: r => some ('\t', r)
  | '\\' :: 'b' :: r => some ('\x08', r)
  | '\\' :: 'f' :: r => some ('\x0c', r)
  | '\\' :: 'u' :: _ :: _ :: a :: b :: r => some (Char.ofNat (16 * hexVal a + hexVal b), r)
  | '\\' :: c :: r => some (c, r)
  | c :: r => some (c, r)
  | [] => none

lemma unescape_escapeChar (c : Char) (r : List Char) :
    unescape (escapeChar c ++ r) = some (c, r) := by
  unfold escapeChar
  split_ifs with h1 h2 h3 h4 h5 h6 h7 h8
  · subst h1; rfl
  · subst h2; rfl
  · subst h3; rfl
  · subst h4; rfl
  · subst h5; rfl
  · subst h6; rfl
  · subst h7; rfl
  · have ha := hexVal_hexDigit (c.toNat / 16) (by omega)
    have hb := hexVal_hexDigit (c.toNat % 16) (by omega)
    have hc : 16 * (c.toNat / 16) + c.toNat % 16 = c.toNat := by omega
    simp [unescape, ha, hb, hc]
  · simp [unescape, h2]

lemma escapeChar_head (c : Char) : ∃ d t, escapeChar c = d :: t ∧ d ≠ '"' := by
  unfold escapeChar
  split_ifs with h1 h2 h3 h4 h5 h6 h7 h8
  all_goals first
    | exact ⟨_, _, rfl, by decide⟩
    | exact ⟨_, _, rfl, h1⟩

lemma escaped_inj (s t : List Char) {r r' : List Char}
    (h : s.flatMap escapeChar ++ '"' :: r = t.flatMap escapeChar ++ '"' :: r') :
    s = t ∧ r = r' := by
  induction s generalizing t with
  | nil =>
    cases t with
    | nil => simpa using h
    | cons d t =>
      obtain ⟨e, u, he, hne⟩ := escapeChar_head d
      simp only [List.flatMap_cons, he, List.flatMap_nil, List.nil_append, List.cons_append,
        List.cons.injEq] at h
      exact absurd h.1.symm hne
  | cons c s ih =>
    cases t with
    | nil =>
      obtain ⟨e, u, he, hne⟩ := escapeChar_head c
      simp only [List.flatMap_cons, he, List.flatMap_nil, List.nil_append, List.cons_append,
        List.cons.injEq] at h
      exact absurd h.1 hne
    | cons d t =>
      have h' := congrArg unescape h
      simp only [List.flatMap_cons, List.append_assoc, unescape_escapeChar, Option.some.injEq,
        Prod.mk.injEq] at h'
      obtain ⟨rfl, htail⟩ := h'
      obtain ⟨rfl, hr⟩ := ih t htail
      exact ⟨rfl, hr⟩

lemma quote_inj {s t : String} {r r' : List Char} (h : quote s ++ r = quote t ++ r') :
    s = t ∧ r = r' := by
  have h' : s.toList.flatMap escapeChar ++ '"' :: r = t.toList.flatMap escapeChar ++ '"' :: r' := by
    simpa [quote] using h
  obtain ⟨hst, hr⟩ := escaped_inj _ _ h'
  exact ⟨String.toList_inj.mp hst, hr⟩

lemma isDigit_numChar {c : Char} (h : c.isDigit = true) : numChar c = true := by
  simp [numChar, h]

lemma toDigits_all (n : ℕ) : (Nat.toDigits 10 n).all Char.isDigit = true := by
  rw [List.all_eq_true]
  exact fun c hc => Nat.isDigit_of_mem_toDigits (by omega) (by omega) hc

lemma toDigits_inj {m n : ℕ} (h : Nat.toDigits 10 m = Nat.toDigits 10 n) : m = n := by
  rw [← Nat.ofDigitChars_ten_toDigits (n := m), h, Nat.ofDigitChars_ten_toDigits]

lemma intText_chars (n : ℤ) : (intText n).all numChar = true := by
  have h : (Nat.toDigits 10 n.natAbs).all numChar = true := by
    have := toDigits_all n.natAbs
    rw [List.all_eq_true] at this ⊢
    exact fun c hc => isDigit_numChar (this c hc)
  unfold intText
  split
  · simp only [List.all_cons, h, Bool.and_true]; rfl
  · exact h

/-- An integer is written with digits after an optional sign. -/
lemma intText_eq (n : ℤ) : ∃ sgn ds, intText n = sgn ++ ds ∧ (sgn = [] ∨ sgn = ['-']) ∧
    ds ≠ [] ∧ ds.all Char.isDigit = true := by
  unfold intText
  split_ifs with h
  · exact ⟨['-'], _, rfl, Or.inr rfl, Nat.toDigits_ne_nil, toDigits_all _⟩
  · exact ⟨[], _, rfl, Or.inl rfl, Nat.toDigits_ne_nil, toDigits_all _⟩

lemma intText_head (n : ℤ) : (intText n).head?.any numStart = true := by
  obtain ⟨sgn, ds, he, hs, hne, hd⟩ := intText_eq n
  rw [he]
  rcases hs with rfl | rfl
  · cases ds with
    | nil => exact absurd rfl hne
    | cons c t =>
      simp only [List.all_cons, Bool.and_eq_true] at hd
      simp [numStart, hd.1]
  · simp [numStart]

lemma intText_no_mark (n : ℤ) : (intText n).any (fun c => c == '.' || c == 'e') = false := by
  obtain ⟨sgn, ds, he, hs, -, hd⟩ := intText_eq n
  have hds : ds.any (fun c => c == '.' || c == 'e') = false := by
    rw [List.any_eq_false]
    intro c hc hcm
    have hdig := List.all_eq_true.mp hd c hc
    rcases Bool.or_eq_true_iff.mp hcm with h | h
    · rw [beq_iff_eq] at h; subst h; simp at hdig
    · rw [beq_iff_eq] at h; subst h; simp at hdig
  rw [he]
  rcases hs with rfl | rfl <;> simpa using hds

lemma digit_ne_minus {ds : List Char} (h : ds.all Char.isDigit = true) : ds.head? ≠ some '-' := by
  cases ds with
  | nil => simp
  | cons c t =>
    simp only [List.all_cons, Bool.and_eq_true] at h
    rintro hc
    simp only [List.head?_cons, Option.some.injEq] at hc
    subst hc
    simp at h

lemma intText_inj {m n : ℤ} (h : intText m = intText n) : m = n := by
  unfold intText at h
  have hm := digit_ne_minus (toDigits_all m.natAbs)
  have hn := digit_ne_minus (toDigits_all n.natAbs)
  split_ifs at h with h1 h2 h2
  · have := toDigits_inj (List.cons.inj h).2
    omega
  · rw [← h] at hn; simp at hn
  · rw [h] at hm; simp at hm
  · have := toDigits_inj h
    omega

/-! ### The text determines the value -/

/-- What the first character of a text says about the value. -/
def lead (c : Char) : ℕ :=
  if c = 'n' then 0 else if c = 't' then 1 else if c = 'f' then 2 else if numStart c then 3
  else if c = '"' then 4 else if c = '[' then 5 else if c = '{' then 6 else 7

def tag : Json → ℕ
  | .null => 0
  | .bool true => 1
  | .bool false => 2
  | .int _ => 3
  | .float _ => 3
  | .str _ => 4
  | .arr _ => 5
  | .obj _ => 6

lemma lead_numStart {c : Char} (h : numStart c = true) : lead c = 3 := by
  have hn : c ≠ 'n' := by rintro rfl; simp [numStart] at h
  have ht : c ≠ 't' := by rintro rfl; simp [numStart] at h
  have hf : c ≠ 'f' := by rintro rfl; simp [numStart] at h
  simp [lead, h, hn, ht, hf]

lemma render_head (x : Json) : ∃ c t, render x = c :: t ∧ lead c = tag x := by
  have number : ∀ {t : List Char}, t.head?.any numStart = true →
      ∃ c u, t = c :: u ∧ lead c = 3 := by
    intro t ht
    cases t with
    | nil => simp at ht
    | cons c u => exact ⟨c, u, rfl, lead_numStart (by simpa using ht)⟩
  cases x with
  | null => exact ⟨_, _, rfl, by decide⟩
  | bool b => cases b <;> exact ⟨_, _, rfl, by decide⟩
  | int n => exact number (intText_head n)
  | float x => exact number x.start
  | str s => exact ⟨_, _, rfl, by simp only [tag]; decide⟩
  | arr l => exact ⟨_, _, rfl, by simp only [tag]; decide⟩
  | obj l => exact ⟨_, _, rfl, by simp only [tag]; decide⟩

lemma tag_eq {x y : Json} {r r' : List Char} (h : render x ++ r = render y ++ r') :
    tag x = tag y := by
  obtain ⟨c, t, hx, hc⟩ := render_head x
  obtain ⟨d, u, hy, hd⟩ := render_head y
  rw [hx, hy] at h
  rw [← hc, ← hd, (List.cons.inj h).1]

lemma render_ne_close (x : Json) (l r : List Char) : render x ++ l ≠ ']' :: r := by
  obtain ⟨c, t, hx, hc⟩ := render_head x
  intro h
  rw [hx] at h
  have hclose : c = ']' := (List.cons.inj h).1
  have h7 : tag x = 7 := by rw [← hc, hclose]; decide
  cases x with
  | bool b => cases b <;> simp [tag] at h7
  | _ => simp [tag] at h7

lemma stop_moreItems (l : List Json) (r : List Char) : Stop (renderMoreItems l ++ r) := by
  cases l <;> exact stop_cons (by decide)

lemma stop_moreMembers (l : List (String × Json)) (r : List Char) :
    Stop (renderMoreMembers l ++ r) := by
  rcases l with _ | ⟨⟨k, x⟩, l⟩ <;> exact stop_cons (by decide)

lemma number_inj {s t r r' : List Char} {x y : Json} (hs : s.all numChar = true)
    (ht : t.all numChar = true) (hr : Stop r) (hr' : Stop r') (h : s ++ r = t ++ r')
    (hxy : s = t → x = y) : x = y ∧ r = r' := by
  obtain ⟨hst, hrr⟩ := token_inj hs ht hr hr' h
  exact ⟨hxy hst, hrr⟩

lemma int_ne_float {n : ℤ} {x : FloatText} (h : intText n = x.text) : False := by
  have h1 := intText_no_mark n
  rw [h, x.mark] at h1
  cases h1

mutual

theorem render_inj : ∀ (x y : Json) {r r' : List Char}, Stop r → Stop r' →
    render x ++ r = render y ++ r' → x = y ∧ r = r'
  | .null, y, r, r', _, _, h => by
    have ht := tag_eq h
    cases y with
    | null => exact ⟨rfl, List.append_cancel_left h⟩
    | bool b => cases b <;> simp [tag] at ht
    | _ => simp [tag] at ht
  | .bool b, y, r, r', _, _, h => by
    have ht := tag_eq h
    cases y with
    | bool b' =>
      cases b <;> cases b' <;> simp only [tag] at ht
      all_goals first
        | exact ⟨rfl, List.append_cancel_left h⟩
        | omega
    | _ => cases b <;> simp [tag] at ht
  | .int n, y, r, r', hr, hr', h => by
    have ht := tag_eq h
    cases y with
    | int m =>
      exact number_inj (intText_chars n) (intText_chars m) hr hr' h
        fun e => congrArg Json.int (intText_inj e)
    | float x =>
      exact number_inj (intText_chars n) x.chars hr hr' h
        fun e => (int_ne_float e).elim
    | bool b => cases b <;> simp [tag] at ht
    | _ => simp [tag] at ht
  | .float x, y, r, r', hr, hr', h => by
    have ht := tag_eq h
    cases y with
    | int m =>
      exact number_inj x.chars (intText_chars m) hr hr' h
        fun e => (int_ne_float e.symm).elim
    | float x' =>
      exact number_inj x.chars x'.chars hr hr' h
        fun e => by cases x; cases x'; simp_all
    | bool b => cases b <;> simp [tag] at ht
    | _ => simp [tag] at ht
  | .str s, y, r, r', _, _, h => by
    have ht := tag_eq h
    cases y with
    | str s' =>
      obtain ⟨rfl, hr⟩ := quote_inj h
      exact ⟨rfl, hr⟩
    | bool b => cases b <;> simp [tag] at ht
    | _ => simp [tag] at ht
  | .arr l, y, r, r', _, _, h => by
    have ht := tag_eq h
    cases y with
    | arr m =>
      obtain ⟨rfl, hr⟩ := renderItems_inj l m (List.cons.inj h).2
      exact ⟨rfl, hr⟩
    | bool b => cases b <;> simp [tag] at ht
    | _ => simp [tag] at ht
  | .obj l, y, r, r', _, _, h => by
    have ht := tag_eq h
    cases y with
    | obj m =>
      obtain ⟨rfl, hr⟩ := renderMembers_inj l m (List.cons.inj h).2
      exact ⟨rfl, hr⟩
    | bool b => cases b <;> simp [tag] at ht
    | _ => simp [tag] at ht

theorem renderItems_inj : ∀ (l m : List Json) {r r' : List Char},
    renderItems l ++ r = renderItems m ++ r' → l = m ∧ r = r'
  | [], m, r, r', h => by
    cases m with
    | nil => exact ⟨rfl, List.append_cancel_left h⟩
    | cons y m =>
      simp only [renderItems, List.append_assoc] at h
      exact absurd h.symm (render_ne_close _ _ _)
  | x :: l, m, r, r', h => by
    cases m with
    | nil =>
      simp only [renderItems, List.append_assoc] at h
      exact absurd h (render_ne_close _ _ _)
    | cons y m =>
      simp only [renderItems, List.append_assoc] at h
      obtain ⟨rfl, h'⟩ := render_inj x y (stop_moreItems l r) (stop_moreItems m r') h
      obtain ⟨rfl, hr⟩ := renderMoreItems_inj l m h'
      exact ⟨rfl, hr⟩

theorem renderMoreItems_inj : ∀ (l m : List Json) {r r' : List Char},
    renderMoreItems l ++ r = renderMoreItems m ++ r' → l = m ∧ r = r'
  | [], m, r, r', h => by
    cases m with
    | nil => exact ⟨rfl, List.append_cancel_left h⟩
    | cons y m => simp [renderMoreItems] at h
  | x :: l, m, r, r', h => by
    cases m with
    | nil => simp [renderMoreItems] at h
    | cons y m =>
      simp only [renderMoreItems, List.cons_append, List.append_assoc] at h
      obtain ⟨rfl, h'⟩ := render_inj x y (stop_moreItems l r) (stop_moreItems m r')
        (List.cons.inj h).2
      obtain ⟨rfl, hr⟩ := renderMoreItems_inj l m h'
      exact ⟨rfl, hr⟩

theorem renderMembers_inj : ∀ (l m : List (String × Json)) {r r' : List Char},
    renderMembers l ++ r = renderMembers m ++ r' → l = m ∧ r = r'
  | [], m, r, r', h => by
    rcases m with _ | ⟨⟨k, y⟩, m⟩
    · exact ⟨rfl, List.append_cancel_left h⟩
    · simp [renderMembers, quote] at h
  | (k, x) :: l, m, r, r', h => by
    rcases m with _ | ⟨⟨k', y⟩, m⟩
    · simp [renderMembers, quote] at h
    · simp only [renderMembers, List.cons_append, List.append_assoc] at h
      obtain ⟨rfl, h'⟩ := quote_inj h
      obtain ⟨rfl, h''⟩ := render_inj x y (stop_moreMembers l r) (stop_moreMembers m r')
        (List.cons.inj h').2
      obtain ⟨rfl, hr⟩ := renderMoreMembers_inj l m h''
      exact ⟨rfl, hr⟩

theorem renderMoreMembers_inj : ∀ (l m : List (String × Json)) {r r' : List Char},
    renderMoreMembers l ++ r = renderMoreMembers m ++ r' → l = m ∧ r = r'
  | [], m, r, r', h => by
    rcases m with _ | ⟨⟨k, y⟩, m⟩
    · exact ⟨rfl, List.append_cancel_left h⟩
    · simp [renderMoreMembers] at h
  | (k, x) :: l, m, r, r', h => by
    rcases m with _ | ⟨⟨k', y⟩, m⟩
    · simp [renderMoreMembers] at h
    · simp only [renderMoreMembers, List.cons_append, List.append_assoc] at h
      obtain ⟨rfl, h'⟩ := quote_inj (List.cons.inj h).2
      obtain ⟨rfl, h''⟩ := render_inj x y (stop_moreMembers l r) (stop_moreMembers m r')
        (List.cons.inj h').2
      obtain ⟨rfl, hr⟩ := renderMoreMembers_inj l m h''
      exact ⟨rfl, hr⟩

end

/-! ### The canonical text up to the order of keys -/

lemma mem_of_lookup {l : List (String × Json)} {k : String} {y : Json}
    (h : l.lookup k = some y) : (k, y) ∈ l := by
  obtain ⟨l₁, l₂, rfl, -⟩ := List.lookup_eq_some_iff.mp h
  simp

lemma lookup_of_mem {l : List (String × Json)} {k : String} {y : Json}
    (hnd : (l.map Prod.fst).Nodup) (h : (k, y) ∈ l) : l.lookup k = some y := by
  induction l with
  | nil => simp at h
  | cons p l ih =>
    obtain ⟨k', y'⟩ := p
    simp only [List.map_cons, List.nodup_cons] at hnd
    rw [List.lookup_cons]
    rcases List.mem_cons.mp h with heq | h'
    · obtain ⟨rfl, rfl⟩ := Prod.mk.inj heq
      simp
    · have hne : k ≠ k' := by
        rintro rfl
        exact hnd.1 (List.mem_map_of_mem (f := Prod.fst) h')
      rw [beq_eq_false_iff_ne.mpr hne]
      exact ih hnd.2 h'

lemma wf_of_mem {l : List (String × Json)} {p : String × Json} (h : WFMembers l) (hp : p ∈ l) :
    WF p.2 := by
  induction l with
  | nil => simp at hp
  | cons q l ih =>
    obtain ⟨k, x⟩ := q
    rcases List.mem_cons.mp hp with rfl | hp'
    · exact h.1
    · exact ih h.2 hp'

lemma sortValues_eq_map (l : List (String × Json)) :
    sortValues l = l.map fun p => (p.1, sortKeys p.2) := by
  induction l with
  | nil => simp [sortValues]
  | cons p l ih => obtain ⟨k, x⟩ := p; simp [sortValues, ih]

lemma sortValues_keys (l : List (String × Json)) :
    (sortValues l).map Prod.fst = l.map Prod.fst := by
  rw [sortValues_eq_map, List.map_map]
  rfl

lemma sortMembers_pairwise (l : List (String × Json)) :
    (sortMembers l).Pairwise fun p q => p.1 ≤ q.1 := by
  have h : (sortMembers l).Pairwise fun p q => decide (p.1 ≤ q.1) = true :=
    List.pairwise_mergeSort
      (fun a b c hab hbc => by simp only [decide_eq_true_eq] at *; exact le_trans hab hbc)
      (fun a b => by simpa using le_total a.1 b.1) l
  exact h.imp fun hab => by simpa using hab

/-- Sorting forgets nothing but the order, and with distinct keys it forgets all of it. -/
lemma sortMembers_eq_iff {l m : List (String × Json)} (hl : (l.map Prod.fst).Nodup) :
    sortMembers l = sortMembers m ↔ l.Perm m := by
  constructor
  · intro h
    have h1 : (sortMembers l).Perm l := List.mergeSort_perm _ _
    have h2 : (sortMembers m).Perm m := List.mergeSort_perm _ _
    exact h1.symm.trans (h ▸ h2)
  · intro h
    have h1 : (sortMembers l).Perm l := List.mergeSort_perm _ _
    have h2 : (sortMembers m).Perm m := List.mergeSort_perm _ _
    refine List.Perm.eq_of_pairwise ?_ (sortMembers_pairwise l) (sortMembers_pairwise m)
      (h1.trans (h.trans h2.symm))
    intro p q hp hq hpq hqp
    have hp' : p ∈ l := h1.mem_iff.mp hp
    have hq' : q ∈ l := h.mem_iff.mpr (h2.mem_iff.mp hq)
    exact List.inj_on_of_nodup_map hl hp' hq' (le_antisymm hpq hqp)

mutual

theorem same_of_sortKeys : ∀ (x y : Json), WF y → sortKeys x = sortKeys y → Same x y
  | .null, y, _, h => by cases y <;> simp_all [sortKeys, Same]
  | .bool _, y, _, h => by cases y <;> simp_all [sortKeys, Same]
  | .int _, y, _, h => by cases y <;> simp_all [sortKeys, Same]
  | .float _, y, _, h => by cases y <;> simp_all [sortKeys, Same]
  | .str _, y, _, h => by cases y <;> simp_all [sortKeys, Same]
  | .arr l, y, hy, h => by
    cases y with
    | arr m =>
      simp only [sortKeys, Json.arr.injEq] at h
      exact sameItems_of_sortItems l m hy h
    | _ => simp [sortKeys] at h
  | .obj l, y, hy, h => by
    cases y with
    | obj m =>
      simp only [sortKeys, Json.obj.injEq] at h
      have hkeys : ((sortValues m).map Prod.fst).Nodup := by rw [sortValues_keys]; exact hy.1
      have hperm := (sortMembers_eq_iff hkeys).mp h.symm
      refine ⟨by simpa [sortValues_eq_map] using hperm.symm.length_eq, ?_⟩
      refine sameMembers_of_sortValues l m hy.1 hy.2 fun p hp => ?_
      exact hperm.mem_iff.mpr (by rw [sortValues_eq_map]; exact List.mem_map_of_mem hp)
    | _ => simp [sortKeys] at h

theorem sameItems_of_sortItems : ∀ (l m : List Json), WFItems m →
    sortItems l = sortItems m → SameItems l m
  | [], m, _, h => by cases m <;> simp_all [sortItems, SameItems]
  | x :: l, m, hm, h => by
    cases m with
    | nil => simp [sortItems] at h
    | cons y m =>
      simp only [sortItems, List.cons.injEq] at h
      exact ⟨same_of_sortKeys x y hm.1 h.1, sameItems_of_sortItems l m hm.2 h.2⟩

theorem sameMembers_of_sortValues : ∀ (l m : List (String × Json)), (m.map Prod.fst).Nodup →
    WFMembers m → (∀ p ∈ l, (p.1, sortKeys p.2) ∈ sortValues m) → SameMembers l m
  | [], _, _, _, _ => by simp [SameMembers]
  | (k, x) :: l, m, hnd, hm, h => by
    have hk := h (k, x) List.mem_cons_self
    rw [sortValues_eq_map] at hk
    obtain ⟨⟨k', y⟩, hmem, heq⟩ := List.mem_map.mp hk
    obtain ⟨rfl, hs⟩ := Prod.mk.inj heq
    have hy : WF y := wf_of_mem hm hmem
    refine ⟨⟨y, lookup_of_mem hnd hmem, same_of_sortKeys x y hy hs.symm⟩, ?_⟩
    exact sameMembers_of_sortValues l m hnd hm fun p hp => h p (List.mem_cons_of_mem _ hp)

end

mutual

theorem sortKeys_of_same : ∀ (x y : Json), WF x → WF y → Same x y → sortKeys x = sortKeys y
  | .null, y, _, _, h => by cases y <;> simp_all [Same]
  | .bool _, y, _, _, h => by cases y <;> simp_all [Same]
  | .int _, y, _, _, h => by cases y <;> simp_all [Same]
  | .float _, y, _, _, h => by cases y <;> simp_all [Same]
  | .str _, y, _, _, h => by cases y <;> simp_all [Same]
  | .arr l, y, hx, hy, h => by
    cases y with
    | arr m =>
      simp only [Same] at h
      simp only [sortKeys, sortItems_of_same l m hx hy h]
    | _ => simp [Same] at h
  | .obj l, y, hx, hy, h => by
    cases y with
    | obj m =>
      simp only [Same] at h
      have hsub := sortValues_subset_of_same l m hx.2 hy.2 h.2
      have hkeys : ((sortValues l).map Prod.fst).Nodup := by rw [sortValues_keys]; exact hx.1
      have hperm : (sortValues l).Perm (sortValues m) :=
        (List.subperm_of_subset hkeys.of_map hsub).perm_of_length_le
          (by simp [sortValues_eq_map, h.1])
      simp only [sortKeys, (sortMembers_eq_iff hkeys).mpr hperm]
    | _ => simp [Same] at h

theorem sortItems_of_same : ∀ (l m : List Json), WFItems l → WFItems m →
    SameItems l m → sortItems l = sortItems m
  | [], m, _, _, h => by cases m <;> simp_all [SameItems]
  | x :: l, m, hl, hm, h => by
    cases m with
    | nil => simp [SameItems] at h
    | cons y m =>
      simp only [sortItems, sortKeys_of_same x y hl.1 hm.1 h.1,
        sortItems_of_same l m hl.2 hm.2 h.2]

theorem sortValues_subset_of_same : ∀ (l m : List (String × Json)), WFMembers l →
    WFMembers m → SameMembers l m → sortValues l ⊆ sortValues m
  | [], _, _, _, _ => by simp [sortValues]
  | (k, x) :: l, m, hl, hm, h => by
    obtain ⟨⟨y, hy, hxy⟩, hrest⟩ := h
    have hmem := mem_of_lookup hy
    have hs := sortKeys_of_same x y hl.1 (wf_of_mem hm hmem) hxy
    rw [sortValues, List.cons_subset]
    refine ⟨?_, sortValues_subset_of_same l m hl.2 hm hrest⟩
    rw [sortValues_eq_map, hs]
    exact List.mem_map_of_mem (f := fun p : String × Json => (p.1, sortKeys p.2)) hmem

end

/-- Equal canonical texts come from values with equal sorted forms. -/
lemma sortKeys_of_canonical {x y : Json} (h : canonical x = canonical y) :
    sortKeys x = sortKeys y := by
  have h' : render (sortKeys x) ++ [] = render (sortKeys y) ++ [] := by
    simpa [canonical] using h
  exact (render_inj _ _ stop_nil stop_nil h').1

/-- **The canonical text identifies a JSON value**: two values have the same text exactly
when they are equal up to the order of keys. -/
theorem canonical_eq_iff {x y : Json} (hx : WF x) (hy : WF y) :
    canonical x = canonical y ↔ Same x y := by
  constructor
  · exact fun h => same_of_sortKeys x y hy (sortKeys_of_canonical h)
  · exact fun h => congrArg render (sortKeys_of_same x y hx hy h)

/-- The canonical text of an object starts with its opening brace. -/
lemma canonical_obj_head (l : List (String × Json)) :
    ∃ t, canonical (.obj l) = '{' :: t := ⟨_, by rw [canonical, sortKeys, render]⟩

end WhaleMas.JsonText
