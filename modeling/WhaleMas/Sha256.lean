import Mathlib

/-!
SHA-256 on byte strings, and its hexadecimal digest.

Only two facts about the digest are used: it is a function of the bytes, and its text has
sixty-four lower-case hexadecimal characters. That no two of the byte strings at hand
collide is stated where it is needed, as injectivity on those byte strings.
-/

namespace WhaleMas.Sha256

abbrev Word := BitVec 32

/-- The round constants. -/
def K : List Word :=
  [0x428a2f98, 0x71374491, 0xb5c0fbcf, 0xe9b5dba5, 0x3956c25b, 0x59f111f1, 0x923f82a4,
   0xab1c5ed5, 0xd807aa98, 0x12835b01, 0x243185be, 0x550c7dc3, 0x72be5d74, 0x80deb1fe,
   0x9bdc06a7, 0xc19bf174, 0xe49b69c1, 0xefbe4786, 0x0fc19dc6, 0x240ca1cc, 0x2de92c6f,
   0x4a7484aa, 0x5cb0a9dc, 0x76f988da, 0x983e5152, 0xa831c66d, 0xb00327c8, 0xbf597fc7,
   0xc6e00bf3, 0xd5a79147, 0x06ca6351, 0x14292967, 0x27b70a85, 0x2e1b2138, 0x4d2c6dfc,
   0x53380d13, 0x650a7354, 0x766a0abb, 0x81c2c92e, 0x92722c85, 0xa2bfe8a1, 0xa81a664b,
   0xc24b8b70, 0xc76c51a3, 0xd192e819, 0xd6990624, 0xf40e3585, 0x106aa070, 0x19a4c116,
   0x1e376c08, 0x2748774c, 0x34b0bcb5, 0x391c0cb3, 0x4ed8aa4a, 0x5b9cca4f, 0x682e6ff3,
   0x748f82ee, 0x78a5636f, 0x84c87814, 0x8cc70208, 0x90befffa, 0xa4506ceb, 0xbef9a3f7,
   0xc67178f2]

/-- The chaining state. -/
structure St where
  a : Word
  b : Word
  c : Word
  d : Word
  e : Word
  f : Word
  g : Word
  h : Word

def init : St :=
  ⟨0x6a09e667, 0xbb67ae85, 0x3c6ef372, 0xa54ff53a, 0x510e527f, 0x9b05688c, 0x1f83d9ab,
   0x5be0cd19⟩

def St.add (s t : St) : St :=
  ⟨s.a + t.a, s.b + t.b, s.c + t.c, s.d + t.d, s.e + t.e, s.f + t.f, s.g + t.g, s.h + t.h⟩

def St.words (s : St) : List Word := [s.a, s.b, s.c, s.d, s.e, s.f, s.g, s.h]

/-- The message, a one bit, zeros up to eight bytes before the end of a block, and the
length in bits. -/
def pad (m : List UInt8) : List UInt8 :=
  m ++ 0x80 :: (List.replicate ((119 - m.length % 64) % 64) 0 ++
    (List.range 8).reverse.map fun i => UInt8.ofNat (8 * m.length / 256 ^ i))

/-- The first `n` blocks of sixty-four bytes. -/
def blocks : ℕ → List UInt8 → List (List UInt8)
  | 0, _ => []
  | n + 1, m => m.take 64 :: blocks n (m.drop 64)

/-- The first `n` big-endian words, the last one first. -/
def wordsRev : ℕ → List UInt8 → List Word → List Word
  | 0, _, acc => acc
  | n + 1, m, acc =>
    wordsRev n (m.drop 4)
      (BitVec.ofNat 32 ((m.take 4).foldl (fun v b => 256 * v + b.toNat) 0) :: acc)

/-- One more word of the message schedule, which is kept with the last word first. -/
def extend (w : List Word) : List Word :=
  let x := w.getD 14 0
  let y := w.getD 1 0
  (w.getD 15 0 + (x.rotateRight 7 ^^^ x.rotateRight 18 ^^^ x >>> 3) + w.getD 6 0 +
    (y.rotateRight 17 ^^^ y.rotateRight 19 ^^^ y >>> 10)) :: w

def schedule (block : List UInt8) : List Word :=
  (extend^[48] (wordsRev 16 block [])).reverse

def round (s : St) (kw : Word × Word) : St :=
  let t1 := s.h + (s.e.rotateRight 6 ^^^ s.e.rotateRight 11 ^^^ s.e.rotateRight 25) +
    ((s.e &&& s.f) ^^^ (~~~s.e &&& s.g)) + kw.1 + kw.2
  let t2 := (s.a.rotateRight 2 ^^^ s.a.rotateRight 13 ^^^ s.a.rotateRight 22) +
    ((s.a &&& s.b) ^^^ (s.a &&& s.c) ^^^ (s.b &&& s.c))
  ⟨t1 + t2, s.a, s.b, s.c, s.d + t1, s.e, s.f, s.g⟩

def compress (s : St) (block : List UInt8) : St :=
  s.add ((K.zip (schedule block)).foldl round s)

def digest (m : List UInt8) : List Word :=
  let p := pad m
  ((blocks (p.length / 64) p).foldl compress init).words

/-! ### The hexadecimal digest -/

def hexDigits : List Char :=
  ['0', '1', '2', '3', '4', '5', '6', '7', '8', '9', 'a', 'b', 'c', 'd', 'e', 'f']

/-- The eight digits of a word, the most significant first. -/
def wordHex (w : Word) : List Char :=
  (List.range 8).reverse.map fun i => hexDigits.getD (w.toNat / 16 ^ i % 16) '0'

/-- The digest as text. -/
@[irreducible] def hexdigest (m : List UInt8) : String := String.ofList ((digest m).flatMap wordHex)

/-- Sixty-four lower-case hexadecimal characters. -/
def IsHexdigest (s : String) : Prop := s.toList.length = 64 ∧ ∀ c ∈ s.toList, c ∈ hexDigits

lemma wordHex_mem {w : Word} {c : Char} (h : c ∈ wordHex w) : c ∈ hexDigits := by
  obtain ⟨i, -, rfl⟩ := List.mem_map.mp h
  have hlt : w.toNat / 16 ^ i % 16 < hexDigits.length := Nat.mod_lt _ (by decide)
  rw [List.getD_eq_getElem _ _ hlt]
  exact List.getElem_mem hlt

theorem hexdigest_isHexdigest (m : List UInt8) : IsHexdigest (hexdigest m) := by
  refine ⟨?_, fun c hc => ?_⟩
  · simp [hexdigest, digest, St.words, wordHex]
  · simp only [hexdigest, String.toList_ofList, List.mem_flatMap] at hc
    obtain ⟨w, -, hw⟩ := hc
    exact wordHex_mem hw

example : hexdigest [97, 98, 99] =
    "ba7816bf8f01cfea414140de5dae2223b00361a396177a9cb410ff61f20015ad" := by
  decide +kernel

end WhaleMas.Sha256
