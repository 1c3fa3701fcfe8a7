import WhaleMas.Sha256

/-!
Hashing a file that is read piece by piece.
-/

namespace WhaleMas.Hashing

/-- A `hashlib.sha256` object. Updating it piece by piece is updating it once with the pieces
one after the other, so it is known by all it was given. -/
structure Sha256Object where
  data : List UInt8

def Sha256Object.new : Sha256Object := ⟨[]⟩

def Sha256Object.update (digest : Sha256Object) (chunk : List UInt8) : Sha256Object :=
  ⟨digest.data ++ chunk⟩

def Sha256Object.hexdigest (digest : Sha256Object) : String := Sha256.hexdigest digest.data

def sha256Chunks (chunks : List (List UInt8)) : String :=
  (chunks.foldl Sha256Object.update .new).hexdigest

/-- The pieces `file_handle.read(chunk_size)` gives until one is empty. Every other read takes
a byte, so there are no more of them than bytes. -/
def chunks (chunkSize : ℕ) : ℕ → List UInt8 → List (List UInt8)
  | 0, _ => []
  | reads + 1, rest =>
    let chunk := rest.take chunkSize
    if chunk.isEmpty then [] else chunk :: chunks chunkSize reads (rest.drop chunkSize)

/-- The chunk size where none is given. -/
def defaultChunkSize : ℕ := 1024 * 1024

/-- `sha256_file`, on the content of the file. -/
def sha256File (content : List UInt8) (chunkSize : ℕ) : String :=
  sha256Chunks (chunks chunkSize content.length content)

lemma foldl_update (l : List (List UInt8)) (digest : Sha256Object) :
    (l.foldl Sha256Object.update digest).data = digest.data ++ l.flatten := by
  induction l generalizing digest with
  | nil => simp
  | cons chunk l ih => simp [ih, Sha256Object.update]

/-- The pieces make up the file. -/
lemma chunks_flatten {chunkSize : ℕ} (hsize : 0 < chunkSize) (reads : ℕ) (content : List UInt8)
    (hreads : content.length ≤ reads) : (chunks chunkSize reads content).flatten = content := by
  induction reads generalizing content with
  | zero =>
    have hnil : content = [] := List.length_eq_zero_iff.mp (Nat.le_zero.mp hreads)
    simp [chunks, hnil]
  | succ reads ih =>
    by_cases hempty : (content.take chunkSize).isEmpty
    · have hnil : content = [] := by
        have htake := List.isEmpty_iff.mp hempty
        rcases List.take_eq_nil_iff.mp htake with h | h
        · omega
        · exact h
      simp [chunks, hnil]
    · have hrest : (content.drop chunkSize).length ≤ reads := by
        rw [List.length_drop]
        omega
      rw [chunks, if_neg hempty, List.flatten_cons, ih _ hrest, List.take_append_drop]

/-- **The hash does not depend on the size of the pieces.** -/
theorem sha256File_eq {chunkSize : ℕ} (hsize : 0 < chunkSize) (content : List UInt8) :
    sha256File content chunkSize = Sha256.hexdigest content := by
  rw [sha256File, sha256Chunks, Sha256Object.hexdigest, foldl_update,
    chunks_flatten hsize _ _ le_rfl]
  rfl

@[simp] lemma sha256File_default (content : List UInt8) :
    sha256File content defaultChunkSize = Sha256.hexdigest content :=
  sha256File_eq (by decide) content

end WhaleMas.Hashing
