import WhaleMas.Plays
import WhaleMas.SessionFrame

/-!
How the bytes of an upload get through it.

The calls of an upload that concern its bytes are known beforehand, but for where the upload
breaks off: read and write piece by piece, up to the piece that crosses the limit; then, if the
size is fine, hash, store and insert. Every play of an upload follows this script, so that what
is to be said about its bytes can be read off the script.
-/

namespace WhaleMas.Intake

open WhaleMas.Models WhaleMas.AuditLog WhaleMas.Program WhaleMas.RelyGuarantee WhaleMas.Plays
open WhaleMas.Hashing WhaleMas.Database WhaleMas.Services WhaleMas.SessionFrame

/-! ### The script -/

/-- The calls that concern the bytes of an upload, with what they are given of them. -/
inductive Mark
  | opened
  | read
  | wrote (chunk : List UInt8)
  | hashed
  | put (data : List UInt8)
  | inserted (fileSize : Datetime → ℕ) (sha256 : Datetime → String)

def mark : (Σ o : Op, Answer o) → Option Mark
  | ⟨.localCall .openTemp, _⟩ => some .opened
  | ⟨.localCall .readUpload, _⟩ => some .read
  | ⟨.localCall (.writeTemp chunk), _⟩ => some (.wrote chunk)
  | ⟨.localCall .hashFile, _⟩ => some .hashed
  | ⟨.putObject _ data _, _⟩ => some (.put data)
  | ⟨.createEvidence row, _⟩ =>
    some (.inserted (fun now => (row now).fileSize) fun now => (row now).sha256)
  | _ => none

def marks (t : Exchange Op Answer) : List Mark := t.filterMap mark

/-- The loop that reads the upload, `size` bytes after its beginning. -/
def readScript (limit : ℕ) : ℕ → List (List UInt8) → List Mark
  | _, [] => [.read]
  | size, chunk :: chunks =>
    if limit < size + chunk.length then [.read]
    else .read :: .wrote chunk :: readScript limit (size + chunk.length) chunks

/-- What follows when the size is accepted. -/
def storeScript (content : List UInt8) : List Mark :=
  [.hashed, .put content,
    .inserted (fun _ => content.length) fun _ => Sha256.hexdigest content]

def SizeOk (limit : ℕ) (content : List UInt8) : Prop := 0 < content.length ∧ content.length ≤ limit

instance (limit : ℕ) (content : List UInt8) : Decidable (SizeOk limit content) := by
  unfold SizeOk; infer_instance

def script (limit : ℕ) (chunks : List (List UInt8)) : List Mark :=
  .opened :: (readScript limit 0 chunks ++
    if SizeOk limit chunks.flatten then storeScript chunks.flatten else [])

/-! ### What the script says about the bytes -/

def Mark.chunk : Mark → Option (List UInt8)
  | .wrote chunk => some chunk
  | _ => none

def Mark.isRead : Mark → Bool
  | .read => true
  | _ => false

/-- The content of the temporary file. -/
def written (m : List Mark) : List UInt8 := (m.filterMap Mark.chunk).flatten

/-- How often the upload was read. -/
def reads (m : List Mark) : ℕ := m.countP Mark.isRead

section Script

variable {limit size n : ℕ} {chunks : List (List UInt8)} {m : List Mark}

lemma written_append (m m' : List Mark) : written (m ++ m') = written m ++ written m' := by
  simp [written]

lemma written_mono {m m' : List Mark} (h : m <+: m') : written m <+: written m' := by
  obtain ⟨t, rfl⟩ := h
  exact ⟨written t, (written_append m t).symm⟩

/-- The pieces written stay within the limit, whether or not all are. -/
lemma written_readScript (hsize : size ≤ limit) :
    size + (written (readScript limit size chunks)).length ≤ limit ∧
      (size + chunks.flatten.length ≤ limit →
        written (readScript limit size chunks) = chunks.flatten) := by
  induction chunks generalizing size with
  | nil => exact ⟨by simpa [readScript, written, Mark.chunk], by simp [readScript, written,
      Mark.chunk]⟩
  | cons chunk chunks ih =>
    rw [readScript]
    split_ifs with hbig
    · refine ⟨by simpa [written, Mark.chunk], fun hle => ?_⟩
      simp only [List.flatten_cons, List.length_append] at hle
      omega
    · have hfits : size + chunk.length ≤ limit := by omega
      obtain ⟨hlen, hall⟩ := ih hfits
      have hw : ∀ l, written (.read :: .wrote chunk :: l) = chunk ++ written l := fun _ => rfl
      rw [hw, List.length_append]
      refine ⟨by omega, fun hle => ?_⟩
      simp only [List.flatten_cons, List.length_append] at hle ⊢
      rw [hall (by omega)]

/-- Nothing is read after the piece that crosses the limit. -/
lemma reads_readScript (hsize : size ≤ limit) (h : m <+: readScript limit size chunks)
    (hn : reads m = n + 1) : size + (chunks.take n).flatten.length ≤ limit := by
  induction chunks generalizing size m n with
  | nil => simpa
  | cons chunk chunks ih =>
    cases n with
    | zero => simpa
    | succ n =>
      rw [readScript] at h
      split_ifs at h with hbig
      · have hle := List.Sublist.countP_le (p := Mark.isRead) h.sublist
        have hone : [Mark.read].countP Mark.isRead = 1 := rfl
        rw [reads] at hn
        omega
      · -- the first two calls of the script are a read and a write
        obtain ⟨rest, hrest⟩ := h
        rcases m with _ | ⟨a, _ | ⟨b, m⟩⟩
        · simp [reads] at hn
        · have hle := List.countP_le_length (p := Mark.isRead) (l := [a])
          rw [List.length_singleton] at hle
          rw [reads] at hn
          omega
        · simp only [List.cons_append, List.cons.injEq] at hrest
          obtain ⟨rfl, rfl, hm⟩ := hrest
          have hn' : reads m = n + 1 := by
            simpa [reads, List.countP_cons, Mark.isRead] using hn
          have hfits : size + chunk.length ≤ limit := by omega
          have hih := ih hfits ⟨rest, hm⟩ hn'
          simp only [List.take_succ_cons, List.flatten_cons, List.length_append]
          omega

lemma mem_readScript {k : Mark} (h : k ∈ readScript limit size chunks) :
    k = .read ∨ ∃ chunk, k = .wrote chunk := by
  induction chunks generalizing size with
  | nil => exact .inl (List.mem_singleton.mp h)
  | cons chunk chunks ih =>
    rw [readScript] at h
    split_ifs at h
    · exact .inl (List.mem_singleton.mp h)
    · rcases List.mem_cons.mp h with rfl | h
      · exact .inl rfl
      · rcases List.mem_cons.mp h with rfl | h
        · exact .inr ⟨chunk, rfl⟩
        · exact ih h

/-- An upload that follows the script is still reading, or has read all and found the size
fine. -/
lemma script_cases (h : m <+: script limit chunks) :
    m = [] ∨ (∃ m', m = .opened :: m' ∧ m' <+: readScript limit 0 chunks) ∨
      SizeOk limit chunks.flatten ∧ ∃ m', m' <+: storeScript chunks.flatten ∧
        m = .opened :: (readScript limit 0 chunks ++ m') := by
  rcases m with _ | ⟨a, m⟩
  · exact .inl rfl
  · right
    rw [script, List.cons_prefix_cons] at h
    obtain ⟨rfl, h⟩ := h
    rcases List.prefix_or_prefix_of_prefix h (List.prefix_append _ _) with hm | ⟨m', rfl⟩
    · exact .inl ⟨m, rfl, hm⟩
    · rw [List.prefix_append_right_inj] at h
      split_ifs at h with hok
      · exact .inr ⟨hok, m', h, rfl⟩
      · rw [List.prefix_nil.mp h, List.append_nil]
        exact .inl ⟨_, rfl, List.prefix_rfl⟩

/-- Nothing is read or written after the size was accepted. -/
lemma store_silent {content : List UInt8} {m' : List Mark} (h : m' <+: storeScript content) :
    written m' = [] ∧ reads m' = 0 := by
  constructor
  · exact List.prefix_nil.mp (written_mono h)
  · exact Nat.le_zero.mp (h.sublist.countP_le (p := Mark.isRead))

lemma script_written (h : m <+: script limit chunks) : (written m).length ≤ limit := by
  have hread : 0 + (written (readScript limit 0 chunks)).length ≤ limit :=
    (written_readScript (Nat.zero_le limit)).1
  rcases script_cases h with rfl | ⟨m', rfl, hm⟩ | ⟨-, m', hm, rfl⟩
  · exact Nat.zero_le _
  · have hle : (written m').length ≤ _ := (written_mono hm).length_le
    exact hle.trans (by omega)
  · have hw : written (.opened :: (readScript limit 0 chunks ++ m')) =
        written (readScript limit 0 chunks) := by
      rw [← List.cons_append, written_append, (store_silent hm).1, List.append_nil]
      rfl
    rw [hw]
    omega

lemma script_reads (h : m <+: script limit chunks) (hn : reads m = n + 1) :
    (chunks.take n).flatten.length ≤ limit := by
  rcases script_cases h with rfl | ⟨m', rfl, hm⟩ | ⟨-, m', hm, rfl⟩
  · simp [reads] at hn
  · have := reads_readScript (Nat.zero_le limit) hm hn
    omega
  · have hr : reads (readScript limit 0 chunks) = n + 1 := by
      have hsplit : reads (.opened :: (readScript limit 0 chunks ++ m')) =
          reads (readScript limit 0 chunks) + reads m' := List.countP_append ..
      rw [hsplit, (store_silent hm).2] at hn
      exact hn
    have := reads_readScript (Nat.zero_le limit) List.prefix_rfl hr
    omega

/-- What comes after the reading is found in the last part of the script, and then the whole
upload has been written. -/
lemma script_stored {k : Mark} (h : m <+: script limit chunks) (hk : k ∈ m)
    (hopened : k ≠ .opened) (hread : k ≠ .read) (hwrote : ∀ chunk, k ≠ .wrote chunk) :
    SizeOk limit chunks.flatten ∧ k ∈ storeScript chunks.flatten ∧
      written m = chunks.flatten := by
  have hnot : k ∉ readScript limit 0 chunks := fun hc =>
    (mem_readScript hc).elim hread fun ⟨chunk, hc⟩ => hwrote chunk hc
  rcases script_cases h with rfl | ⟨m', rfl, hm⟩ | ⟨hok, m', hm, rfl⟩
  · simp at hk
  · rcases List.mem_cons.mp hk with hk | hk
    · exact absurd hk hopened
    · exact absurd (hm.subset hk) hnot
  · have hmem : k ∈ m' := by
      rcases List.mem_cons.mp hk with hk | hk
      · exact absurd hk hopened
      · exact (List.mem_append.mp hk).resolve_left hnot
    refine ⟨hok, hm.subset hmem, ?_⟩
    have hle : 0 + chunks.flatten.length ≤ limit := by
      rw [Nat.zero_add]
      exact hok.2
    rw [← List.cons_append, written_append, (store_silent hm).1, List.append_nil]
    exact (written_readScript (Nat.zero_le limit)).2 hle

end Script

/-! ### The calls of an upload follow the script -/

section Plays

variable {m s : List Mark} {G : Exchange Op Answer → Prop} {o : Op}

/-- Some call has raised. -/
def Raised (t : Exchange Op Answer) : Prop := ∃ e ∈ t, ∃ x, e.2 = .error x

/-- What further calls do not undo. -/
def Lasting (G : Exchange Op Answer → Prop) : Prop := ∀ t e, G t → G (t ++ [e])

lemma lasting_true : Lasting fun _ => True := fun _ _ _ => trivial

lemma lasting_mem (e : Σ o : Op, Answer o) : Lasting fun t => e ∈ t :=
  fun _ _ h => List.mem_append_left _ h

lemma lasting_raised : Lasting Raised := fun _ _ ⟨e, he, h⟩ => ⟨e, List.mem_append_left _ he, h⟩

/-- The calls so far follow the script. -/
def Follows (s : List Mark) (t : Exchange Op Answer) : Prop := marks t <+: s

/-- The marked calls so far, and what is known of all calls. -/
def At (m : List Mark) (G : Exchange Op Answer → Prop) (t : Exchange Op Answer) : Prop :=
  marks t = m ∧ G t

lemma marks_snoc (t : Exchange Op Answer) (e : Σ o : Op, Answer o) :
    marks (t ++ [e]) = marks t ++ (mark e).toList := by
  rw [marks, List.filterMap_append]
  cases h : mark e <;> simp [marks, h]

/-- A call that is not in the script. -/
lemma triple_other (ho : ∀ r, mark ⟨o, r⟩ = none) (hG : Lasting G) :
    ETriple anything (keeping (Follows s)) () (At m G) (call o) (fun _ => At m G)
      (fun _ => At m fun t => G t ∧ Raised t) := by
  refine triple_play fun t r hs h => ?_
  have hm : marks (t ++ [⟨o, r⟩]) = marks t := by
    rw [marks_snoc, ho]
    exact List.append_nil _
  refine ⟨by rw [Follows, hm]; exact hs, ?_⟩
  have hmem : ⟨o, r⟩ ∈ t ++ [⟨o, r⟩] := List.mem_append_right _ (by simp)
  cases r with
  | ok a => exact ⟨hm.trans h.1, hG _ _ h.2⟩
  | error x => exact ⟨hm.trans h.1, hG _ _ h.2, _, hmem, x, rfl⟩

/-- The next call of the script. -/
lemma triple_mark {k : Mark} (ho : ∀ r, mark ⟨o, r⟩ = some k) (hs : m ++ [k] <+: s)
    (hG : Lasting G) :
    ETriple anything (keeping (Follows s)) () (At m G) (call o)
      (fun a => At (m ++ [k]) fun t => G t ∧ ⟨o, .ok a⟩ ∈ t)
      (fun _ => At (m ++ [k]) fun t => G t ∧ Raised t) := by
  refine triple_play fun t r _ h => ?_
  have hm : marks (t ++ [⟨o, r⟩]) = m ++ [k] := by
    rw [marks_snoc, ho, h.1]
    rfl
  refine ⟨by rw [Follows, hm]; exact hs, ?_⟩
  have hmem : ⟨o, r⟩ ∈ t ++ [⟨o, r⟩] := List.mem_append_right _ (by simp)
  cases r with
  | ok a => exact ⟨hm, hG _ _ h.2, hmem⟩
  | error x => exact ⟨hm, hG _ _ h.2, ⟨_, hmem, x, rfl⟩⟩

lemma triple_next {k : Mark} (ho : ∀ r, mark ⟨o, r⟩ = some k) (hs : m ++ [k] <+: s)
    (hG : Lasting G) :
    ETriple anything (keeping (Follows s)) () (At m G) (call o) (fun _ => At (m ++ [k]) G)
      (fun _ t => G t ∧ Raised t) :=
  etriple_conseq (triple_mark ho hs hG) (fun _ _ h => h) (fun _ _ _ h => ⟨h.1, h.2.1⟩)
    fun _ _ _ h => h.2

lemma triple_append (hG : Lasting G) (self : AuditService) (a : AppendArgs) :
    ETriple anything (keeping (Follows s)) () (At m G) (self.append a) (fun _ => At m G)
      (fun _ => At m fun t => G t ∧ Raised t) :=
  triple_append_of (triple_other (fun _ => rfl) hG) (triple_other (fun _ => rfl) hG)
    (triple_other (fun _ => rfl) hG) (fun _ => triple_other (fun _ => rfl) hG)
    fun _ _ _ => triple_other (fun _ => rfl) hG

/-! ### The size checks -/

variable {v : FileValidator} {chunks : List (List UInt8)}

lemma validateSize_ok {n : ℕ} (h : v.validateSize n = .ok ()) : 0 < n ∧ n ≤ v.maxSizeBytes := by
  unfold FileValidator.validateSize at h
  split_ifs at h with h0 hmax
  exact ⟨Nat.pos_of_ne_zero h0, Nat.not_lt.mp hmax⟩

lemma validateSize_big {n : ℕ} (h : v.maxSizeBytes < n) : v.validateSize n =
    .error (evidenceValidationError "EVIDENCE_TOO_LARGE" "Evidence file is too large") := by
  have h0 : n ≠ 0 := by omega
  rw [FileValidator.validateSize, if_neg h0, if_pos h]

/-- The size check of the whole upload has failed with this exception. -/
def Rejected (v : FileValidator) (size : ℕ) (x : Exn) : Prop :=
  ∃ e, v.validateSize size = .error e ∧ x = .domain e

/-- The loop writes every piece it reads, unless it stops at the one that crosses the limit. -/
lemma triple_readUpload {size : ℕ} (content : List UInt8)
    (hs : m ++ readScript v.maxSizeBytes size chunks <+: s) (hG : Lasting G) :
    ETriple anything (keeping (Follows s)) () (At m G) (readUpload v chunks size content)
      (fun p t => p = (size + chunks.flatten.length, content ++ chunks.flatten) ∧
        At (m ++ readScript v.maxSizeBytes size chunks) G t)
      (fun x t => G t ∧ (Raised t ∨ Rejected v (size + chunks.flatten.length) x)) := by
  induction chunks generalizing size content m with
  | nil =>
    refine etriple_bind (etriple_error (triple_next (fun _ => rfl) hs hG)
      fun _ _ _ h => ⟨h.1, .inl h.2⟩) fun _ => ?_
    exact etriple_pure fun _ _ h => ⟨by simp, h⟩
  | cons chunk chunks ih =>
    have hfirst : m ++ [.read] <+: s := by
      refine List.IsPrefix.trans ?_ hs
      rw [List.prefix_append_right_inj, readScript]
      split_ifs
      · exact List.prefix_rfl
      · exact List.prefix_append [_] _
    refine etriple_bind (etriple_error (triple_next (fun _ => rfl) hfirst hG)
      fun _ _ _ h => ⟨h.1, .inl h.2⟩) fun _ => ?_
    have htotal : size + (chunk :: chunks).flatten.length =
        size + chunk.length + chunks.flatten.length := by
      rw [List.flatten_cons, List.length_append, Nat.add_assoc]
    by_cases hbig : v.maxSizeBytes < size + chunk.length
    · simp only [hbig, if_true, validateSize_big hbig]
      refine etriple_bind (Q := fun _ _ => False) (etriple_throw fun t _ h => ?_)
        fun _ _ _ h => h.elim
      exact ⟨h.2, .inr ⟨_, validateSize_big (by omega), rfl⟩⟩
    · simp only [hbig, if_false]
      rw [readScript, if_neg hbig] at hs ⊢
      have hsplit : m ++ .read :: .wrote chunk :: readScript v.maxSizeBytes (size + chunk.length)
          chunks = m ++ [.read] ++ [.wrote chunk] ++ readScript v.maxSizeBytes
            (size + chunk.length) chunks := by simp
      rw [hsplit] at hs ⊢
      refine etriple_bind (etriple_error (triple_next (fun _ => rfl)
        ((List.prefix_append _ _).trans hs) hG) fun _ _ _ h => ⟨h.1, .inl h.2⟩) fun _ => ?_
      rw [htotal]
      refine etriple_conseq (ih (content ++ chunk) hs) (fun _ _ h => h) (fun p _ _ h => ?_)
        fun _ _ _ h => h
      refine ⟨h.1.trans ?_, h.2⟩
      rw [List.flatten_cons, List.append_assoc]

/-! ### The `try` block -/

variable {n : ℕ}

/-- The part of the upload that was tried has failed with `x`: because a call did, after the
size was accepted, or in the size check. -/
def Fails (v : FileValidator) (n : ℕ) (x : Exn) (t : Exchange Op Answer) : Prop :=
  Raised t ∨ .hashed ∈ marks t ∨ Rejected v n x

lemma lasting_hashed : Lasting fun t => Mark.hashed ∈ marks t := fun t e h => by
  change .hashed ∈ marks (t ++ [e])
  rw [marks_snoc]
  exact List.mem_append_left _ h

lemma lasting_fails (x : Exn) : Lasting (Fails v n x) := fun t e h =>
  h.elim (fun h => .inl (lasting_raised t e h))
    fun h => h.elim (fun h => .inr (.inl (lasting_hashed t e h))) fun h => .inr (.inr h)

/-- The calls up to the hash. -/
def receivedMarks (limit : ℕ) (chunks : List (List UInt8)) : List Mark :=
  [.opened] ++ readScript limit 0 chunks ++ [.hashed]

lemma script_of_sizeOk {limit : ℕ} (h : SizeOk limit chunks.flatten) :
    script limit chunks = receivedMarks limit chunks ++ [.put chunks.flatten] ++
      [.inserted (fun _ => chunks.flatten.length) fun _ => Sha256.hexdigest chunks.flatten] := by
  simp [script, receivedMarks, storeScript, h]

lemma triple_receiveUpload (self : EvidenceService) (caseId evidenceId : Uuid)
    (upload : UploadFile) (createdBy : Option String) :
    ETriple anything (keeping (Follows (script self.validator.maxSizeBytes upload.chunks))) ()
      (At [.opened] fun _ => True) (receiveUpload self caseId evidenceId upload createdBy)
      (fun r t => (SizeOk self.validator.maxSizeBytes upload.chunks.flatten ∧
        r = (upload.chunks.flatten.length, upload.chunks.flatten,
          Sha256.hexdigest upload.chunks.flatten)) ∧
        At (receivedMarks self.validator.maxSizeBytes upload.chunks) (fun _ => True) t)
      (Fails self.validator upload.chunks.flatten.length) := by
  have hread : [.opened] ++ readScript self.validator.maxSizeBytes 0 upload.chunks <+:
      script self.validator.maxSizeBytes upload.chunks :=
    List.cons_prefix_cons.mpr ⟨rfl, List.prefix_append _ _⟩
  refine etriple_bind (etriple_error (triple_readUpload [] hread lasting_true) fun x t _ h => ?_)
    fun p => ?_
  · rw [Nat.zero_add] at h
    exact h.2.elim .inl fun h => .inr (.inr h)
  refine triple_and ?_
  rintro rfl
  simp only [Nat.zero_add, List.nil_append]
  refine etriple_bind (etriple_error (triple_other (fun _ => rfl) lasting_true)
    fun _ _ _ h => .inl h.2.2) fun _ => ?_
  cases hsize : self.validator.validateSize upload.chunks.flatten.length with
  | error e =>
    refine etriple_bind (Q := fun _ _ => False) (etriple_throw fun _ _ _ => ?_)
      fun _ _ _ h => h.elim
    exact .inr (.inr ⟨e, hsize, rfl⟩)
  | ok _ =>
    have hok : SizeOk self.validator.maxSizeBytes upload.chunks.flatten := validateSize_ok hsize
    have hhash : receivedMarks self.validator.maxSizeBytes upload.chunks <+:
        script self.validator.maxSizeBytes upload.chunks := by
      rw [script_of_sizeOk hok, List.append_assoc]
      exact List.prefix_append _ _
    refine etriple_bind (Q := fun _ => At ([.opened] ++ readScript self.validator.maxSizeBytes 0
      upload.chunks) fun _ => True) (etriple_pure fun _ _ h => h) fun _ => ?_
    refine etriple_bind (etriple_error (triple_next (fun _ => rfl) hhash lasting_true)
      fun _ _ _ h => .inl h.2) fun _ => ?_
    rw [sha256File_default]
    refine etriple_bind (etriple_error (triple_other (fun _ => rfl) lasting_true)
      fun _ _ _ h => .inl h.2.2) fun known => ?_
    cases known with
    | some row =>
      refine etriple_bind (Q := fun _ _ => False) (etriple_throw fun t _ h => ?_)
        fun _ _ _ h => h.elim
      refine .inr (.inl ?_)
      rw [h.1]
      simp
    | none =>
      refine etriple_bind (etriple_error (triple_append lasting_true self.auditService _)
        fun _ _ _ h => .inl h.2.2) fun _ => ?_
      refine etriple_bind (etriple_error (triple_other (fun _ => rfl) lasting_true)
        fun _ _ _ h => .inl h.2.2) fun _ => ?_
      exact etriple_pure fun _ _ h => ⟨⟨hok, rfl⟩, h⟩

/-- The row was inserted, and came back as `r`. -/
def Inserted (r : Evidence) (t : Exchange Op Answer) : Prop :=
  ∃ row, ⟨.createEvidence row, .ok r⟩ ∈ t

lemma triple_recordUpload {k : Mark} (self : EvidenceService) (caseId evidenceId : Uuid)
    (objectKey digest : String) (row : Datetime → Evidence) (createdBy : Option String)
    (hk : ∀ r, mark ⟨.createEvidence row, r⟩ = some k) (hs : m ++ [k] <+: s) :
    ETriple anything (keeping (Follows s)) () (At m fun _ => True)
      (recordUpload self caseId evidenceId objectKey digest row createdBy)
      (fun r => At (m ++ [k]) (Inserted r)) (fun _ => Raised) := by
  refine etriple_bind (etriple_error (triple_mark hk hs lasting_true) fun _ _ _ h => h.2.2)
    fun r => ?_
  have hG : Lasting fun t => True ∧ ⟨.createEvidence row, .ok r⟩ ∈ t :=
    fun t e h => ⟨trivial, lasting_mem _ t e h.2⟩
  refine etriple_bind (etriple_error (triple_append hG self.auditService _)
    fun _ _ _ h => h.2.2) fun _ => ?_
  refine etriple_bind (etriple_error (triple_append hG self.auditService _)
    fun _ _ _ h => h.2.2) fun _ => ?_
  refine etriple_bind (etriple_error (triple_other (fun _ => rfl) hG)
    fun _ _ _ h => h.2.2) fun _ => ?_
  exact etriple_pure fun _ _ h => ⟨h.1, row, h.2.2⟩

lemma triple_storeUpload (self : EvidenceService) (caseId evidenceId : Uuid)
    (upload : UploadFile) (sourceType : EvidenceSourceType) (createdBy : Option String)
    (parentEvidenceId : Option Uuid) (cleanedName extension : String) :
    ETriple anything (keeping (Follows (script self.validator.maxSizeBytes upload.chunks))) ()
      (At [] fun _ => True)
      (storeUpload self caseId evidenceId upload sourceType createdBy parentEvidenceId
        cleanedName extension)
      (fun r t => .hashed ∈ marks t ∧ Inserted r t)
      (fun x => Fails self.validator upload.chunks.flatten.length x.1) := by
  have hopen : [] ++ [Mark.opened] <+: script self.validator.maxSizeBytes upload.chunks :=
    List.cons_prefix_cons.mpr ⟨rfl, List.nil_prefix⟩
  refine etriple_bind (triple_within (triple_next (fun _ => rfl) hopen lasting_true)
    fun _ _ _ h => .inl h.2) fun _ => ?_
  refine etriple_bind (triple_within (triple_receiveUpload self caseId evidenceId upload createdBy)
    fun _ _ _ h => h) fun p => ?_
  refine triple_and ?_
  rintro ⟨hok, rfl⟩
  have hscript := script_of_sizeOk hok
  have hput : receivedMarks self.validator.maxSizeBytes upload.chunks ++
      [.put upload.chunks.flatten] <+: script self.validator.maxSizeBytes upload.chunks := by
    rw [hscript]
    exact List.prefix_append _ _
  refine etriple_bind (triple_within (triple_next (fun _ => rfl) hput lasting_true)
    fun _ _ _ h => .inl h.2) fun _ => ?_
  have hall : receivedMarks self.validator.maxSizeBytes upload.chunks ++
      [.put upload.chunks.flatten] ++ [.inserted (fun _ => upload.chunks.flatten.length)
        fun _ => Sha256.hexdigest upload.chunks.flatten] <+:
      script self.validator.maxSizeBytes upload.chunks := by
    rw [hscript]
  refine triple_within (etriple_conseq (triple_recordUpload self caseId evidenceId _ _ _ createdBy
    (fun _ => rfl) hall) (fun _ _ h => h) (fun r t _ h => ?_) fun _ _ _ h => h)
    fun _ _ _ h => .inl h
  refine ⟨?_, h.2⟩
  rw [h.1]
  simp [receivedMarks]

/-! ### The handlers -/

/-- A program that makes no call of the script makes none wherever it is in the script. -/
lemma etriple_forget {α : Type} {p : M α}
    (h : ∀ m, ETriple anything (keeping (Follows s)) () (At m G) p (fun _ => At m G)
      fun _ => At m fun t => G t ∧ Raised t) :
    ETriple anything (keeping (Follows s)) () G p (fun _ => G) fun _ t => G t ∧ Raised t := by
  have hm : ∀ m, ETriple anything (keeping (Follows s)) () (At m G) p (fun _ => G)
      fun _ t => G t ∧ Raised t :=
    fun m => etriple_conseq (h m) (fun _ _ h => h) (fun _ _ _ h => h.2) fun _ _ _ h => h.2
  exact triple_conseq (triple_exists hm) (fun t _ hG => ⟨marks t, rfl, hG⟩) fun _ _ _ h => h

lemma triple_quiet (ho : ∀ r, mark ⟨o, r⟩ = none) (hG : Lasting G) :
    ETriple anything (keeping (Follows s)) () G (call o) (fun _ => G)
      (fun _ t => G t ∧ Raised t) :=
  etriple_forget fun _ => triple_other ho hG

lemma triple_compensate (hG : Lasting G) (objectKey : Option String) (stored : Bool) :
    ETriple anything (keeping (Follows s)) () G (compensateStorage objectKey stored)
      (fun _ => G) (fun _ t => G t ∧ Raised t) := by
  exact triple_compensateStorage_of (fun _ _ _ h => h)
    (fun _ _ _ => triple_quiet (fun _ => rfl) hG) (fun _ _ _ _ h => h.1) fun _ _ _ _ h => h

lemma triple_recordFailure (hG : Lasting G) (self : EvidenceService) (caseId evidenceId : Uuid)
    (actorId : Option String) (reason : String) :
    ETriple anything (keeping (Follows s)) () G
      (recordFailure self caseId evidenceId actorId reason) (fun _ => G)
      (fun _ t => G t ∧ Raised t) := by
  refine triple_recordFailure_of (K := fun _ => G) (F := fun _ t => G t ∧ Raised t)
    (etriple_forget fun _ => triple_append hG self.auditService _)
    (fun _ => triple_quiet (fun _ => rfl) hG) (fun e _ => ?_) fun _ _ _ _ h => h
  exact etriple_conseq (triple_quiet (fun _ => rfl) hG) (fun _ _ h => h.1)
    (fun _ _ _ h => h) fun _ _ _ h => h

/-- How an upload ends that has opened its file: some call has raised, or the size was accepted,
or the size check has raised; and the row it returns was inserted. -/
def Settled (v : FileValidator) (n : ℕ) (r : Except Exn Evidence) (t : Exchange Op Answer) :
    Prop :=
  (Raised t ∨ .hashed ∈ marks t ∨ ∃ x, r = .error x ∧ Rejected v n x) ∧
    ∀ row, r = .ok row → Inserted row t

lemma lasting_inserted (r : Evidence) : Lasting (Inserted r) :=
  fun t e ⟨row, h⟩ => ⟨row, lasting_mem _ t e h⟩

lemma lasting_settled (r : Except Exn Evidence) : Lasting (Settled v n r) := by
  rintro t e ⟨h, hrow⟩
  refine ⟨?_, fun row hr => lasting_inserted row t e (hrow row hr)⟩
  rcases h with h | h | h
  · exact .inl (lasting_raised t e h)
  · exact .inr (.inl (lasting_hashed t e h))
  · exact .inr (.inr h)

lemma settled_of_raised {x : Exn} {t : Exchange Op Answer} (h : Raised t) :
    Settled v n (.error x) t := ⟨.inl h, fun _ hr => by cases hr⟩

lemma settled_of_fails {x : Exn} {t : Exchange Op Answer} (h : Fails v n x t) :
    Settled v n (.error x) t := by
  refine ⟨?_, fun _ hr => by cases hr⟩
  rcases h with h | h | h
  · exact .inl h
  · exact .inr (.inl h)
  · exact .inr (.inr ⟨x, rfl, h⟩)

/-- The handlers keep what has failed, or raise by a call of their own. -/
lemma triple_handleUpload (self : EvidenceService) (caseId evidenceId : Uuid)
    (createdBy : Option String) (outcome : Except (Exn × Locals) Evidence) :
    ETriple anything (keeping (Follows s)) ()
      (orElse (fun r t => .hashed ∈ marks t ∧ Inserted r t) (fun x => Fails v n x.1) outcome)
      (handleUpload self caseId evidenceId createdBy outcome) (fun r => Settled v n (.ok r))
      (fun x => Settled v n (.error x)) := by
  refine triple_handleUpload_of (fun _ t _ h => ?_) ?_ (fun _ _ t _ _ h => settled_of_fails h)
    outcome
  · exact ⟨.inr (.inl h.1), fun row hr => Except.ok.inj hr ▸ h.2⟩
  intro x l reason y _ hself hdup
  -- the exception raised in the end is as good as the one handled
  have hfinal : ∀ t, Fails v n x t → Settled v n (.error y) t := by
    intro t h
    by_cases hx : x = .integrity
    · refine ⟨?_, fun _ hr => by cases hr⟩
      rcases h with h | h | ⟨e, -, he⟩
      · exact .inl h
      · exact .inr (.inl h)
      · rw [hx] at he
        cases he
    · rw [hself hx]
      exact settled_of_fails h
  refine etriple_bind (etriple_error (triple_quiet (fun _ => rfl) (lasting_fails x))
    fun _ _ _ h => settled_of_raised h.2) fun _ => ?_
  refine etriple_bind (etriple_error (triple_compensate (lasting_fails x) l.objectKey l.stored)
    fun _ _ _ h => settled_of_raised h.2) fun _ => ?_
  refine etriple_bind (etriple_error (triple_recordFailure (lasting_fails x) self caseId
    evidenceId createdBy reason) fun _ _ _ h => settled_of_raised h.2) fun _ => ?_
  exact etriple_throw fun t _ h => hfinal t h

lemma triple_cleanUpload (tempPath : Bool) (r : Except Exn Evidence) :
    ETriple anything (keeping (Follows s)) () (Settled v n r) (cleanUpload tempPath)
      (fun _ => Settled v n r) (fun x => Settled v n (.error x)) := by
  have hcall : ∀ c, (∀ a, mark ⟨.localCall c, a⟩ = none) →
      ETriple anything (keeping (Follows s)) () (Settled v n r) (call (.localCall c))
        (fun _ => Settled v n r) (fun x => Settled v n (.error x)) :=
    fun c hc => etriple_error (triple_quiet hc (lasting_settled r))
      fun _ _ _ h => settled_of_raised h.2
  exact triple_cleanUpload_of (hcall .closeUpload fun _ => rfl) (hcall .unlinkTemp fun _ => rfl)
    tempPath

/-- How an upload ends: before it opens its file in any way, afterwards settled. -/
def Post (v : FileValidator) (n : ℕ) (r : Except Exn Evidence) (t : Exchange Op Answer) : Prop :=
  marks t = [] ∧ (∃ x, r = .error x) ∨ Settled v n r t

lemma triple_uploadEvidence (self : EvidenceService) (caseId : Uuid) (upload : UploadFile)
    (sourceType : EvidenceSourceType) (createdBy : Option String)
    (parentEvidenceId : Option Uuid) :
    Triple anything (keeping (Follows (script self.validator.maxSizeBytes upload.chunks))) ()
      (At [] fun _ => True)
      (self.uploadEvidence caseId upload sourceType createdBy parentEvidenceId).run
      (Post self.validator upload.chunks.flatten.length) := by
  set limit := self.validator.maxSizeBytes
  set n := upload.chunks.flatten.length
  have hearly : ∀ {o : Op}, (∀ r, mark ⟨o, r⟩ = none) →
      ETriple anything (keeping (Follows (script limit upload.chunks))) () (At [] fun _ => True)
        (call o) (fun _ => At [] fun _ => True) (fun _ t => marks t = []) :=
    fun ho => etriple_error (triple_other ho lasting_true) fun _ _ _ h => h.1
  suffices h : ETriple anything (keeping (Follows (script limit upload.chunks))) ()
      (At [] fun _ => True)
      (self.uploadEvidence caseId upload sourceType createdBy parentEvidenceId)
      (fun r => Settled self.validator n (.ok r))
      (fun x t => marks t = [] ∨ Settled self.validator n (.error x) t) by
    refine triple_conseq h (fun _ _ h => h) fun r t _ h => ?_
    cases r with
    | ok r => exact .inr h
    | error x => exact h.imp (fun h => ⟨h, x, rfl⟩) id
  refine etriple_bind (Q := fun _ => At [] fun _ => True) ?_ fun _ => ?_
  · refine etriple_bind (etriple_error (hearly fun _ => rfl) fun _ _ _ h => .inl h) fun r => ?_
    cases r with
    | none => exact etriple_throw fun _ _ h => .inl h.1
    | some c => exact etriple_pure fun _ _ h => h
  refine etriple_bind (Q := fun _ => At [] fun _ => True) ?_ fun p => ?_
  · cases self.validator.validateMetadata upload.filename upload.contentType with
    | ok p => exact etriple_pure fun _ _ h => h
    | error e => exact etriple_throw fun _ _ h => .inl h.1
  refine etriple_bind (etriple_error (hearly fun _ => rfl) fun _ _ _ h => .inl h) fun E => ?_
  refine etriple_bind (etriple_error (triple_append lasting_true self.auditService _)
    fun _ _ _ h => .inl h.1) fun _ => ?_
  refine etriple_bind (etriple_error (hearly fun _ => rfl) fun _ _ _ h => .inl h) fun _ => ?_
  refine etriple_bind (etriple_lift (triple_storeUpload self caseId E upload sourceType createdBy
    parentEvidenceId p.1 p.2)) fun outcome => ?_
  refine triple_conseq (triple_withFinally (Q := Settled self.validator n) ?_ fun r => ?_)
    (fun _ _ h => h) fun r t _ h => ?_
  · refine triple_conseq (triple_handleUpload self caseId E createdBy outcome) (fun _ _ h => h)
      fun r t _ h => ?_
    cases r <;> exact h
  · exact triple_cleanUpload _ r
  · cases r with
    | ok r => exact h
    | error x => exact .inr h

/-- Every play of an upload follows the script, and ends accordingly. -/
theorem upload_follows {self : EvidenceService} {caseId : Uuid} {upload : UploadFile}
    {sourceType : EvidenceSourceType} {createdBy : Option String}
    {parentEvidenceId : Option Uuid} {t : Exchange Op Answer}
    {q : Prog Op Answer (Except Exn Evidence)}
    (h : Play (self.uploadEvidence caseId upload sourceType createdBy parentEvidenceId).run t q) :
    marks t <+: script self.validator.maxSizeBytes upload.chunks ∧
      ∀ r, q = .ret r → Post self.validator upload.chunks.flatten.length r t :=
  plays_post (triple_uploadEvidence self caseId upload sourceType createdBy parentEvidenceId) h
    List.nil_prefix ⟨rfl, trivial⟩

end Plays

/-! ### What holds of the bytes -/

/-- What the calls of an upload say about its bytes: the temporary file stays within the limit,
no piece is read after the one that crosses it, only a size within the bounds is let through,
and what is stored and recorded is the upload, whatever the pieces it was read and hashed in. -/
structure Faithful (limit : ℕ) (chunks : List (List UInt8)) (t : Exchange Op Answer) : Prop where
  bounded : (written (marks t)).length ≤ limit
  stops : ∀ n, reads (marks t) = n + 1 → (chunks.take n).flatten.length ≤ limit
  passed : .hashed ∈ marks t → SizeOk limit chunks.flatten
  stored : ∀ objectKey data contentType r, ⟨.putObject objectKey data contentType, r⟩ ∈ t →
    data = chunks.flatten ∧ written (marks t) = chunks.flatten
  recorded : ∀ row r, ⟨.createEvidence row, r⟩ ∈ t → ∀ now,
    (row now).fileSize = chunks.flatten.length ∧
      (row now).sha256 = Sha256.hexdigest chunks.flatten

lemma mem_marks {t : Exchange Op Answer} {e : Σ o : Op, Answer o} {k : Mark} (he : e ∈ t)
    (hk : mark e = some k) : k ∈ marks t := List.mem_filterMap.mpr ⟨e, he, hk⟩

lemma faithful_of_script {limit : ℕ} {chunks : List (List UInt8)} {t : Exchange Op Answer}
    (h : marks t <+: script limit chunks) : Faithful limit chunks t where
  bounded := script_written h
  stops := fun _ hn => script_reads h hn
  passed := fun hk => (script_stored h hk (by simp) (by simp) (by simp)).1
  stored := by
    intro objectKey data contentType r he
    have hk : .put data ∈ marks t := mem_marks he rfl
    obtain ⟨-, hmem, hw⟩ := script_stored h hk (by simp) (by simp) (by simp)
    exact ⟨by simpa [storeScript] using hmem, hw⟩
  recorded := by
    intro row r he now
    have hk : .inserted (fun now => (row now).fileSize) (fun now => (row now).sha256) ∈ marks t :=
      mem_marks he rfl
    obtain ⟨-, hmem, -⟩ := script_stored h hk (by simp) (by simp) (by simp)
    have hfields : (fun now => (row now).fileSize) = (fun _ => chunks.flatten.length) ∧
        (fun now => (row now).sha256) = fun _ => Sha256.hexdigest chunks.flatten := by
      simpa [storeScript] using hmem
    exact ⟨congrFun hfields.1 now, congrFun hfields.2 now⟩

lemma Post.inserted {v : FileValidator} {n : ℕ} {row : Evidence} {t : Exchange Op Answer}
    (h : Post v n (.ok row) t) : Inserted row t := by
  rcases h with ⟨-, x, hx⟩ | h
  · cases hx
  · exact h.2 row rfl

section Example

def someCase : Case := ⟨1, "CASE-2026-000001", "case", none, .created, none, noon, noon⟩

/-- The case is there, the content is new, and no call raises. -/
def obliging : (o : Op) → Answer o
  | .getCase _ => .ok (some someCase)
  | .nextSequenceValue => .ok 1
  | .createCase row => .ok (row noon)
  | .flushCase _ _ => .ok ()
  | .refreshCase _ => .ok someCase
  | .lockCaseChain _ => .ok ()
  | .latest _ => .ok none
  | .appendEvent event => .ok event
  | .getEvidence _ _ => .ok none
  | .getByHash _ _ => .ok none
  | .createEvidence row => .ok (row noon)
  | .deleteEvidence _ => .ok ()
  | .commit => .ok ()
  | .rollback => .ok ()
  | .close => .ok ()
  | .putObject _ _ _ => .ok ()
  | .deleteObject _ => .ok ()
  | .uuid4 => .ok 2
  | .now => .ok noon
  | .localCall _ => .ok ()

end Example

/-- The database gives a row back as it was inserted. -/
lemma answered_row {ι : Type} [DecidableEq ι] [Fintype ι] {hashtext : String → ℤ} {i : ι}
    {policy : World ι → ι → Op → Choice → Prop} {α : Type}
    {σ₀ σ : Conf ι (World ι) Op Answer α} {f : Datetime → Evidence} {r : Evidence}
    (h : Answered (machine hashtext) policy σ₀ σ i ⟨.createEvidence f, .ok r⟩) :
    ∃ now, r = f now := by
  obtain ⟨ρ, -, c, v, hp⟩ := h
  have hp : perform hashtext (.createEvidence f) i c ρ.world = some (.ok r, v) := hp
  obtain ⟨hx, -⟩ | ⟨x, -, hr, -⟩ | ⟨x, -, -, hr, -⟩ := perform_cases hashtext hp
  · simp only [exec, execCreateEvidence] at hx
    split_ifs at hx
    · cases hx
    · exact ⟨c.now, (Except.ok.inj (Prod.mk.inj (Option.some.inj hx)).1).symm⟩
  · cases hr
  · cases hr

/-- Among any other sessions, the row an upload returns has the length and the hash of the
bytes. -/
theorem returned_row {ι : Type} [DecidableEq ι] [Fintype ι] {hashtext : String → ℤ}
    {policy : World ι → ι → Op → Choice → Prop}
    {σ₀ σ : Conf ι (World ι) Op Answer (Except Exn Evidence)} {i : ι} {self : EvidenceService}
    {caseId : Uuid} {upload : UploadFile} {sourceType : EvidenceSourceType}
    {createdBy : Option String} {parentEvidenceId : Option Uuid} {row : Evidence}
    (h : Reach (machine hashtext) policy σ₀ σ)
    (h₀ : σ₀.prog i =
      (self.uploadEvidence caseId upload sourceType createdBy parentEvidenceId).run)
    (hi : σ.prog i = .ret (.ok row)) :
    row.fileSize = upload.chunks.flatten.length ∧
      row.sha256 = Sha256.hexdigest upload.chunks.flatten := by
  obtain ⟨t, ht, hanswered⟩ := plays_of_reach h i
  rw [h₀] at ht
  obtain ⟨hscript, hpost⟩ := upload_follows ht
  obtain ⟨f, hf⟩ := (hpost _ hi).inserted
  obtain ⟨now, rfl⟩ := answered_row (hanswered _ hf)
  exact (faithful_of_script hscript).recorded f _ hf now

end WhaleMas.Intake
