import WhaleMas.Models
import WhaleMas.HashChain

/-!
The audit log of a case: what is hashed, how an event is appended and how a log is
verified.

Every event is hashed after its predecessor's hash over the canonical JSON text of its
content. The first character of that text is a brace and a hash is hexadecimal, so the
hashed material falls apart again in one way only; hence the last hash of an accepted log
binds the whole log.
-/

namespace WhaleMas.AuditLog

open WhaleMas.JsonText WhaleMas.Models WhaleMas.HashChain

/-! ### What is hashed -/

def canonicalJson (content : Dict) : String := String.ofList (canonical content.toJson)

/-- The text that is hashed: the predecessor's hash, if any, and the content. -/
def material (previousHash : Option String) (content : Dict) : String :=
  previousHash.getD "" ++ canonicalJson content

/-- SHA-256 of the UTF-8 bytes of a text. -/
def sha256Text (s : String) : String := Sha256.hexdigest s.toByteArray.data.toList

def calculateEventHash (previousHash : Option String) (content : Dict) : String :=
  sha256Text (material previousHash content)

def optStr : Option String → Json
  | none => .null
  | some s => .str s

def eventContent (event : AuditEvent) : Dict where
  members := [
    ("id", .str event.id.str),
    ("case_id", optStr (event.caseId.map Uuid.str)),
    ("event_type", .str event.eventType.value),
    ("actor_id", optStr event.actorId),
    ("resource_type", .str event.resourceType),
    ("resource_id", optStr event.resourceId),
    ("operation", .str event.operation),
    ("input_hash", optStr event.inputHash),
    ("output_hash", optStr event.outputHash),
    ("metadata_json", event.metadataJson.toJson),
    ("created_at", .str event.createdAt.isoformat)]
  wf := by
    have h : ∀ o, WF (optStr o) := fun o => by cases o <;> trivial
    refine ⟨by simp, ?_⟩
    simp only [WFMembers, h, WF, and_true, true_and]
    exact event.metadataJson.wf

/-! ### Appending -/

/-- The arguments of `AuditService.append`. -/
structure AppendArgs where
  caseId : Uuid
  eventType : AuditEventType
  resourceType : String
  operation : String
  resourceId : Option String
  actorId : Option String
  inputHash : Option String
  outputHash : Option String
  metadata : Option Dict

/-- The event `append` makes after `previous`, with a fresh identifier and the current
time. -/
def newEvent (previous : Option AuditEvent) (a : AppendArgs) (id : Uuid) (now : Datetime) :
    AuditEvent :=
  let event : AuditEvent := {
    id := id
    caseId := some a.caseId
    eventType := a.eventType
    actorId := a.actorId
    resourceType := a.resourceType
    resourceId := a.resourceId
    operation := a.operation
    inputHash := a.inputHash
    outputHash := a.outputHash
    metadataJson := a.metadata.getD Dict.empty
    previousHash := previous.map AuditEvent.eventHash
    eventHash := ""
    createdAt := now }
  { event with eventHash := calculateEventHash event.previousHash (eventContent event) }

/-- The order of the repository's queries: by time, then by identifier. -/
def key (e : AuditEvent) : Datetime ×ₗ Uuid := toLex (e.createdAt, e.id)

def ofCase (caseId : Uuid) (table : List AuditEvent) : List AuditEvent :=
  table.filter fun e => e.caseId = some caseId

/-- `AuditRepository.latest`: the first event by descending time and identifier. -/
def latest (caseId : Uuid) (table : List AuditEvent) : Option AuditEvent :=
  (ofCase caseId table).argmax key

/-- `AuditRepository.list`: the events of a case by ascending time and identifier. -/
def list (caseId : Uuid) (table : List AuditEvent) : List AuditEvent :=
  sortByKey key (ofCase caseId table)

/-- `AuditService.append` run alone on a table. -/
def append (chainEnabled : Bool) (a : AppendArgs) (id : Uuid) (now : Datetime)
    (table : List AuditEvent) : List AuditEvent :=
  let previous := if chainEnabled then latest a.caseId table else none
  table ++ [newEvent previous a id now]

/-! ### Verifying -/

structure AuditVerifyResponse where
  valid : Bool
  eventCount : ℕ
  brokenEventId : Option Uuid
  deriving DecidableEq

/-- The loop of `AuditService.verify` over the events still to check. -/
def verifyLoop (count : ℕ) : Option String → List AuditEvent → AuditVerifyResponse
  | _, [] => ⟨true, count, none⟩
  | previousHash, event :: events =>
    let expected := calculateEventHash previousHash (eventContent event)
    if event.previousHash ≠ previousHash ∨ event.eventHash ≠ expected then
      ⟨false, count, some event.id⟩
    else verifyLoop count (some event.eventHash) events

/-- `AuditService.verify` on the events in the order they are listed. -/
def verify (events : List AuditEvent) : AuditVerifyResponse :=
  verifyLoop events.length none events

/-- The audit log as a chain of events bound by hashes. -/
def chain : Scheme AuditEvent String where
  prev := AuditEvent.previousHash
  hash := AuditEvent.eventHash
  stamp := fun p e => calculateEventHash p (eventContent e)

lemma verifyLoop_valid (n : ℕ) (p : Option String) (l : List AuditEvent) :
    (verifyLoop n p l).valid = true ↔ Linked chain p l := by
  induction l generalizing p with
  | nil => simp [verifyLoop, Linked]
  | cons e l ih =>
    unfold verifyLoop
    simp only [Linked, Fits, chain]
    split_ifs with h
    · simp only [false_iff]
      rintro ⟨⟨h1, h2⟩, -⟩
      exact h.elim (fun h => h h1) (fun h => h h2)
    · push Not at h
      rw [ih]
      simp [h, chain]

lemma verifyLoop_eventCount (n : ℕ) (p : Option String) (l : List AuditEvent) :
    (verifyLoop n p l).eventCount = n := by
  induction l generalizing p with
  | nil => rfl
  | cons e l ih =>
    simp only [verifyLoop]
    split_ifs
    · rfl
    · exact ih _

/-- The loop accepts exactly the linked logs. -/
lemma verify_valid (l : List AuditEvent) : (verify l).valid = true ↔ Linked chain none l :=
  verifyLoop_valid _ _ l

/-- Every answer counts the events it was given. -/
lemma verify_eventCount (l : List AuditEvent) : (verify l).eventCount = l.length :=
  verifyLoop_eventCount _ _ l

/-! ### The hashed material falls apart in one way -/

/-- The materials hashed for the events of a log. -/
def materials (l : List AuditEvent) : Set String :=
  {s | ∃ e ∈ l, s = material e.previousHash (eventContent e)}

/-- No hash, or the text of a digest. -/
def IsPrevious (p : Option String) : Prop := ∀ s, p = some s → Sha256.IsHexdigest s

lemma calculateEventHash_isHexdigest (p : Option String) (c : Dict) :
    Sha256.IsHexdigest (calculateEventHash p c) :=
  Sha256.hexdigest_isHexdigest _

lemma linked_isPrevious {p : Option String} {l : List AuditEvent} (hp : IsPrevious p)
    (h : Linked chain p l) : ∀ e ∈ l, IsPrevious e.previousHash := by
  induction l generalizing p with
  | nil => simp
  | cons e l ih =>
    obtain ⟨⟨hprev, hhash⟩, hl⟩ := h
    have he : IsPrevious (some (chain.hash e)) := by
      rintro s hs
      rw [← Option.some.inj hs, hhash]
      exact calculateEventHash_isHexdigest _ _
    intro x hx
    rcases List.mem_cons.mp hx with rfl | hx
    · exact (show x.previousHash = p from hprev) ▸ hp
    · exact ih he hl x hx

lemma canonicalJson_head (c : Dict) : ∃ t, (canonicalJson c).toList = '{' :: t := by
  obtain ⟨t, ht⟩ := canonical_obj_head c.members
  exact ⟨t, by rw [canonicalJson, String.toList_ofList]; exact ht⟩

lemma canonicalJson_inj {c d : Dict} : canonicalJson c = canonicalJson d ↔
    Same c.toJson d.toJson := by
  rw [← canonical_eq_iff c.wf_toJson d.wf_toJson, canonicalJson, canonicalJson, ← String.toList_inj,
    String.toList_ofList, String.toList_ofList]

/-- No hash, or a text of hexadecimal digits. -/
def IsHex (p : Option String) : Prop :=
  ∀ s, p = some s → s ≠ "" ∧ ∀ c ∈ s.toList, c ∈ Sha256.hexDigits

lemma IsPrevious.isHex {p : Option String} (h : IsPrevious p) : IsHex p := by
  intro s hs
  obtain ⟨hlen, hmem⟩ := h s hs
  refine ⟨?_, hmem⟩
  rintro rfl
  exact absurd hlen (by decide)

/-- The hash put before the text is what stands before its first brace. -/
lemma material_takeWhile {p : Option String} (hp : IsHex p) (c : Dict) :
    (material p c).toList.takeWhile (· ≠ '{') = (p.getD "").toList := by
  obtain ⟨t, ht⟩ := canonicalJson_head c
  rw [material, String.toList_append, ht, List.takeWhile_append_of_pos]
  · simp
  · intro a ha
    cases p with
    | none => simp at ha
    | some s =>
      have hmem : a ∈ Sha256.hexDigits := (hp s rfl).2 a ha
      have hbrace : '{' ∉ Sha256.hexDigits := by decide
      exact decide_eq_true fun h => hbrace (h ▸ hmem)

lemma material_hex_inj {p q : Option String} {c d : Dict} (hp : IsHex p) (hq : IsHex q)
    (h : material p c = material q d) : p = q ∧ Same c.toJson d.toJson := by
  have hpq : p.getD "" = q.getD "" := by
    rw [← String.toList_inj, ← material_takeWhile hp c, h, material_takeWhile hq d]
  have hcd : canonicalJson c = canonicalJson d := by
    have hl := congrArg String.toList h
    rw [material, material, String.toList_append, String.toList_append, hpq] at hl
    exact String.toList_inj.mp (List.append_cancel_left hl)
  refine ⟨?_, canonicalJson_inj.mp hcd⟩
  cases p with
  | none =>
    cases q with
    | none => rfl
    | some t => exact absurd hpq.symm (hq t rfl).1
  | some s =>
    cases q with
    | none => exact absurd hpq (hp s rfl).1
    | some t => exact congrArg some hpq

/-- The material tells the predecessor's hash from the content. -/
lemma material_inj {p q : Option String} {c d : Dict} (hp : IsPrevious p) (hq : IsPrevious q)
    (h : material p c = material q d) : p = q ∧ Same c.toJson d.toJson :=
  material_hex_inj hp.isHex hq.isHex h

/-- Two events with equal contents as JSON values. -/
def SameContent (e f : AuditEvent) : Prop :=
  Same (eventContent e).toJson (eventContent f).toJson

lemma binds_of_injOn {l m : List AuditEvent} (hl : Linked chain none l)
    (hm : Linked chain none m) (hinj : Set.InjOn sha256Text (materials l ∪ materials m)) :
    Binds chain SameContent l m := by
  intro e he f hf h
  have hnone : IsPrevious none := fun s hs => by cases hs
  have hmat : material e.previousHash (eventContent e) =
      material f.previousHash (eventContent f) :=
    hinj (Or.inl ⟨e, he, rfl⟩) (Or.inr ⟨f, hf, rfl⟩) h
  exact material_inj (linked_isPrevious hnone hl e he) (linked_isPrevious hnone hm f hf) hmat

end WhaleMas.AuditLog
