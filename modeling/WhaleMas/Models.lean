import WhaleMas.JsonText
import WhaleMas.Sha256

/-!
The rows of the database: cases, evidence and audit events, with their identifiers, times
and enumerations; and the errors of the domain.
-/

namespace WhaleMas.Models

open WhaleMas.JsonText

/-! ### Identifiers and times -/

/-- A UUID, ordered as the database orders it. -/
abbrev Uuid := Fin (2 ^ 128)

/-- The literals of identifiers rest on this instance. -/
instance Uuid.neZero : NeZero (2 ^ 128) := ⟨by decide⟩

/-- The thirty-two digits of an identifier, the most significant first. -/
def Uuid.hex (u : Uuid) : List Char :=
  (List.range 32).reverse.map fun i => Sha256.hexDigits.getD (u.val / 16 ^ i % 16) '0'

/-- `str(uuid)`: the digits in groups of 8, 4, 4, 4 and 12. -/
def Uuid.str (u : Uuid) : String :=
  let h := u.hex
  String.ofList (h.take 8 ++ '-' :: ((h.drop 8).take 4 ++ '-' :: ((h.drop 12).take 4 ++
    '-' :: ((h.drop 16).take 4 ++ '-' :: h.drop 20))))

def isLeap (year : ℕ) : Bool := year % 4 = 0 && (year % 100 ≠ 0 || year % 400 = 0)

def monthDays (year month : ℕ) : ℕ :=
  if month = 2 then (if isLeap year then 29 else 28)
  else if month = 4 ∨ month = 6 ∨ month = 9 ∨ month = 11 then 30 else 31

/-- A point in time in UTC, to the microsecond. -/
structure Datetime where
  year : ℕ
  month : ℕ
  day : ℕ
  hour : ℕ
  minute : ℕ
  second : ℕ
  microsecond : ℕ
  valid : 1 ≤ year ∧ year ≤ 9999 ∧ 1 ≤ month ∧ month ≤ 12 ∧ 1 ≤ day ∧ day ≤ monthDays year month ∧
    hour < 24 ∧ minute < 60 ∧ second < 60 ∧ microsecond < 1000000

/-- A number that grows with the time. -/
def Datetime.rank (t : Datetime) : ℕ :=
  (((((t.year * 13 + t.month) * 32 + t.day) * 24 + t.hour) * 60 + t.minute) * 60 + t.second) *
    1000000 + t.microsecond

lemma monthDays_le (year month : ℕ) : monthDays year month ≤ 31 := by
  unfold monthDays
  split_ifs <;> omega

lemma Datetime.rank_injective : Function.Injective Datetime.rank := by
  rintro ⟨y, m, d, h, mi, s, us, hv⟩ ⟨y', m', d', h', mi', s', us', hv'⟩ he
  have hd := monthDays_le y m
  have hd' := monthDays_le y' m'
  simp only [Datetime.rank] at he
  simp only [Datetime.mk.injEq]
  omega

/-- An optional text that is left out is short enough for its column. -/
lemma none_short : ∀ s ∈ (none : Option String), s.length ≤ 128 := by simp

/-- The time at which the examples happen. -/
def noon : Datetime := ⟨2026, 8, 18, 12, 0, 0, 0, by decide⟩

instance : LinearOrder Datetime := LinearOrder.lift' Datetime.rank Datetime.rank_injective

/-- A number in decimal, zero-padded to `w` digits. -/
def zpad (w n : ℕ) : List Char :=
  let ds := Nat.toDigits 10 n
  List.replicate (w - ds.length) '0' ++ ds

/-- `datetime.isoformat()`: the microseconds are left out when they are zero. -/
def Datetime.isoformat (t : Datetime) : String :=
  String.ofList (zpad 4 t.year ++ '-' :: (zpad 2 t.month ++ '-' :: (zpad 2 t.day ++ 'T' ::
    (zpad 2 t.hour ++ ':' :: (zpad 2 t.minute ++ ':' :: (zpad 2 t.second ++
      ((if t.microsecond = 0 then [] else '.' :: zpad 6 t.microsecond) ++
        ['+', '0', '0', ':', '0', '0'])))))))

/-! ### Enumerations -/

inductive CaseStatus
  | created | uploading | ready | running | waitingRiskReview | waitingReportReview
  | completed | failed | archived
  deriving DecidableEq

inductive EvidenceSourceType
  | email | bank | customs | other
  deriving DecidableEq

def EvidenceSourceType.value : EvidenceSourceType → String
  | .email => "EMAIL"
  | .bank => "BANK"
  | .customs => "CUSTOMS"
  | .other => "OTHER"

inductive DocumentType
  | unknown | email | pdf | excel | csv | word | image | text
  deriving DecidableEq

inductive AuditEventType
  | caseCreated | caseUpdated | evidenceUploadStarted | evidenceHashed | evidenceStored
  | evidenceCreated | evidenceUploadFailed | evidenceDeleted | auditChainVerified
  deriving DecidableEq

def AuditEventType.value : AuditEventType → String
  | .caseCreated => "CASE_CREATED"
  | .caseUpdated => "CASE_UPDATED"
  | .evidenceUploadStarted => "EVIDENCE_UPLOAD_STARTED"
  | .evidenceHashed => "EVIDENCE_HASHED"
  | .evidenceStored => "EVIDENCE_STORED"
  | .evidenceCreated => "EVIDENCE_CREATED"
  | .evidenceUploadFailed => "EVIDENCE_UPLOAD_FAILED"
  | .evidenceDeleted => "EVIDENCE_DELETED"
  | .auditChainVerified => "AUDIT_CHAIN_VERIFIED"

/-! ### Rows -/

structure Case where
  id : Uuid
  caseNo : String
  name : String
  description : Option String
  status : CaseStatus
  createdBy : Option String
  createdAt : Datetime
  updatedAt : Datetime

structure Evidence where
  id : Uuid
  caseId : Uuid
  originalFilename : String
  storedFilename : String
  objectKey : String
  mimeType : String
  fileExtension : String
  fileSize : ℕ
  sha256 : String
  sourceType : EvidenceSourceType
  documentType : DocumentType
  parentEvidenceId : Option Uuid
  metadataJson : Dict
  createdBy : Option String
  createdAt : Datetime

structure AuditEvent where
  id : Uuid
  caseId : Option Uuid
  eventType : AuditEventType
  actorId : Option String
  resourceType : String
  resourceId : Option String
  operation : String
  inputHash : Option String
  outputHash : Option String
  metadataJson : Dict
  previousHash : Option String
  eventHash : String
  createdAt : Datetime

/-! ### Errors -/

structure DomainError where
  /-- The name of its class. -/
  typeName : String
  code : String
  message : String
  statusCode : ℕ
  deriving DecidableEq

def notFoundError (code message : String) : DomainError :=
  ⟨"NotFoundError", code, message, 404⟩

def conflictError (code message : String) : DomainError :=
  ⟨"ConflictError", code, message, 409⟩

def evidenceValidationError (code message : String) : DomainError :=
  ⟨"EvidenceValidationError", code, message, 422⟩

def storageError (message : String) : DomainError :=
  ⟨"StorageError", "STORAGE_ERROR", message, 503⟩

/-! ### Identifiers are known by their text -/

lemma eq_of_hex_digits {a b : ℕ} (n : ℕ) (h : ∀ i < n, a / 16 ^ i % 16 = b / 16 ^ i % 16) :
    a % 16 ^ n = b % 16 ^ n := by
  induction n with
  | zero => simp [Nat.mod_one]
  | succ n ih =>
    rw [Nat.mod_pow_succ, Nat.mod_pow_succ, ih fun i hi => h i (by omega), h n (by omega)]

lemma hexDigits_getD_inj : ∀ a < 16, ∀ b < 16,
    Sha256.hexDigits.getD a '0' = Sha256.hexDigits.getD b '0' → a = b := by
  decide

lemma Uuid.hex_injective : Function.Injective Uuid.hex := by
  intro u v h
  have hdig : ∀ i < 32, u.val / 16 ^ i % 16 = v.val / 16 ^ i % 16 := by
    intro i hi
    have hmem : i ∈ (List.range 32).reverse := by simpa using hi
    exact hexDigits_getD_inj _ (Nat.mod_lt _ (by omega)) _ (Nat.mod_lt _ (by omega))
      (List.map_inj_left.mp h i hmem)
  have hmod := eq_of_hex_digits 32 hdig
  have hp : 16 ^ 32 = 2 ^ 128 := by norm_num
  rw [hp, Nat.mod_eq_of_lt u.isLt, Nat.mod_eq_of_lt v.isLt] at hmod
  exact Fin.ext hmod

@[simp] lemma Uuid.hex_length (u : Uuid) : u.hex.length = 32 := by simp [Uuid.hex]

@[simp] lemma Uuid.str_length (u : Uuid) : u.str.toList.length = 36 := by
  simp [Uuid.str]

/-- The digits of an identifier, read off its text. -/
def ungroup (l : List Char) : List Char :=
  l.take 8 ++ ((l.drop 9).take 4 ++ ((l.drop 14).take 4 ++ ((l.drop 19).take 4 ++ l.drop 24)))

lemma Uuid.str_injective : Function.Injective Uuid.str := by
  intro u v h
  have key : ∀ w : Uuid, ungroup w.str.toList = w.hex := by
    intro w
    have hlen : w.hex.length = 32 := w.hex_length
    match hw : w.hex, hlen with
    | [c0, c1, c2, c3, c4, c5, c6, c7, c8, c9, c10, c11, c12, c13, c14, c15, c16, c17, c18, c19,
        c20, c21, c22, c23, c24, c25, c26, c27, c28, c29, c30, c31], _ =>
      simp [Uuid.str, hw, ungroup]
  exact Uuid.hex_injective (by rw [← key u, ← key v, h])

end WhaleMas.Models
