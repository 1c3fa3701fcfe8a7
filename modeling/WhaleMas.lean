import WhaleMas.AuditVerify
import WhaleMas.ConcurrentResume
import WhaleMas.AuditOrder
import WhaleMas.Services
import WhaleMas.ConcurrentAppend
import WhaleMas.EvidenceLife
import WhaleMas.SessionRules
import WhaleMas.SessionRequests
import WhaleMas.UploadStates
import WhaleMas.SessionUploads
import WhaleMas.SessionRuns
import WhaleMas.EvidenceLedger
import WhaleMas.UploadCompensation
import WhaleMas.ConcurrentUploads
import WhaleMas.ConcurrentDelete
import WhaleMas.EvidenceRounds
import WhaleMas.OlderCheckpoints
import WhaleMas.EvidenceForest
import WhaleMas.Alone
import WhaleMas.SoloCalls
import WhaleMas.UploadOutcomes
import WhaleMas.FailedDeletes
import WhaleMas.CaseUpdates
import WhaleMas.ForgedEvents
import WhaleMas.EventStream
import WhaleMas.OffsetPaging
import WhaleMas.CasePaging
import WhaleMas.Plays
import WhaleMas.Intake
import WhaleMas.FileValidation
import WhaleMas.ObjectKeys
import WhaleMas.SentExtension
import WhaleMas.Columns
import WhaleMas.CasePatches
import WhaleMas.DuplicateRules
import WhaleMas.DuplicateReports
import WhaleMas.SafeNames
import WhaleMas.CaseNumbers
import WhaleMas.Progress
import WhaleMas.Deadlock
import WhaleMas.Api
import WhaleMas.ApiRuns
import WhaleMas.AuditReports
import WhaleMas.Contract
import WhaleMas.EvidenceKeeping
import WhaleMas.KeepingRequests
import WhaleMas.KeptRuns
