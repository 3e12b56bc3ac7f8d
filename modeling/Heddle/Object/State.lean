import Heddle.Oplog.Entry
import Heddle.Lib.SelfDelimiting

namespace Heddle
open Heddle.Lib Heddle.Oplog

inductive Status where
  | draft
  | published
  deriving DecidableEq

def Status.toByte : Status → UInt8
  | .draft => 0
  | .published => 1

theorem Status.toByte_injective : Function.Injective toByte := by
  intro a b h
  cases a <;> cases b <;> first | rfl | exact absurd h (by decide)

inductive ChangeLineageKind where
  | cherryPick
  | collapse
  | revert
  | gitProjection
  deriving DecidableEq

def ChangeLineageKind.toByte : ChangeLineageKind → UInt8
  | .cherryPick => 1
  | .collapse => 2
  | .revert => 3
  | .gitProjection => 4

theorem ChangeLineageKind.toByte_injective : Function.Injective toByte := by
  intro a b h
  cases a <;> cases b <;> first | rfl | exact absurd h (by decide)

@[ext] structure ChangeLineage where
  kind : ChangeLineageKind
  sourceChange : ChangeId
  sourceState : StateId
  deriving DecidableEq

/-- The bits of a 32-bit float. -/
abbrev F32 := UInt32

/-- `custom` is in the order of its keys; `J` is a JSON value. -/
@[ext] structure Verification (J : Type) where
  testsPassed : Option Bool := none
  testsFailed : Option UInt32 := none
  coveragePct : Option F32 := none
  coverageDelta : Option F32 := none
  lintWarnings : Option UInt32 := none
  custom : List (String × J) := []
  deriving DecidableEq

/-- A state. `stateId` is derived from the other fields. -/
@[ext] structure State (J : Type) where
  stateId : StateId
  changeId : ChangeId
  tree : ContentHash
  parents : List StateId
  attribution : Attribution
  intent : Option String := none
  confidence : Option F32 := none
  createdAt : Timestamp
  verification : Option (Verification J) := none
  status : Status := .draft
  provenance : Option ContentHash := none
  authoredAt : Option Timestamp := none
  committer : Option Principal := none
  authoredTzOffset : Int32 := 0
  committerTzOffset : Int32 := 0
  rawMessage : Option Bytes := none
  gitLossy : Bool := false
  extraHeaders : List (Bytes × Bytes) := []
  lineage : List ChangeLineage := []
  deriving DecidableEq

section Writers

def writeOptional (bytes : α → Bytes) (value : Option α) : Bytes :=
  value.elim [0] fun v => 1 :: bytes v

def terminatedBytes (bytes : Bytes) : Bytes := bytes ++ [0]

def terminatedString (s : String) : Bytes := terminatedBytes (utf8 s)

def prefixedBytes (bytes : Bytes) : Bytes := leBytes 4 bytes.length ++ bytes

def writeOptionalU8 : Option UInt8 → Bytes := writeOptional fun v => [v]

def writeOptionalU32 : Option UInt32 → Bytes := writeOptional fun v => leBytes 4 v.toNat

def writeOptionalF32 : Option F32 → Bytes := writeOptional fun v => leBytes 4 v.toNat

def writeOptionalString : Option String → Bytes := writeOptional terminatedString

def writeOptionalBytes : Option Bytes → Bytes := writeOptional prefixedBytes

/-- The whole seconds; the part of a second is not written. -/
def timestampBytes (t : Timestamp) : Bytes := leBytes 8 (i64ToNat t.secs)

def i32Bytes (v : Int32) : Bytes := leBytes 4 v.toUInt32.toNat

end Writers

section Hash
-- `serde_json::to_vec` of a value.
variable (jsonBytes : J → Bytes)

namespace Verification

def customEntry (entry : String × J) : Bytes :=
  prefixedBytes (utf8 entry.1) ++ prefixedBytes (jsonBytes entry.2)

def hashLen (v : Verification J) : Nat :=
  (1 + (v.testsPassed.map fun _ => 1).getD 0) + (1 + (v.testsFailed.map fun _ => 4).getD 0) +
  (1 + (v.coveragePct.map fun _ => 4).getD 0) + (1 + (v.coverageDelta.map fun _ => 4).getD 0) +
  (1 + (v.lintWarnings.map fun _ => 4).getD 0) + 4 +
  (v.custom.map fun entry =>
    (4 + (utf8 entry.1).length) + (4 + (jsonBytes entry.2).length)).sum

def updateHasher (v : Verification J) : Bytes :=
  writeOptionalU8 (v.testsPassed.map fun passed => if passed then 1 else 0) ++
  writeOptionalU32 v.testsFailed ++ writeOptionalF32 v.coveragePct ++
  writeOptionalF32 v.coverageDelta ++ writeOptionalU32 v.lintWarnings ++
  leBytes 4 v.custom.length ++ v.custom.flatMap (customEntry jsonBytes)

end Verification

namespace State

def optionalStringLen (value : Option String) : Nat :=
  1 + (value.map fun s => (utf8 s).length + 1).getD 0

def agentHashLen (agent : Agent) (includeCursorFields : Bool) : Nat :=
  ((utf8 agent.provider).length + 1) + ((utf8 agent.model).length + 1) +
  optionalStringLen agent.sessionId + optionalStringLen agent.segmentId +
  optionalStringLen agent.policyId +
  if includeCursorFields then optionalStringLen agent.thoughtLevel + optionalStringLen agent.parent
  else 0

def hashLenCoreVersioned (s : State J) (includeCursorFields : Bool) : Nat :=
  16 + 32 + 4 + s.parents.length * 32 +
  (s.attribution.principal.name.length + 1) + (s.attribution.principal.email.length + 1) +
  (1 + (s.attribution.agent.map fun agent => agentHashLen agent includeCursorFields).getD 0) +
  optionalStringLen s.intent + (1 + (s.confidence.map fun _ => 4).getD 0) + 8 +
  (1 + (s.verification.map fun v => v.hashLen jsonBytes).getD 0) +
  (1 + (s.provenance.map fun _ => 32).getD 0) + 1

def hashLenFidelity (s : State J) : Nat :=
  (1 + (s.committer.map fun p => (p.name.length + 1) + (p.email.length + 1)).getD 0) + 4 + 4 +
  (1 + (s.authoredAt.map fun _ => 8).getD 0) +
  (1 + (s.rawMessage.map fun message => 4 + message.length).getD 0) + 4 +
  (s.extraHeaders.map fun header => (4 + header.1.length) + (4 + header.2.length)).sum +
  (4 + s.lineage.length * 49)

/-- `includeCursorFields` picks the current form or the one from before the cursor fields. -/
def hashLen (s : State J) (includeCursorFields : Bool) : Nat :=
  s.hashLenCoreVersioned jsonBytes includeCursorFields + s.hashLenFidelity

def principalBytes (p : Principal) : Bytes := terminatedBytes p.name ++ terminatedBytes p.email

def cursorBytes (agent : Agent) : Bytes :=
  writeOptionalString agent.thoughtLevel ++ writeOptionalString agent.parent

def agentBytes (includeCursorFields : Bool) (agent : Agent) : Bytes :=
  terminatedString agent.provider ++ terminatedString agent.model ++
  writeOptionalString agent.sessionId ++ writeOptionalString agent.segmentId ++
  writeOptionalString agent.policyId ++ if includeCursorFields then cursorBytes agent else []

def updateHashCoreVersioned (s : State J) (includeCursorFields : Bool) : Bytes :=
  s.changeId.bytes.toList ++ s.tree.asBytes ++
  leBytes 4 s.parents.length ++ s.parents.flatMap (fun parent => parent.bytes.toList) ++
  principalBytes s.attribution.principal ++
  writeOptional (agentBytes includeCursorFields) s.attribution.agent ++
  writeOptionalString s.intent ++ writeOptionalF32 s.confidence ++ timestampBytes s.createdAt ++
  writeOptional (fun v => v.updateHasher jsonBytes) s.verification ++
  writeOptional ContentHash.asBytes s.provenance ++ [s.status.toByte]

def headerBytes (header : Bytes × Bytes) : Bytes :=
  prefixedBytes header.1 ++ prefixedBytes header.2

def lineageBytes (lineage : ChangeLineage) : Bytes :=
  lineage.kind.toByte :: (lineage.sourceChange.bytes.toList ++ lineage.sourceState.bytes.toList)

def updateHashFidelity (s : State J) : Bytes :=
  writeOptional principalBytes s.committer ++
  i32Bytes s.authoredTzOffset ++ i32Bytes s.committerTzOffset ++
  writeOptional timestampBytes s.authoredAt ++ writeOptionalBytes s.rawMessage ++
  leBytes 4 s.extraHeaders.length ++ s.extraHeaders.flatMap headerBytes ++
  leBytes 4 s.lineage.length ++ s.lineage.flatMap lineageBytes

def updateHash (s : State J) (includeCursorFields : Bool) : Bytes :=
  s.updateHashCoreVersioned jsonBytes includeCursorFields ++ s.updateHashFidelity

variable (blake3 : Bytes → ContentHash)

def computeHash (s : State J) (includeCursorFields : Bool) : ContentHash :=
  computeTypedWithLen blake3 "state" (s.hashLen jsonBytes includeCursorFields)
    (s.updateHash jsonBytes includeCursorFields)

def id (s : State J) : StateId := ⟨(s.computeHash jsonBytes blake3 true).bytes⟩

def preCursorId (s : State J) : StateId := ⟨(s.computeHash jsonBytes blake3 false).bytes⟩

def unpublishedCursor (s : State J) : Bool :=
  s.attribution.agent.all fun agent => agent.thoughtLevel.isNone && agent.parent.isNone

/-- The current id, or the id from before the cursor fields of a state that publishes none. -/
def acceptsStoredId (s : State J) (stored : StateId) : Bool :=
  s.id jsonBytes blake3 = stored ||
    (s.unpublishedCursor && s.preCursorId jsonBytes blake3 = stored)

def preimage (s : State J) (includeCursorFields : Bool) : Bytes :=
  utf8 "state" ++ leBytes 8 (s.hashLen jsonBytes includeCursorFields) ++ [0] ++
    s.updateHash jsonBytes includeCursorFields

theorem computeHash_eq (s : State J) (includeCursorFields : Bool) :
    s.computeHash jsonBytes blake3 includeCursorFields =
      blake3 (s.preimage jsonBytes includeCursorFields) := rfl

/-- A stored id is the digest of one of the two preimages, of the earlier one only without cursor
fields. -/
theorem acceptsStoredId_iff (s : State J) (stored : StateId) :
    s.acceptsStoredId jsonBytes blake3 stored = true ↔ ∃ v : Bool,
      (v = false → s.unpublishedCursor = true) ∧
        stored = ⟨(blake3 (s.preimage jsonBytes v)).bytes⟩ := by
  rw [acceptsStoredId, Bool.or_eq_true, Bool.and_eq_true, decide_eq_true_eq, decide_eq_true_eq,
    id, preCursorId, computeHash_eq, computeHash_eq]
  constructor
  · rintro (rfl | ⟨hnone, rfl⟩)
    · exact ⟨true, nofun, rfl⟩
    · exact ⟨false, fun _ => hnone, rfl⟩
  · rintro ⟨v, hnone, rfl⟩
    cases v with
    | true => exact .inl rfl
    | false => exact .inr ⟨hnone rfl, rfl⟩

end State

end Hash

end Heddle
