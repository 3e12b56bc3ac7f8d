import Heddle.Timeline.View
import Heddle.Lib.CallPool

namespace Heddle.Timeline
open Heddle.Lib

inductive JournalKind where
  | pending | committed
  deriving DecidableEq

/-- The journal of the operation index: whole records, then how many bytes of a cut-off one. -/
structure OperationIndexJournal where
  records : List (JournalKind × TimelineOperationId)
  torn : Nat

def OperationIndexJournal.empty : OperationIndexJournal := ⟨[], 0⟩

def timelineViewCheckpointSchemaVersion : Nat := 1

structure TimelineViewCheckpoint where
  schemaVersion : Nat
  processedOperationIds : List TimelineOperationId
  lastReplayKey : Option TimelineOperationReplayKey
  view : TimelineView

/-- The intent of installing a pack, and whether its index is still among the staged files. -/
structure PackInstall where
  installId : String
  packName : String
  indexStaged : Bool

/-- The files of a timeline store. A MessagePack sidecar stands for what it decodes to, and a pack
for the operations in it. -/
structure TimelineDisk where
  ops : Table TimelineOperationId Bytes
  packs : Table String (List (TimelineOperationId × Bytes))
  packIndexes : List String
  packInstalls : List PackInstall
  operationIndex : Option (List TimelineOperationId)
  journal : Option OperationIndexJournal
  viewCheckpoint : Option TimelineViewCheckpoint

namespace TimelineDisk

def empty : TimelineDisk := ⟨.empty, .empty, [], [], none, none, none⟩

section Packs
variable (blake3 : Bytes → ContentHash)

def packedOperations (disk : TimelineDisk) : List (TimelineOperationId × Bytes) :=
  ((sortBy Prod.fst disk.packs.entries).filter fun pack => pack.1 ∈ disk.packIndexes).flatMap Prod.snd

def readPackedOperation (disk : TimelineDisk) (id : TimelineOperationId) : Option Bytes := do
  let entry ← disk.packedOperations.find? (·.1 = id)
  if TimelineOperationId.forBytes blake3 entry.2 = id then some entry.2 else none

def readOperationBytes (disk : TimelineDisk) (id : TimelineOperationId) : Option Bytes :=
  (disk.ops.lookup id).or (disk.readPackedOperation blake3 id)

def canonicalOperationIds (disk : TimelineDisk) : List TimelineOperationId :=
  (sortBy id (disk.ops.entries.map Prod.fst ++ disk.packedOperations.map Prod.fst)).destutter (· ≠ ·)

end Packs

end TimelineDisk

section Journal

def settle (pending : List TimelineOperationId) (id : TimelineOperationId) :
    List TimelineOperationId :=
  (pending.reverse.erase id).reverse

def resolveOperationIndexJournalRecords (records : List (JournalKind × TimelineOperationId)) :
    List TimelineOperationId × List TimelineOperationId :=
  records.foldl (fun (committed, pending) (kind, id) =>
    match kind with
    | .pending => (committed, pending ++ [id])
    | .committed => (committed ++ [id], settle pending id)) ([], [])

/-- `none` when the journal ends in a partial record. -/
def readOperationIndexJournal (journal : Option OperationIndexJournal) :
    Option (List TimelineOperationId) :=
  match journal with
  | none => some []
  | some journal =>
    if journal.torn = 0 then some (resolveOperationIndexJournalRecords journal.records).1 else none

def retainFirst (ids : List TimelineOperationId) : List TimelineOperationId := mergeUnique [] ids

/-- The outer `none` is a failure, the inner one an index that is not there. -/
def readOperationIndex (disk : TimelineDisk) : Option (Option (List TimelineOperationId)) := do
  let journaled ← readOperationIndexJournal disk.journal
  let ids := retainFirst (disk.operationIndex.getD [] ++ journaled)
  if ids.isEmpty ∧ disk.operationIndex.isNone ∧ disk.journal.isNone then some none
  else some (some ids)

open Script

def repairOperationIndexJournalTail : Script TimelineDisk := choose fun disk =>
  match disk.journal with
  | none => step fun disk => { disk with journal := some .empty }
  | some journal =>
    if journal.torn = 0 then skip
    else step fun disk => { disk with journal := some { journal with torn := 0 } }

/-- The kind is written first, then the id. -/
def appendOperationIndexJournalRecord (kind : JournalKind) (id : TimelineOperationId) :
    Script TimelineDisk := choose fun disk =>
  let journal := disk.journal.getD .empty
  andThen (step fun disk => { disk with journal := some { journal with torn := journal.torn + 1 } })
    (step fun disk =>
      { disk with journal := some { journal with records := journal.records ++ [(kind, id)] } })

def writeOperationIndexJournal (ids : List TimelineOperationId) : Script TimelineDisk :=
  step fun disk => { disk with journal := some ⟨ids.map (.committed, ·), 0⟩ }

def clearOperationIndexJournal : Script TimelineDisk :=
  step fun disk => { disk with journal := some .empty }

end Journal

section Sections
open Script
variable (blake3 : Bytes → ContentHash) (msgpack : TimelineMsgpack)

/-- Commits the pending records whose operation is there and drops the others. -/
def resolvePendingRecords : Script TimelineDisk := choose fun disk =>
  match disk.journal with
  | none => skip
  | some journal =>
    let resolved := resolveOperationIndexJournalRecords journal.records
    if resolved.2.isEmpty then skip
    else writeOperationIndexJournal (resolved.1 ++
      resolved.2.filter fun id => (disk.readOperationBytes blake3 id).isSome)

def recoverOperationIndexJournal : Script TimelineDisk := choose fun disk =>
  if disk.journal.isNone then skip
  else repairOperationIndexJournalTail.andThen (resolvePendingRecords blake3)

def createOperationIndexJournal : Script TimelineDisk := choose fun disk =>
  if disk.journal.isNone then clearOperationIndexJournal else skip

def publishOperation (id : TimelineOperationId) (bytes : Bytes) : Script TimelineDisk :=
  choose fun disk =>
    if (disk.ops.lookup id).isSome then skip
    else step fun disk => { disk with ops := disk.ops.insert id bytes }

def writeOperation (id : TimelineOperationId) (bytes : Bytes) : Script TimelineDisk :=
  ((((recoverOperationIndexJournal blake3).andThen createOperationIndexJournal).andThen
    repairOperationIndexJournalTail).andThen (appendOperationIndexJournalRecord .pending id)).andThen
    ((publishOperation id bytes).andThen (appendOperationIndexJournalRecord .committed id))

def writeOperationBytes (bytes : Bytes) : Script TimelineDisk :=
  match TimelineOperationEnvelope.decode msgpack bytes with
  | none => skip
  | some _ => writeOperation blake3 (TimelineOperationId.forBytes blake3 bytes) bytes

/-- The ids given first, then those the index and its journal list besides. -/
def checkpointOperationIds (disk : TimelineDisk) (operationIds : List TimelineOperationId) :
    List TimelineOperationId :=
  let currentIds := ((readOperationIndex disk).bind id).getD []
  operationIds ++ mergeUnique [] (currentIds.filter (· ∉ operationIds))

/-- Folds the journal into the index. -/
def writeOperationIndex (operationIds : List TimelineOperationId) : Script TimelineDisk :=
  (repairOperationIndexJournalTail.andThen (step fun disk =>
    { disk with operationIndex := some (checkpointOperationIds disk operationIds) })).andThen
    clearOperationIndexJournal

def writeViewCheckpoint (checkpoint : TimelineViewCheckpoint) : Script TimelineDisk :=
  step fun disk => { disk with viewCheckpoint := some checkpoint }

end Sections

end Heddle.Timeline
