import Heddle.Timeline.Store

namespace Heddle.Timeline
open Heddle.Lib

section Definitions
variable (blake3 : Bytes → ContentHash) (msgpack : TimelineMsgpack)

def readTimelineOperationRecord (disk : TimelineDisk) (id : TimelineOperationId) :
    Option TimelineOperationRecord := do
  let bytes ← disk.readOperationBytes blake3 id
  if TimelineOperationId.forBytes blake3 bytes ≠ id then none
  let envelope ← TimelineOperationEnvelope.decode msgpack bytes
  some ⟨id, envelope⟩

def readTimelineOperationRecordsById (disk : TimelineDisk) (ids : List TimelineOperationId) :
    Option (List TimelineOperationRecord) :=
  ids.mapM (readTimelineOperationRecord blake3 msgpack disk)

def readTimelineOperationIds (disk : TimelineDisk) : List TimelineOperationId × TimelineDisk :=
  match readOperationIndex disk with
  | some (some ids) => (ids, disk)
  | _ =>
    let ids := disk.canonicalOperationIds
    (ids, (writeOperationIndex ids).final disk)

def rebuildTimelineViewFromIds (disk : TimelineDisk) (ids : List TimelineOperationId) :
    Option TimelineView :=
  (readTimelineOperationRecordsById blake3 msgpack disk ids).map fun records =>
    TimelineView.empty.replay (sortOperationRecords records)

def incrementalReplayIsOrdered (lastReplayKey : Option TimelineOperationReplayKey)
    (newRecords : List TimelineOperationRecord) : Bool :=
  match lastReplayKey with
  | none => true
  | some lastReplayKey => newRecords.head?.all fun record => lastReplayKey ≤ operationReplayKey record

def checkpointProcessedPrefixMatches (checkpointIds operationIds : List TimelineOperationId) : Bool :=
  checkpointIds.length ≤ operationIds.length &&
    (checkpointIds.zip operationIds).all fun pair => pair.1 = pair.2

def readTimelineViewCheckpoint (disk : TimelineDisk) : Option TimelineViewCheckpoint :=
  disk.viewCheckpoint.filter (·.schemaVersion = timelineViewCheckpointSchemaVersion)

/-- The replay key of the last operation of a view; the outer `none` is a failure to decode it. -/
def lastReplayKeyOf (disk : TimelineDisk) (view : TimelineView) :
    Option (Option TimelineOperationReplayKey) :=
  match view.operationIds.getLast? with
  | none => some none
  | some lastId =>
    match disk.readOperationBytes blake3 lastId with
    | none => some none
    | some bytes =>
      (TimelineOperationEnvelope.decode msgpack bytes).map fun envelope =>
        some (operationReplayKey ⟨lastId, envelope⟩)

def writeTimelineViewCheckpoint (disk : TimelineDisk) (processed : List TimelineOperationId)
    (view : TimelineView) : Option TimelineDisk :=
  (lastReplayKeyOf blake3 msgpack disk view).map fun lastReplayKey =>
    (writeViewCheckpoint ⟨timelineViewCheckpointSchemaVersion, processed, lastReplayKey, view⟩).final
      disk

def writeTimelineDerivedCheckpoint (disk : TimelineDisk) (processed : List TimelineOperationId)
    (view : TimelineView) : Option TimelineDisk :=
  writeTimelineViewCheckpoint blake3 msgpack ((writeOperationIndex processed).final disk) processed
    view

def timelineDerivedCheckpointBatchSize : Nat := 64

def rebuildFromScratch (disk : TimelineDisk) (ids : List TimelineOperationId) :
    Option (TimelineView × TimelineDisk) := do
  let view ← rebuildTimelineViewFromIds blake3 msgpack disk ids
  let disk ← writeTimelineDerivedCheckpoint blake3 msgpack disk ids view
  some (view, disk)

/-- Goes on from a checkpoint with the operations that came after it. -/
def rebuildFromCheckpoint (disk : TimelineDisk) (ids : List TimelineOperationId)
    (checkpoint : TimelineViewCheckpoint) : Option (TimelineView × TimelineDisk) :=
  let newIds := ids.drop checkpoint.processedOperationIds.length
  if newIds.isEmpty then some (checkpoint.view, disk)
  else do
    let records ← readTimelineOperationRecordsById blake3 msgpack disk newIds
    let newRecords := sortOperationRecords records
    if incrementalReplayIsOrdered checkpoint.lastReplayKey newRecords then
      let view := checkpoint.view.replay newRecords
      if timelineDerivedCheckpointBatchSize ≤ newIds.length then do
        let disk ← writeTimelineDerivedCheckpoint blake3 msgpack disk ids view
        some (view, disk)
      else some (view, disk)
    else rebuildFromScratch blake3 msgpack disk ids

def rebuild (disk : TimelineDisk) : Option (TimelineView × TimelineDisk) :=
  let (ids, disk) := readTimelineOperationIds disk
  match readTimelineViewCheckpoint disk with
  | none => rebuildFromScratch blake3 msgpack disk ids
  | some checkpoint =>
    if checkpointProcessedPrefixMatches checkpoint.processedOperationIds ids then
      rebuildFromCheckpoint blake3 msgpack disk ids checkpoint
    else rebuildFromScratch blake3 msgpack disk ids

end Definitions

end Heddle.Timeline
