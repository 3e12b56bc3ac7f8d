import Heddle.Timeline.Packs
import Heddle.Timeline.Rebuild
import Heddle.Lib.CallPool

namespace Heddle.Timeline
open Heddle.Lib

/-- What the calls on a store do to its files while they hold its lock. -/
inductive TimelineChange
  | recoverPackInstallIntents (expired : PackInstall → Bool)
  | recoverOperationIndexJournal
  | writeOperation (id : TimelineOperationId) (bytes : Bytes)
  | writeOperationIndex (operationIds : List TimelineOperationId)
  | writeViewCheckpoint (checkpoint : TimelineViewCheckpoint)
  | packOperations (aggressive : Bool) (installId : String)
  | pruneLooseOperations
  | pruneUnpairedPacks

inductive TimelineResult
  | opened
  | wrote (id : TimelineOperationId)
  | refused
  | rebuilt (view : Option TimelineView)
  | maintained

abbrev HandleCall := Call TimelineChange TimelineDisk TimelineResult

abbrev HandlePool := Pool TimelineChange TimelineDisk TimelineResult

section Calls
variable (blake3 : Bytes → ContentHash) (msgpack : TimelineMsgpack) (packName : PackNaming)

def exec : TimelineChange → Script TimelineDisk
  | .recoverPackInstallIntents expired => Timeline.recoverPackInstallIntents expired
  | .recoverOperationIndexJournal => Timeline.recoverOperationIndexJournal blake3
  | .writeOperation opId bytes => Timeline.writeOperation blake3 opId bytes
  | .writeOperationIndex operationIds => Timeline.writeOperationIndex operationIds
  | .writeViewCheckpoint checkpoint => Timeline.writeViewCheckpoint checkpoint
  | .packOperations aggressive installId =>
    Timeline.packOperations blake3 msgpack packName aggressive installId
  | .pruneLooseOperations => Timeline.pruneLooseOperations blake3
  | .pruneUnpairedPacks => Timeline.pruneUnpairedPacks

def openCall (expired : PackInstall → Bool) : HandleCall :=
  .act (.recoverPackInstallIntents expired) (.act .recoverOperationIndexJournal (.done .opened))

def writeCall (bytes : Bytes) : HandleCall :=
  match TimelineOperationEnvelope.decode msgpack bytes with
  | none => .done .refused
  | some _ =>
    .act (.writeOperation (TimelineOperationId.forBytes blake3 bytes) bytes)
      (.done (.wrote (TimelineOperationId.forBytes blake3 bytes)))

/-! A rebuild takes the lock anew for every file it reads or writes. -/

def idsCall (next : List TimelineOperationId → HandleCall) : HandleCall := .look fun disk =>
  match readOperationIndex disk with
  | some (some ids) => next ids
  | _ => .look fun disk =>
    .act (.writeOperationIndex disk.canonicalOperationIds) (next disk.canonicalOperationIds)

def recordsCall (next : List TimelineOperationRecord → HandleCall) :
    List TimelineOperationId → List TimelineOperationRecord → HandleCall
  | [], records => next records
  | opId :: ids, records => .look fun disk =>
    match readTimelineOperationRecord blake3 msgpack disk opId with
    | none => .done (.rebuilt none)
    | some record => recordsCall next ids (records ++ [record])

def derivedCheckpointCall (processed : List TimelineOperationId) (view : TimelineView) : HandleCall :=
  .act (.writeOperationIndex processed) (.look fun disk =>
    match lastReplayKeyOf blake3 msgpack disk view with
    | none => .done (.rebuilt none)
    | some lastReplayKey =>
      .act (.writeViewCheckpoint
          ⟨timelineViewCheckpointSchemaVersion, processed, lastReplayKey, view⟩)
        (.done (.rebuilt (some view))))

def fromScratchCall (ids : List TimelineOperationId) : HandleCall :=
  recordsCall blake3 msgpack (fun records =>
    derivedCheckpointCall blake3 msgpack ids
      (TimelineView.empty.replay (sortOperationRecords records))) ids []

def fromCheckpointCall (ids : List TimelineOperationId) (checkpoint : TimelineViewCheckpoint) :
    HandleCall :=
  let newIds := ids.drop checkpoint.processedOperationIds.length
  if newIds.isEmpty then .done (.rebuilt (some checkpoint.view))
  else recordsCall blake3 msgpack (fun records =>
    let newRecords := sortOperationRecords records
    if incrementalReplayIsOrdered checkpoint.lastReplayKey newRecords then
      let view := checkpoint.view.replay newRecords
      if timelineDerivedCheckpointBatchSize ≤ newIds.length then
        derivedCheckpointCall blake3 msgpack ids view
      else .done (.rebuilt (some view))
    else fromScratchCall blake3 msgpack ids) newIds []

def rebuildCall : HandleCall := idsCall fun ids => .look fun disk =>
  match readTimelineViewCheckpoint disk with
  | none => fromScratchCall blake3 msgpack ids
  | some checkpoint =>
    if checkpointProcessedPrefixMatches checkpoint.processedOperationIds ids then
      fromCheckpointCall blake3 msgpack ids checkpoint
    else fromScratchCall blake3 msgpack ids

inductive IsHandleCall : HandleCall → Prop
  | open (expired : PackInstall → Bool) : IsHandleCall (openCall expired)
  | write (bytes : Bytes) : IsHandleCall (writeCall blake3 msgpack bytes)
  | rebuild : IsHandleCall (rebuildCall blake3 msgpack)
  | pack (aggressive : Bool) (installId : String) :
      IsHandleCall (.act (.packOperations aggressive installId) (.done .maintained))
  | pruneLoose : IsHandleCall (.act .pruneLooseOperations (.done .maintained))
  | pruneUnpaired : IsHandleCall (.act .pruneUnpairedPacks (.done .maintained))

end Calls

end Heddle.Timeline
