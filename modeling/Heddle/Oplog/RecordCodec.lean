import Heddle.Object.Frame
import Heddle.Oplog.Record
import Heddle.Lib.MsgPack

namespace Heddle.Oplog
open Heddle Heddle.Lib

section Newtypes

/-- A one-field struct is written as its field. -/
def deNewtype [Serde β] (wrap : β → α) (v : Value) : Except String α := (de v).map wrap

theorem deNewtype_ser [Serde β] [LawfulSerde β] (wrap : β → α) (b : β) :
    deNewtype wrap (ser b) = .ok (wrap b) := by
  rw [deNewtype, LawfulSerde.de_ser]
  rfl

instance : Serde StateId := ⟨fun id => ser id.bytes, deNewtype StateId.mk⟩
instance : LawfulSerde StateId := ⟨fun id => deNewtype_ser StateId.mk id.bytes⟩
instance : PresentSerde StateId := ⟨fun _ h => nomatch h⟩

instance : Serde ChangeId := ⟨fun id => ser id.bytes, deNewtype ChangeId.mk⟩
instance : LawfulSerde ChangeId := ⟨fun id => deNewtype_ser ChangeId.mk id.bytes⟩

instance : Serde ContentHash := ⟨fun hash => ser hash.bytes, deNewtype ContentHash.mk⟩
instance : LawfulSerde ContentHash := ⟨fun hash => deNewtype_ser ContentHash.mk hash.bytes⟩

end Newtypes

section Enums

instance : Serde VisibilityTier where
  ser
    | .publicTier => .str "Public"
    | .internal => .str "Internal"
    | .teamScoped teamId => .variant "TeamScoped" (.seq [ser teamId])
    | .restricted scopeLabel => .variant "Restricted" (.seq [ser scopeLabel])
    | .privateTier scopeLabel => .variant "Private" (.seq [ser scopeLabel])
  de
    | .str "Public" => .ok .publicTier
    | .str "Internal" => .ok .internal
    | .variant "TeamScoped" body => readFields (do return .teamScoped (← nextField)) body
    | .variant "Restricted" body => readFields (do return .restricted (← nextField)) body
    | .variant "Private" body => readFields (do return .privateTier (← nextField)) body
    | _ => .error "unknown variant"

instance : LawfulSerde VisibilityTier where
  de_ser tier := by cases tier <;> rfl

instance : Serde ConflictResolutionMode where
  ser
    | .ours => .str "ours"
    | .theirs => .str "theirs"
    | .edit => .str "edit"
    | .auto => .str "auto"
  de
    | .str "ours" => .ok .ours
    | .str "theirs" => .ok .theirs
    | .str "edit" => .ok .edit
    | .str "auto" => .ok .auto
    | _ => .error "unknown variant"

instance : LawfulSerde ConflictResolutionMode where
  de_ser mode := by cases mode <;> rfl

instance : Serde RecordedHead where
  ser
    | .attached thread => .variant "Attached" (.seq [ser thread])
    | .detached state => .variant "Detached" (.seq [ser state])
  de
    | .variant "Attached" body => readFields (do return .attached (← nextField)) body
    | .variant "Detached" body => readFields (do return .detached (← nextField)) body
    | _ => .error "unknown variant"

instance : LawfulSerde RecordedHead where
  de_ser
    | .attached _ => rfl
    | .detached state => by
      change readFields _ (.seq [ser state]) = _
      rw [readFields_seq, nextField_bind]
      rfl

end Enums

section Structs

def serBytes (bytes : Bytes) : Value := .bin bytes

def nextBytes : SeqAccess Bytes
  | .bin bytes :: vs => .ok (bytes, vs)
  | .str s :: vs => .ok (utf8 s, vs)
  | .seq items :: vs => (items.mapM (de : Value → Except String UInt8)).map (·, vs)
  | [] => .error "invalid length"
  | _ => invalidType

instance : Serde Principal where
  ser principal := .seq [serBytes principal.name, serBytes principal.email]
  de := readFields do
    let name ← nextBytes
    let email ← nextBytes
    return { name := name, email := email }

instance : LawfulSerde Principal := ⟨fun _ => rfl⟩

/-- The last two fields are left out when they are absent. -/
instance : Serde Agent where
  ser agent := .seq ([ser agent.provider, ser agent.model, ser agent.sessionId,
    ser agent.segmentId, ser agent.policyId] ++
    skipField agent.thoughtLevel.isNone (ser agent.thoughtLevel) ++
    skipField agent.parent.isNone (ser agent.parent))
  de := readFields do
    let provider ← nextField
    let model ← nextField
    let sessionId ← nextField
    let segmentId ← nextField
    let policyId ← nextField
    let thoughtLevel ← nextFieldOr none
    let parent ← nextFieldOr none
    return {
      provider := provider
      model := model
      sessionId := sessionId
      segmentId := segmentId
      policyId := policyId
      thoughtLevel := thoughtLevel
      parent := parent }

instance : PresentSerde Agent := ⟨fun _ h => nomatch h⟩

instance : Serde Attribution where
  ser attribution := .seq [ser attribution.principal, ser attribution.agent]
  de := readFields do
    let principal ← nextField
    let agent ← nextField
    return { principal := principal, agent := agent }

/-- The record sets and the flag are left out when they are empty or false. -/
instance : Serde ThreadUpdateSnapshots where
  ser snapshots := .seq ([ser snapshots.old, ser snapshots.new] ++
    skipField snapshots.oldRecords.isEmpty (ser snapshots.oldRecords) ++
    skipField snapshots.newRecords.isEmpty (ser snapshots.newRecords) ++
    skipField (!snapshots.oldRefAbsent) (ser snapshots.oldRefAbsent))
  de := readFields do
    let old ← nextField
    let new ← nextField
    let oldRecords ← nextFieldOr []
    let newRecords ← nextFieldOr []
    let oldRefAbsent ← nextFieldOr false
    return {
      old := old
      new := new
      oldRecords := oldRecords
      newRecords := newRecords
      oldRefAbsent := oldRefAbsent }

instance : PresentSerde ThreadUpdateSnapshots := ⟨fun _ h => nomatch h⟩

end Structs

section Skipped

/-- An agent that names a parent names a thought level. -/
def Agent.FieldsInOrder (agent : Agent) : Prop := agent.thoughtLevel = none → agent.parent = none

/-- Behind a field that is left out, every field is left out. -/
def ThreadUpdateSnapshots.FieldsInOrder (snapshots : ThreadUpdateSnapshots) : Prop :=
  (snapshots.oldRecords = [] → snapshots.newRecords = []) ∧
    (snapshots.newRecords = [] → snapshots.oldRefAbsent = false)

theorem Agent.de_ser_iff (agent : Agent) : de (ser agent) = .ok agent ↔ agent.FieldsInOrder := by
  obtain ⟨provider, model, sessionId, segmentId, policyId, thoughtLevel, parent⟩ := agent
  change readFields _ (.seq (_ :: _ :: _ :: _ :: _ :: (_ ++ _))) = _ ↔ _
  rw [readFields_seq, nextField_bind, nextField_bind, nextField_bind, nextField_bind,
    nextField_bind]
  cases thoughtLevel with
  | none =>
    cases parent with
    | none => exact ⟨fun _ _ => rfl, fun _ => rfl⟩
    | some parent =>
      exact ⟨fun h => (nomatch h), fun h => (nomatch h rfl)⟩
  | some thoughtLevel =>
    cases parent with
    | none => exact ⟨fun _ _ => rfl, fun _ => rfl⟩
    | some parent => exact ⟨fun _ h => (nomatch h), fun _ => rfl⟩

theorem ThreadUpdateSnapshots.de_ser_iff (snapshots : ThreadUpdateSnapshots) :
    de (ser snapshots) = .ok snapshots ↔ snapshots.FieldsInOrder := by
  obtain ⟨old, new, oldRecords, newRecords, oldRefAbsent⟩ := snapshots
  change readFields _ (.seq (_ :: _ :: (_ ++ _ ++ _))) = _ ↔ _
  rw [readFields_seq, nextField_bind, nextField_bind]
  cases oldRecords with
  | nil =>
    cases newRecords with
    | nil =>
      cases oldRefAbsent with
      | false => exact ⟨fun _ => ⟨fun _ => rfl, fun _ => rfl⟩, fun _ => rfl⟩
      | true =>
        exact ⟨fun h => (nomatch h), fun h => (nomatch h.2 rfl)⟩
    | cons record records =>
      change ((nextFieldOr [] >>= _) (ser (record :: records) :: skipField _ _) >>= _) = _ ↔ _
      rw [nextFieldOr_bind]
      cases oldRefAbsent with
      | false => exact ⟨fun h => (nomatch h), fun h => (nomatch h.1 rfl)⟩
      | true => exact ⟨fun h => (nomatch h), fun h => (nomatch h.1 rfl)⟩
  | cons record records =>
    change ((nextFieldOr [] >>= _) (ser (record :: records) :: (skipField _ _ ++ skipField _ _)) >>=
      _) = _ ↔ _
    rw [nextFieldOr_bind]
    cases newRecords with
    | nil =>
      cases oldRefAbsent with
      | false => exact ⟨fun _ => ⟨fun _ => rfl, fun _ => rfl⟩, fun _ => rfl⟩
      | true =>
        exact ⟨fun h => (nomatch h), fun h => (nomatch h.2 rfl)⟩
    | cons record' records' =>
      change ((nextFieldOr [] >>= _) (ser (record' :: records') :: skipField _ _) >>= _) = _ ↔ _
      rw [nextFieldOr_bind]
      cases oldRefAbsent with
      | false => exact ⟨fun _ => ⟨fun h => (nomatch h), fun h => (nomatch h)⟩, fun _ => rfl⟩
      | true => exact ⟨fun _ => ⟨fun h => (nomatch h), fun h => (nomatch h)⟩, fun _ => rfl⟩

theorem Attribution.de_ser_iff (attribution : Attribution) :
    de (ser attribution) = .ok attribution ↔
      ∀ agent ∈ attribution.agent, agent.FieldsInOrder := by
  obtain ⟨principal, agent⟩ := attribution
  change readFields _ (.seq [_, _]) = _ ↔ _
  rw [readFields_seq, nextField_bind, bind_run, nextField_cons]
  cases agent with
  | none => exact ⟨fun _ _ h => (nomatch h), fun _ => rfl⟩
  | some agent =>
    have hagent : (∀ found ∈ some agent, found.FieldsInOrder) ↔ agent.FieldsInOrder :=
      ⟨fun h => h agent rfl, fun h _ heq => Option.some.inj heq ▸ h⟩
    rw [hagent, ← agent.de_ser_iff, ← de_ser_some_iff]
    simp only [bind_eq_ok, map_eq_ok_iff]
    constructor
    · rintro ⟨_, ⟨_, ⟨found, hfound, rfl⟩, h⟩, hread⟩
      cases h
      cases hread
      exact hfound
    · intro h
      exact ⟨_, ⟨_, ⟨_, h, rfl⟩, rfl⟩, rfl⟩

end Skipped

section Records

instance : Serde OpRecord where
  ser
    | .snapshot newState prevHead head thread =>
      .variant "Snapshot" (.seq [ser newState, ser prevHead, ser head, ser thread])
    | .goto target prevHead head => .variant "Goto" (.seq [ser target, ser prevHead, ser head])
    | .threadCreate name state managerSnapshot =>
      .variant "ThreadCreate" (.seq [ser name, ser state, ser managerSnapshot])
    | .threadDelete name state => .variant "ThreadDelete" (.seq [ser name, ser state])
    | .threadUpdate name oldState newState managerSnapshots =>
      .variant "ThreadUpdate" (.seq ([ser name, ser oldState, ser newState] ++
        skipField managerSnapshots.isNone (ser managerSnapshots)))
    | .fork source newState thread head =>
      .variant "Fork" (.seq [ser source, ser newState, ser thread, ser head])
    | .collapse sources result thread preThreadState =>
      .variant "Collapse" (.seq [ser sources, ser result, ser thread, ser preThreadState])
    | .markerCreate name state => .variant "MarkerCreate" (.seq [ser name, ser state])
    | .markerDelete name state => .variant "MarkerDelete" (.seq [ser name, ser state])
    | .checkpoint parent state thread =>
      .variant "Checkpoint" (.seq [ser parent, ser state, ser thread])
    | .transactionAbort transactionId reason =>
      .variant "TransactionAbort" (.seq [ser transactionId, ser reason])
    | .ephemeralThreadCollapse thread finalState =>
      .variant "EphemeralThreadCollapse" (.seq [ser thread, ser finalState])
    | .conflictResolved conflictId resolution resolver mode =>
      .variant "ConflictResolved" (.seq [ser conflictId, ser resolution, ser resolver, ser mode])
    | .transactionCommit transactionId opCount =>
      .variant "TransactionCommit" (.seq [ser transactionId, ser opCount])
    | .redact redactionId blob state path =>
      .variant "Redact" (.seq [ser redactionId, ser blob, ser state, ser path])
    | .purge redactionId blob => .variant "Purge" (.seq [ser redactionId, ser blob])
    | .fastForward sourceThread targetThread preTargetId postTargetId =>
      .variant "FastForward"
        (.seq [ser sourceThread, ser targetThread, ser preTargetId, ser postTargetId])
    | .gitCheckpoint branch state previousGitOid newGitOid =>
      .variant "GitCheckpoint"
        (.seq [ser branch, ser state, ser previousGitOid, ser newGitOid])
    | .remoteThreadUpdate remote thread state =>
      .variant "RemoteThreadUpdate" (.seq [ser remote, ser thread, ser state])
    | .remoteThreadDelete remote thread state =>
      .variant "RemoteThreadDelete" (.seq [ser remote, ser thread, ser state])
    | .undoRecoveryUpdate state => .variant "UndoRecoveryUpdate" (.seq [ser state])
    | .stateVisibilitySet state recordId tier priorSidecar newSidecar =>
      .variant "StateVisibilitySet"
        (.seq [ser state, ser recordId, ser tier, ser priorSidecar, ser newSidecar])
    | .stateVisibilityPromote state superseded recordId tier priorSidecar newSidecar =>
      .variant "StateVisibilityPromote" (.seq [ser state, ser superseded, ser recordId, ser tier,
        ser priorSidecar, ser newSidecar])
    | .headUpdate previous new => .variant "HeadUpdate" (.seq [ser previous, ser new])
    | .entryVisibilitySet changeId recordId priorSidecar newSidecar =>
      .variant "EntryVisibilitySet"
        (.seq [ser changeId, ser recordId, ser priorSidecar, ser newSidecar])
  de
    | .variant "Snapshot" body => readFields (do
      return .snapshot (← nextField) (← nextField) (← nextField) (← nextField)) body
    | .variant "Goto" body => readFields (do
      return .goto (← nextField) (← nextField) (← nextField)) body
    | .variant "ThreadCreate" body => readFields (do
      return .threadCreate (← nextField) (← nextField) (← nextField)) body
    | .variant "ThreadDelete" body => readFields (do
      return .threadDelete (← nextField) (← nextField)) body
    | .variant "ThreadUpdate" body => readFields (do
      return .threadUpdate (← nextField) (← nextField) (← nextField) (← nextFieldOr none)) body
    | .variant "Fork" body => readFields (do
      return .fork (← nextField) (← nextField) (← nextFieldOr none) (← nextFieldOr none)) body
    | .variant "Collapse" body => readFields (do
      return .collapse (← nextField) (← nextField) (← nextFieldOr none) (← nextFieldOr none)) body
    | .variant "MarkerCreate" body => readFields (do
      return .markerCreate (← nextField) (← nextField)) body
    | .variant "MarkerDelete" body => readFields (do
      return .markerDelete (← nextField) (← nextField)) body
    | .variant "Checkpoint" body => readFields (do
      return .checkpoint (← nextField) (← nextField) (← nextField)) body
    | .variant "TransactionAbort" body => readFields (do
      return .transactionAbort (← nextField) (← nextField)) body
    | .variant "EphemeralThreadCollapse" body => readFields (do
      return .ephemeralThreadCollapse (← nextField) (← nextField)) body
    | .variant "ConflictResolved" body => readFields (do
      return .conflictResolved (← nextField) (← nextField) (← nextField) (← nextField)) body
    | .variant "TransactionCommit" body => readFields (do
      return .transactionCommit (← nextField) (← nextField)) body
    | .variant "Redact" body => readFields (do
      return .redact (← nextField) (← nextField) (← nextField) (← nextField)) body
    | .variant "Purge" body => readFields (do
      return .purge (← nextField) (← nextField)) body
    | .variant "FastForward" body => readFields (do
      return .fastForward (← nextField) (← nextField) (← nextField) (← nextField)) body
    | .variant "GitCheckpoint" body => readFields (do
      return .gitCheckpoint (← nextField) (← nextField) (← nextField) (← nextField)) body
    | .variant "RemoteThreadUpdate" body => readFields (do
      return .remoteThreadUpdate (← nextField) (← nextField) (← nextField)) body
    | .variant "RemoteThreadDelete" body => readFields (do
      return .remoteThreadDelete (← nextField) (← nextField) (← nextField)) body
    | .variant "UndoRecoveryUpdate" body => readFields (do
      return .undoRecoveryUpdate (← nextField)) body
    | .variant "StateVisibilitySet" body => readFields (do
      return .stateVisibilitySet (← nextField) (← nextField) (← nextField) (← nextFieldOr none)
        (← nextFieldOr none)) body
    | .variant "StateVisibilityPromote" body => readFields (do
      return .stateVisibilityPromote (← nextField) (← nextField) (← nextField) (← nextField)
        (← nextFieldOr none) (← nextFieldOr none)) body
    | .variant "HeadUpdate" body => readFields (do
      return .headUpdate (← nextField) (← nextField)) body
    | .variant "EntryVisibilitySet" body => readFields (do
      return .entryVisibilitySet (← nextField) (← nextField) (← nextFieldOr none)
        (← nextFieldOr none)) body
    | _ => .error "unknown variant"

def currentOpRecordSchemaName : String := "state-id-v4"

variable (toVec : Value → Except String Bytes) (fromSlice : Bytes → Except String Value)

/-- `toVec` and `fromSlice` are rmp-serde's writer and reader. -/
def encodeCurrentRecord (record : OpRecord) : Except String Bytes := toVec (ser record)

def decodeCurrentRecord (bytes : Bytes) : Except String OpRecord :=
  mapErr (fun err => "failed to decode OpRecord payload as " ++ currentOpRecordSchemaName ++ ": " ++ err)
    (fromSlice bytes >>= de)

/-- Behind a field that is left out, every field of its struct is left out. -/
def OpRecord.FieldsInOrder : OpRecord → Prop
  | .threadUpdate _ _ _ managerSnapshots =>
    ∀ snapshots ∈ managerSnapshots, snapshots.FieldsInOrder
  | .conflictResolved _ _ resolver _ => ∀ agent ∈ resolver.agent, agent.FieldsInOrder
  | _ => True

theorem OpRecord.de_threadUpdate_iff (name : String) (oldState newState : StateId)
    (managerSnapshots : Option ThreadUpdateSnapshots) :
    de (ser (OpRecord.threadUpdate name oldState newState managerSnapshots)) =
        .ok (OpRecord.threadUpdate name oldState newState managerSnapshots) ↔
      ∀ snapshots ∈ managerSnapshots, snapshots.FieldsInOrder := by
  change readFields _ (.seq (_ :: _ :: _ :: skipField _ _)) = _ ↔ _
  rw [readFields_seq, nextField_bind, nextField_bind, nextField_bind]
  cases managerSnapshots with
  | none => exact ⟨fun _ _ h => (nomatch h), fun _ => rfl⟩
  | some snapshots =>
    change ((nextFieldOr none >>= _) [ser (some snapshots)] >>= _) = _ ↔ _
    have hsnapshots : (∀ found ∈ some snapshots, found.FieldsInOrder) ↔ snapshots.FieldsInOrder :=
      ⟨fun h => h snapshots rfl, fun h _ heq => Option.some.inj heq ▸ h⟩
    rw [bind_run, nextFieldOr_cons, hsnapshots, ← snapshots.de_ser_iff, ← de_ser_some_iff]
    simp only [bind_eq_ok, map_eq_ok_iff]
    constructor
    · rintro ⟨_, ⟨_, ⟨found, hfound, rfl⟩, h⟩, hread⟩
      cases h
      cases hread
      exact hfound
    · intro h
      exact ⟨_, ⟨_, ⟨_, h, rfl⟩, rfl⟩, rfl⟩

theorem OpRecord.de_conflictResolved_iff (conflictId resolution : String) (resolver : Attribution)
    (mode : ConflictResolutionMode) :
    de (ser (OpRecord.conflictResolved conflictId resolution resolver mode)) =
        .ok (OpRecord.conflictResolved conflictId resolution resolver mode) ↔
      ∀ agent ∈ resolver.agent, agent.FieldsInOrder := by
  change readFields _ (.seq [_, _, _, _]) = _ ↔ _
  rw [readFields_seq, nextField_bind, nextField_bind, bind_run, nextField_cons,
    ← resolver.de_ser_iff]
  simp only [bind_eq_ok, map_eq_ok_iff]
  constructor
  · rintro ⟨_, ⟨_, ⟨found, hfound, rfl⟩, h⟩, hread⟩
    rw [nextField_bind] at h
    cases h
    cases hread
    exact hfound
  · intro h
    have hrest : (nextField >>= fun mode =>
        (pure (conflictResolved conflictId resolution resolver mode) : SeqAccess OpRecord))
          [ser mode] = .ok (conflictResolved conflictId resolution resolver mode, []) := by
      rw [nextField_bind]
      rfl
    exact ⟨_, ⟨(resolver, [ser mode]), ⟨resolver, h, rfl⟩, hrest⟩, rfl⟩

theorem OpRecord.de_ser_iff (record : OpRecord) :
    de (ser record) = .ok record ↔ record.FieldsInOrder := by
  cases record with
  | threadUpdate name oldState newState managerSnapshots =>
    exact OpRecord.de_threadUpdate_iff name oldState newState managerSnapshots
  | conflictResolved conflictId resolution resolver mode =>
    exact OpRecord.de_conflictResolved_iff conflictId resolution resolver mode
  | _ =>
    apply iff_of_true _ trivial
    change readFields _ (.seq _) = _
    simp only [readFields_seq, nextField_bind, nextFieldOr_bind]
    rfl

/-- What rmp-serde writes and reads back is the same record exactly when its fields are in order. -/
theorem currentRecord_roundTrip_iff {record : OpRecord} {bytes : Bytes}
    (hwrite : toVec (ser record) = .ok bytes) (hread : fromSlice bytes = .ok (ser record)) :
    (encodeCurrentRecord toVec record >>= decodeCurrentRecord fromSlice) = .ok record ↔
      record.FieldsInOrder := by
  rw [← record.de_ser_iff, encodeCurrentRecord, hwrite]
  change mapErr _ (fromSlice bytes >>= de) = _ ↔ _
  rw [hread, mapErr_eq_ok]
  rfl

end Records

section MsgPack

def zeroState : StateId := ⟨Vector.replicate 32 0⟩

def fullUpdate : OpRecord := .threadUpdate "main" zeroState zeroState (some {
  old := some [6]
  new := some [7]
  oldRecords := [[60], [61]]
  newRecords := [[70]]
  oldRefAbsent := true })

def absentRefUpdate : OpRecord := .threadUpdate "main" zeroState zeroState (some {
  old := none
  new := none
  oldRecords := []
  newRecords := []
  oldRefAbsent := true })

-- the bytes the source freezes for this variant
example : encodeCurrentRecord MsgPack.toVec (.stateVisibilityPromote ⟨Vector.replicate 32 1⟩
    ⟨Vector.replicate 32 2⟩ ⟨Vector.replicate 32 3⟩ .internal (some [4]) (some [5])) =
    .ok ([129, 182] ++ utf8 "StateVisibilityPromote" ++ [150, 220, 0, 32] ++ List.replicate 32 1 ++
      [220, 0, 32] ++ List.replicate 32 2 ++ [220, 0, 32] ++ List.replicate 32 3 ++
      [168, 73, 110, 116, 101, 114, 110, 97, 108, 145, 4, 145, 5]) := by
  decide +kernel

theorem currentRecord_roundTrip_fullUpdate :
    (encodeCurrentRecord MsgPack.toVec fullUpdate >>= decodeCurrentRecord MsgPack.fromSlice) =
      .ok fullUpdate := by
  have hfits : MsgPack.Fits (ser fullUpdate) := by decide +kernel
  apply (currentRecord_roundTrip_iff MsgPack.toVec MsgPack.fromSlice rfl
    (MsgPack.fromSlice_encode hfits)).2
  intro snapshots hsnapshots
  cases hsnapshots
  exact ⟨fun h => (nomatch h), fun h => (nomatch h)⟩

/-- The flag is read as a record set, and the record does not decode. -/
theorem absentRefUpdate_unreadable : ¬∀ record : OpRecord,
    (encodeCurrentRecord MsgPack.toVec record >>= decodeCurrentRecord MsgPack.fromSlice) =
      .ok record := by
  intro h
  have hread : ((encodeCurrentRecord MsgPack.toVec absentRefUpdate >>=
      decodeCurrentRecord MsgPack.fromSlice).isOk) = false := by decide +kernel
  rw [h absentRefUpdate] at hread
  cases hread

end MsgPack
end Heddle.Oplog
