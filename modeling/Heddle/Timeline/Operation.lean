import Heddle.Object.PartialTree
import Heddle.Lib.SortedList
import Mathlib.Data.Prod.Lex
import Mathlib.Data.String.Basic

namespace Heddle.Timeline
open Heddle.Lib

@[ext] structure TimelineOperationId where
  bytes : Vector UInt8 32
  deriving DecidableEq

structure TimelineStepId where
  value : String
  deriving DecidableEq

structure TimelineBranchId where
  value : String
  deriving DecidableEq

inductive TimelineOperationKind where
  | toolCallStarted | toolCallFinished | cursorMoved | branchCreated
  deriving DecidableEq

inductive TimelineLabel where
  | repoReversible | externalSideEffectsUnknown | ignoredPathTouched | outsideRepoTouched
  | purgeBoundary | captureFailed
  deriving DecidableEq

structure TimelineToolPayloadMetadata where
  summary : Option String
  hash : Option ContentHash
  deriving DecidableEq

structure NativeToolCallRef where
  harness : String
  sessionId : Option String
  messageId : Option String
  toolCallId : String
  deriving DecidableEq

inductive TimelineToolCallStatus where
  | succeeded | failed | cancelled
  deriving DecidableEq

inductive TimelineCursorMoveReason where
  | seekToolCall | undo | redo | reset | autoAdvance
  deriving DecidableEq

inductive TimelineBranchReason where
  | editFromRewoundCursor | explicitFork | retry | fanOut
  deriving DecidableEq

structure ToolCallStarted where
  thread : String
  stepId : TimelineStepId
  branchId : TimelineBranchId
  parentStepId : Option TimelineStepId
  native : NativeToolCallRef
  toolName : String
  beforeState : StateId
  payload : Option TimelineToolPayloadMetadata
  startedAtMs : Int

structure ToolCallFinished where
  thread : String
  stepId : TimelineStepId
  branchId : TimelineBranchId
  native : NativeToolCallRef
  status : TimelineToolCallStatus
  beforeState : StateId
  afterState : StateId
  captureState : Option StateId
  captureOplogBatchId : Option UInt64
  changed : Bool
  touchedPaths : List String
  payload : Option TimelineToolPayloadMetadata
  finishedAtMs : Int

structure CursorMoved where
  thread : String
  branchId : TimelineBranchId
  fromStepId : Option TimelineStepId
  toStepId : Option TimelineStepId
  fromState : StateId
  toState : StateId
  reason : TimelineCursorMoveReason
  movedAtMs : Int

structure BranchCreated where
  thread : String
  branchId : TimelineBranchId
  parentBranchId : Option TimelineBranchId
  fromStepId : Option TimelineStepId
  fromState : StateId
  reason : TimelineBranchReason
  createdAtMs : Int

inductive TimelineOperationBody where
  | toolCallStarted (body : ToolCallStarted)
  | toolCallFinished (body : ToolCallFinished)
  | cursorMoved (body : CursorMoved)
  | branchCreated (body : BranchCreated)

structure TimelineOperationEnvelope where
  schemaVersion : Nat
  kind : TimelineOperationKind
  labels : List TimelineLabel
  body : TimelineOperationBody

def timelineOperationSchemaVersion : Nat := 1

def TimelineOperationKind.ofWire (value : String) : Option TimelineOperationKind :=
  match value with
  | "tool_call_started" => some .toolCallStarted
  | "tool_call_finished" => some .toolCallFinished
  | "cursor_moved" => some .cursorMoved
  | "branch_created" => some .branchCreated
  | _ => none

def timelineLabelOrder : TimelineLabel → Nat
  | .repoReversible => 0
  | .externalSideEffectsUnknown => 1
  | .ignoredPathTouched => 2
  | .outsideRepoTouched => 3
  | .purgeBoundary => 4
  | .captureFailed => 5

def canonicalTimelineLabels (labels : List TimelineLabel) : List TimelineLabel :=
  (sortBy timelineLabelOrder labels).destutter (· ≠ ·)

structure TimelineOperationEnvelopeWire where
  schemaVersion : Nat
  kind : String
  labels : List TimelineLabel
  body : Bytes

structure TimelineMsgpack where
  schemaVersion : Bytes → Option Nat
  wire : Bytes → Option TimelineOperationEnvelopeWire
  toolCallStarted : Bytes → Option ToolCallStarted
  toolCallFinished : Bytes → Option ToolCallFinished
  cursorMoved : Bytes → Option CursorMoved
  branchCreated : Bytes → Option BranchCreated

section Decode
variable (msgpack : TimelineMsgpack)

def decodeBody (kind : TimelineOperationKind) (bytes : Bytes) : Option TimelineOperationBody :=
  match kind with
  | .toolCallStarted => (msgpack.toolCallStarted bytes).map .toolCallStarted
  | .toolCallFinished => (msgpack.toolCallFinished bytes).map .toolCallFinished
  | .cursorMoved => (msgpack.cursorMoved bytes).map .cursorMoved
  | .branchCreated => (msgpack.branchCreated bytes).map .branchCreated

def TimelineOperationEnvelope.decode (bytes : Bytes) : Option TimelineOperationEnvelope := do
  let probed ← msgpack.schemaVersion bytes
  if probed ≠ timelineOperationSchemaVersion then none
  let wire ← msgpack.wire bytes
  if wire.schemaVersion ≠ timelineOperationSchemaVersion then none
  let kind ← TimelineOperationKind.ofWire wire.kind
  let body ← decodeBody msgpack kind wire.body
  some ⟨wire.schemaVersion, kind, canonicalTimelineLabels wire.labels, body⟩

end Decode

theorem hexDigit_injective : ∀ n < 16, ∀ m < 16, hexDigit n = hexDigit m → n = m := by decide

theorem hexDigits_injective {xs ys : Bytes}
    (h : (xs.flatMap fun b => [hexDigit (b.toNat / 16), hexDigit (b.toNat % 16)]) =
      ys.flatMap fun b => [hexDigit (b.toNat / 16), hexDigit (b.toNat % 16)]) : xs = ys := by
  induction xs generalizing ys with
  | nil =>
    cases ys with
    | nil => rfl
    | cons y ys => cases h
  | cons x xs ih =>
    cases ys with
    | nil => cases h
    | cons y ys =>
      obtain ⟨hhigh, h⟩ := List.cons.inj h
      obtain ⟨hlow, h⟩ := List.cons.inj h
      have hx := x.toNat_lt
      have hy := y.toNat_lt
      have hdiv := hexDigit_injective _ (by omega) _ (by omega) hhigh
      have hmod := hexDigit_injective _ (by omega) _ (by omega) hlow
      have hxy : x = y := UInt8.toNat_inj.1 (by omega)
      rw [hxy, ih h]

theorem toHex_injective : Function.Injective ContentHash.toHex := by
  intro a b h
  apply ContentHash.asBytes_injective
  exact hexDigits_injective (String.ofList_injective h)

namespace TimelineOperationId

def forBytes (blake3 : Bytes → ContentHash) (bytes : Bytes) : TimelineOperationId :=
  ⟨(computeTyped blake3 "timeline-operation" bytes).bytes⟩

def toHex (id : TimelineOperationId) : String := (ContentHash.mk id.bytes).toHex

instance : LinearOrder TimelineOperationId :=
  LinearOrder.lift' (fun id => id.bytes.toList.map UInt8.toNat) fun a b h => by
    apply TimelineOperationId.ext
    apply Vector.toList_inj.1
    exact List.map_injective_iff.2 (fun _ _ => UInt8.toNat_inj.1) h

theorem toHex_inj {a b : TimelineOperationId} (h : a.toHex = b.toHex) : a = b := by
  have hhash := toHex_injective h
  exact TimelineOperationId.ext (congrArg ContentHash.bytes hhash)

end TimelineOperationId

def operationTimestamp (envelope : TimelineOperationEnvelope) : Int :=
  match envelope.body with
  | .toolCallStarted body => body.startedAtMs
  | .toolCallFinished body => body.finishedAtMs
  | .cursorMoved body => body.movedAtMs
  | .branchCreated body => body.createdAtMs

def operationKindOrder : TimelineOperationKind → Nat
  | .branchCreated => 0
  | .toolCallStarted => 1
  | .toolCallFinished => 2
  | .cursorMoved => 3

structure TimelineOperationRecord where
  id : TimelineOperationId
  envelope : TimelineOperationEnvelope

@[ext] structure TimelineOperationReplayKey where
  timestampMs : Int
  kindOrder : Nat
  operationIdHex : String
  deriving DecidableEq

/-- The derived order: by the fields, first to last. -/
instance : LinearOrder TimelineOperationReplayKey :=
  LinearOrder.lift' (fun key => toLex (key.timestampMs, toLex (key.kindOrder, key.operationIdHex)))
    fun a b h => by
      have htime := congrArg (fun key => (ofLex key).1) h
      have hrest := congrArg (fun key => ofLex (ofLex key).2) h
      exact TimelineOperationReplayKey.ext htime (congrArg Prod.fst hrest) (congrArg Prod.snd hrest)

def operationReplayKey (record : TimelineOperationRecord) : TimelineOperationReplayKey where
  timestampMs := operationTimestamp record.envelope
  kindOrder := operationKindOrder record.envelope.kind
  operationIdHex := record.id.toHex

theorem operationReplayKey_id (h : operationReplayKey a = operationReplayKey b) : a.id = b.id :=
  TimelineOperationId.toHex_inj (congrArg TimelineOperationReplayKey.operationIdHex h)

def sortOperationRecords (records : List TimelineOperationRecord) : List TimelineOperationRecord :=
  sortBy operationReplayKey records

end Heddle.Timeline
