import Heddle.Timeline.Operation
import Heddle.Lib.Table

namespace Heddle.Timeline
open Heddle.Lib

structure TimelineNativeToolKey where
  harness : String
  sessionId : Option String
  messageId : Option String
  toolCallId : String
  deriving DecidableEq

def TimelineNativeToolKey.ofRef (value : NativeToolCallRef) : TimelineNativeToolKey :=
  ⟨value.harness, value.sessionId, value.messageId, value.toolCallId⟩

structure TimelineStepKey where
  thread : String
  stepId : TimelineStepId
  deriving DecidableEq

structure TimelineBranchKey where
  thread : String
  branchId : TimelineBranchId
  deriving DecidableEq

structure TimelineNativeIndexKey where
  thread : String
  native : TimelineNativeToolKey
  deriving DecidableEq

structure TimelineThreadStatus where
  thread : String
  currentBranchId : Option TimelineBranchId
  currentStepId : Option TimelineStepId
  currentState : Option StateId
  lastOperationId : Option TimelineOperationId

def TimelineThreadStatus.new (thread : String) : TimelineThreadStatus :=
  ⟨thread, none, none, none, none⟩

structure TimelineBranchSummary where
  thread : String
  branchId : TimelineBranchId
  parentBranchId : Option TimelineBranchId
  forkedFromStepId : Option TimelineStepId
  forkedFromState : Option StateId
  reason : Option TimelineBranchReason
  createdAtMs : Option Int
  operationIds : List TimelineOperationId
  steps : List TimelineStepId
  deriving DecidableEq

/-- A branch that only its steps tell of. -/
def TimelineBranchSummary.implicit (thread : String) (branchId : TimelineBranchId) :
    TimelineBranchSummary :=
  ⟨thread, branchId, none, none, none, none, none, [], []⟩

structure TimelineStepSummary where
  thread : String
  stepId : TimelineStepId
  branchId : TimelineBranchId
  parentStepId : Option TimelineStepId
  native : Option NativeToolCallRef
  toolName : Option String
  beforeState : Option StateId
  afterState : Option StateId
  captureState : Option StateId
  captureOplogBatchId : Option UInt64
  changed : Option Bool
  status : Option TimelineToolCallStatus
  labels : List TimelineLabel
  touchedPaths : List String
  payloadSummary : Option String
  payloadHash : Option ContentHash
  operationIds : List TimelineOperationId
  startedAtMs : Option Int
  finishedAtMs : Option Int

namespace TimelineStepSummary

def new (thread : String) (stepId : TimelineStepId) (branchId : TimelineBranchId) :
    TimelineStepSummary :=
  ⟨thread, stepId, branchId, none, none, none, none, none, none, none, none, none, [], [], none,
    none, [], none, none⟩

def cursorState (step : TimelineStepSummary) : Option StateId :=
  (step.afterState.or step.captureState).or step.beforeState

end TimelineStepSummary

structure TimelineSeekTarget where
  thread : String
  branchId : TimelineBranchId
  stepId : Option TimelineStepId
  state : StateId
  deriving DecidableEq

structure TimelineView where
  operationIds : List TimelineOperationId
  threads : Table String TimelineThreadStatus
  branches : Table TimelineBranchKey TimelineBranchSummary
  steps : Table TimelineStepKey TimelineStepSummary
  nativeIndex : Table TimelineNativeIndexKey TimelineStepKey

def pushUnique [DecidableEq α] (target : List α) (item : α) : List α :=
  if item ∈ target then target else target ++ [item]

def mergeUnique [DecidableEq α] (target items : List α) : List α := items.foldl pushUnique target

section Unique
variable [DecidableEq α] {target : List α}

theorem mem_pushUnique : x ∈ pushUnique target item ↔ x ∈ target ∨ x = item := by
  unfold pushUnique
  split
  case isTrue h =>
    constructor
    · exact .inl
    · rintro (hx | rfl)
      · exact hx
      · exact h
  case isFalse => rw [List.mem_append, List.mem_singleton]

theorem nodup_pushUnique (h : target.Nodup) (item : α) : (pushUnique target item).Nodup := by
  unfold pushUnique
  split
  case isTrue => exact h
  case isFalse hnot => exact List.nodup_append.2 ⟨h, List.nodup_singleton item, fun a ha b hb hab =>
    hnot (List.mem_singleton.1 hb ▸ hab ▸ ha)⟩

theorem mem_mergeUnique :
    x ∈ mergeUnique target items ↔ x ∈ target ∨ x ∈ items := by
  induction items generalizing target with
  | nil => exact ⟨.inl, fun h => h.resolve_right List.not_mem_nil⟩
  | cons item items ih =>
    have hcons : mergeUnique target (item :: items) = mergeUnique (pushUnique target item) items := rfl
    rw [hcons, ih, mem_pushUnique, List.mem_cons, or_assoc]

theorem nodup_mergeUnique (h : target.Nodup) (items : List α) : (mergeUnique target items).Nodup := by
  induction items generalizing target with
  | nil => exact h
  | cons item items ih => exact ih (nodup_pushUnique h item)

end Unique

def mergePayloadMetadata (step : TimelineStepSummary)
    (payload : Option TimelineToolPayloadMetadata) : TimelineStepSummary :=
  match payload with
  | none => step
  | some payload =>
    { step with
      payloadSummary := step.payloadSummary.or payload.summary
      payloadHash := step.payloadHash.or payload.hash }

namespace TimelineView

def empty : TimelineView := ⟨[], .empty, .empty, .empty, .empty⟩

def status (view : TimelineView) (thread : String) : Option TimelineThreadStatus :=
  view.threads.lookup thread

def branch (view : TimelineView) (thread : String) (branchId : TimelineBranchId) :
    Option TimelineBranchSummary :=
  view.branches.lookup ⟨thread, branchId⟩

def step (view : TimelineView) (thread : String) (stepId : TimelineStepId) :
    Option TimelineStepSummary :=
  view.steps.lookup ⟨thread, stepId⟩

section Cursor

def resolveSeekTarget (view : TimelineView) (thread : String) (stepId : TimelineStepId) :
    Option TimelineSeekTarget := do
  let step ← view.step thread stepId
  let state ← step.cursorState
  some ⟨thread, step.branchId, some step.stepId, state⟩

/-- Where an undo moves the cursor: to the step before, or to where the branch was forked. -/
def resolveUndoTarget (view : TimelineView) (thread : String) : Option TimelineSeekTarget := do
  let status ← view.status thread
  let branchId ← status.currentBranchId
  let currentStepId ← status.currentStepId
  let branch ← view.branch thread branchId
  let position ← branch.steps.findIdx? (· = currentStepId)
  if position = 0 then
    let currentStep ← view.step thread currentStepId
    let state ← (branch.forkedFromState.or currentStep.beforeState).or status.currentState
    some ⟨thread, branchId, branch.forkedFromStepId, state⟩
  else
    let previousStepId ← branch.steps[position - 1]?
    view.resolveSeekTarget thread previousStepId

def resolveRedoTarget (view : TimelineView) (thread : String) : Option TimelineSeekTarget := do
  let status ← view.status thread
  let branchId ← status.currentBranchId
  let branch ← view.branch thread branchId
  let position := status.currentStepId.bind fun current => branch.steps.findIdx? (· = current)
  let nextStepId ← branch.steps[(position.map (· + 1)).getD 0]?
  view.resolveSeekTarget thread nextStepId

end Cursor

section Apply

/-- Changes a branch, which is implicit when there is none yet. -/
def modifyBranch (view : TimelineView) (thread : String) (branchId : TimelineBranchId)
    (f : TimelineBranchSummary → TimelineBranchSummary) : TimelineView :=
  { view with
    branches := view.branches.insert ⟨thread, branchId⟩
      (f ((view.branch thread branchId).getD (.implicit thread branchId))) }

def ensureBranch (view : TimelineView) (thread : String) (branchId : TimelineBranchId) :
    TimelineView :=
  view.modifyBranch thread branchId id

def addBranchStep (view : TimelineView) (thread : String) (branchId : TimelineBranchId)
    (stepId : TimelineStepId) : TimelineView :=
  (view.ensureBranch thread branchId).modifyBranch thread branchId fun branch =>
    { branch with steps := pushUnique branch.steps stepId }

def modifyStep (view : TimelineView) (thread : String) (stepId : TimelineStepId)
    (branchId : TimelineBranchId) (f : TimelineStepSummary → TimelineStepSummary) : TimelineView :=
  { view with
    steps := view.steps.insert ⟨thread, stepId⟩
      (f ((view.step thread stepId).getD (.new thread stepId branchId))) }

def indexNative (view : TimelineView) (thread : String) (native : NativeToolCallRef)
    (stepId : TimelineStepId) : TimelineView :=
  { view with
    nativeIndex := view.nativeIndex.insert ⟨thread, .ofRef native⟩ ⟨thread, stepId⟩ }

def setThreadCursor (view : TimelineView) (thread : String) (branchId : Option TimelineBranchId)
    (stepId : Option TimelineStepId) (state : Option StateId) (operationId : TimelineOperationId) :
    TimelineView :=
  { view with
    threads := view.threads.insert thread
      { (view.status thread).getD (.new thread) with
        currentBranchId := branchId, currentStepId := stepId, currentState := state
        lastOperationId := some operationId } }

def startStep (id : TimelineOperationId) (body : ToolCallStarted) (labels : List TimelineLabel)
    (step : TimelineStepSummary) : TimelineStepSummary :=
  let step := { step with
    parentStepId := step.parentStepId.or body.parentStepId
    native := step.native.or (some body.native)
    toolName := step.toolName.or (some body.toolName)
    beforeState := step.beforeState.or (some body.beforeState) }
  let step := mergePayloadMetadata step body.payload
  { step with
    operationIds := pushUnique step.operationIds id
    labels := mergeUnique step.labels labels
    startedAtMs := step.startedAtMs.or (some body.startedAtMs) }

def finishStep (id : TimelineOperationId) (body : ToolCallFinished) (labels : List TimelineLabel)
    (step : TimelineStepSummary) : TimelineStepSummary :=
  let step := { step with
    native := step.native.or (some body.native)
    beforeState := step.beforeState.or (some body.beforeState)
    afterState := some body.afterState
    captureState := body.captureState
    captureOplogBatchId := body.captureOplogBatchId
    changed := some body.changed
    status := some body.status }
  let step := mergePayloadMetadata step body.payload
  { step with
    touchedPaths := mergeUnique step.touchedPaths body.touchedPaths
    operationIds := pushUnique step.operationIds id
    labels := mergeUnique step.labels labels
    finishedAtMs := step.finishedAtMs.or (some body.finishedAtMs) }

def createBranch (id : TimelineOperationId) (body : BranchCreated)
    (branch : TimelineBranchSummary) : TimelineBranchSummary :=
  { branch with
    parentBranchId := body.parentBranchId
    forkedFromStepId := body.fromStepId
    forkedFromState := some body.fromState
    reason := some body.reason
    createdAtMs := some body.createdAtMs
    operationIds := pushUnique branch.operationIds id }

def applyBranchCreated (view : TimelineView) (id : TimelineOperationId) (body : BranchCreated) :
    TimelineView :=
  (view.modifyBranch body.thread body.branchId (createBranch id body)).setThreadCursor body.thread
    (some body.branchId) body.fromStepId (some body.fromState) id

/-- What both tool-call operations do: the step on its branch, its native index and the cursor. -/
def applyToolCall (view : TimelineView) (id : TimelineOperationId) (thread : String)
    (branchId : TimelineBranchId) (stepId : TimelineStepId) (native : NativeToolCallRef)
    (state : StateId) (f : TimelineStepSummary → TimelineStepSummary) : TimelineView :=
  let view := view.ensureBranch thread branchId
  let view := view.addBranchStep thread branchId stepId
  let view := view.modifyStep thread stepId branchId f
  let view := view.indexNative thread native stepId
  view.setThreadCursor thread (some branchId) (some stepId) (some state) id

def applyOperation (view : TimelineView) (id : TimelineOperationId)
    (envelope : TimelineOperationEnvelope) : TimelineView :=
  match envelope.body with
  | .branchCreated body => view.applyBranchCreated id body
  | .toolCallStarted body =>
    view.applyToolCall id body.thread body.branchId body.stepId body.native body.beforeState
      (startStep id body envelope.labels)
  | .toolCallFinished body =>
    view.applyToolCall id body.thread body.branchId body.stepId body.native body.afterState
      (finishStep id body envelope.labels)
  | .cursorMoved body =>
    (view.ensureBranch body.thread body.branchId).setThreadCursor body.thread (some body.branchId)
      body.toStepId (some body.toState) id

def push (view : TimelineView) (record : TimelineOperationRecord) : TimelineView :=
  { view with operationIds := view.operationIds ++ [record.id] }.applyOperation record.id
    record.envelope

def replay (view : TimelineView) (records : List TimelineOperationRecord) : TimelineView :=
  records.foldl push view

end Apply

end TimelineView

end Heddle.Timeline
