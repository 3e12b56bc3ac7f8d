import Heddle.Timeline.Calls

namespace Heddle.Timeline
open Heddle.Lib List Option

namespace TimelineView

section Lookups

section
variable (view : TimelineView) (thread : String)

theorem branch_modifyBranch (branchId : TimelineBranchId)
    (f : TimelineBranchSummary → TimelineBranchSummary) (thread' : String)
    (branchId' : TimelineBranchId) :
    (view.modifyBranch thread branchId f).branch thread' branchId' =
      if thread' = thread ∧ branchId' = branchId then
        some (f ((view.branch thread branchId).getD (.implicit thread branchId)))
      else view.branch thread' branchId' := by
  have hkey : (⟨thread', branchId'⟩ : TimelineBranchKey) = ⟨thread, branchId⟩ ↔
      thread' = thread ∧ branchId' = branchId := TimelineBranchKey.mk.injEq .. ▸ Iff.rfl
  unfold modifyBranch branch
  rw [Table.lookup_insert]
  exact if_congr hkey rfl rfl

theorem step_modifyStep (stepId : TimelineStepId)
    (branchId : TimelineBranchId) (f : TimelineStepSummary → TimelineStepSummary)
    (thread' : String) (stepId' : TimelineStepId) :
    (view.modifyStep thread stepId branchId f).step thread' stepId' =
      if thread' = thread ∧ stepId' = stepId then
        some (f ((view.step thread stepId).getD (.new thread stepId branchId)))
      else view.step thread' stepId' := by
  have hkey : (⟨thread', stepId'⟩ : TimelineStepKey) = ⟨thread, stepId⟩ ↔
      thread' = thread ∧ stepId' = stepId := TimelineStepKey.mk.injEq .. ▸ Iff.rfl
  unfold modifyStep step
  rw [Table.lookup_insert]
  exact if_congr hkey rfl rfl

theorem status_setThreadCursor
    (branchId : Option TimelineBranchId) (stepId : Option TimelineStepId) (state : Option StateId)
    (opId : TimelineOperationId) :
    (view.setThreadCursor thread branchId stepId state opId).status thread =
      some { (view.status thread).getD (.new thread) with
        currentBranchId := branchId, currentStepId := stepId, currentState := state
        lastOperationId := some opId } := by
  unfold setThreadCursor status
  exact Table.lookup_insert_self ..

end

section
variable (view : TimelineView) (opId : TimelineOperationId) (thread : String)
  (branchId : TimelineBranchId) (stepId : TimelineStepId) (native : NativeToolCallRef)
  (state : StateId) (f : TimelineStepSummary → TimelineStepSummary) (thread' : String)

theorem branch_applyToolCall (branchId' : TimelineBranchId) :
    (view.applyToolCall opId thread branchId stepId native state f).branch thread' branchId' =
      if thread' = thread ∧ branchId' = branchId then
        some { (view.branch thread branchId).getD (.implicit thread branchId) with
          steps := pushUnique
            ((view.branch thread branchId).getD (.implicit thread branchId)).steps stepId }
      else view.branch thread' branchId' := by
  have hlookup : (view.applyToolCall opId thread branchId stepId native state f).branch thread'
      branchId' = ((view.ensureBranch thread branchId).addBranchStep thread branchId
        stepId).branch thread' branchId' := rfl
  rw [hlookup]
  unfold addBranchStep ensureBranch
  rw [branch_modifyBranch]
  by_cases hkey : thread' = thread ∧ branchId' = branchId
  · rw [if_pos hkey, if_pos hkey]
    simp only [branch_modifyBranch, and_self, if_true, getD_some, id_eq]
  · rw [if_neg hkey, if_neg hkey, branch_modifyBranch, if_neg hkey, branch_modifyBranch,
      if_neg hkey]

theorem step_applyToolCall (stepId' : TimelineStepId) :
    (view.applyToolCall opId thread branchId stepId native state f).step thread' stepId' =
      if thread' = thread ∧ stepId' = stepId then
        some (f ((view.step thread stepId).getD (.new thread stepId branchId)))
      else view.step thread' stepId' := by
  have hlookup : (view.applyToolCall opId thread branchId stepId native state f).step thread'
      stepId' = (((view.ensureBranch thread branchId).addBranchStep thread branchId
        stepId).modifyStep thread stepId branchId f).step thread' stepId' := rfl
  rw [hlookup, step_modifyStep]
  rfl

end

end Lookups

section Consistent

/-- Branches and steps tell of each other. -/
structure Consistent (view : TimelineView) : Prop where
  nodup : ∀ {thread branchId branch}, view.branch thread branchId = some branch → branch.steps.Nodup
  placed : ∀ {thread stepId step}, view.step thread stepId = some step →
    step.stepId = stepId ∧ step.beforeState.isSome ∧
      ∃ branch, view.branch thread step.branchId = some branch ∧ stepId ∈ branch.steps
  known : ∀ {thread branchId branch stepId}, view.branch thread branchId = some branch →
    stepId ∈ branch.steps → (view.step thread stepId).isSome

theorem consistent_empty : Consistent empty where
  nodup := fun h => nomatch h
  placed := fun h => nomatch h
  known := fun h => nomatch h

theorem Consistent.congr {view view' : TimelineView} (h : view.Consistent)
    (hbranches : view'.branches = view.branches) (hsteps : view'.steps = view.steps) :
    view'.Consistent := by
  have hbranch : ∀ thread branchId, view'.branch thread branchId = view.branch thread branchId :=
    fun thread branchId => congrArg (Table.lookup · _) hbranches
  have hstep : ∀ thread stepId, view'.step thread stepId = view.step thread stepId :=
    fun thread stepId => congrArg (Table.lookup · _) hsteps
  constructor
  · intro thread branchId branch hfound
    exact h.nodup (hbranch _ _ ▸ hfound)
  · intro thread stepId step hfound
    rw [hstep] at hfound
    simp only [hbranch]
    exact h.placed hfound
  · intro thread branchId branch stepId hfound hmem
    rw [hstep]
    exact h.known (hbranch _ _ ▸ hfound) hmem

theorem Consistent.modifyBranch {view : TimelineView} (h : view.Consistent) (thread : String)
    (branchId : TimelineBranchId) (hf : ∀ branch, (f branch).steps = branch.steps) :
    (view.modifyBranch thread branchId f).Consistent := by
  have hback : ∀ {thread' branchId' branch'},
      (view.modifyBranch thread branchId f).branch thread' branchId' = some branch' →
      branch'.steps = [] ∨
        ∃ branch, view.branch thread' branchId' = some branch ∧ branch'.steps = branch.steps := by
    intro thread' branchId' branch' hfound
    rw [branch_modifyBranch] at hfound
    split at hfound
    case isTrue hkey =>
      obtain rfl := some.inj hfound
      obtain ⟨rfl, rfl⟩ := hkey
      cases hbranch : view.branch thread' branchId' with
      | none => exact .inl (hf _)
      | some branch => exact .inr ⟨branch, rfl, hf _⟩
    case isFalse => exact .inr ⟨branch', hfound, rfl⟩
  constructor
  · intro thread' branchId' branch' hfound
    rcases hback hfound with hnil | ⟨branch, hbranch, hsteps⟩
    · exact hnil ▸ nodup_nil
    · exact hsteps ▸ h.nodup hbranch
  · intro thread' stepId step hfound
    obtain ⟨hid, hbefore, branch, hbranch, hmem⟩ := h.placed hfound
    refine ⟨hid, hbefore, ?_⟩
    rw [branch_modifyBranch]
    split
    case isTrue hkey =>
      refine ⟨_, rfl, ?_⟩
      rw [hf, ← hkey.1, ← hkey.2, hbranch]
      exact hmem
    case isFalse => exact ⟨branch, hbranch, hmem⟩
  · intro thread' branchId' branch' stepId hfound hmem
    rcases hback hfound with hnil | ⟨branch, hbranch, hsteps⟩
    · exact absurd (hnil ▸ hmem) not_mem_nil
    · exact h.known hbranch (hsteps ▸ hmem)

theorem Consistent.applyToolCall {view : TimelineView} (h : view.Consistent)
    (opId : TimelineOperationId) (thread : String) (branchId : TimelineBranchId)
    (stepId : TimelineStepId) (native : NativeToolCallRef) (state : StateId)
    (hf : ∀ step, (f step).stepId = step.stepId ∧ (f step).branchId = step.branchId ∧
      (f step).beforeState.isSome) :
    (view.applyToolCall opId thread branchId stepId native state f).Consistent := by
  constructor
  · intro thread' branchId' branch' hfound
    rw [branch_applyToolCall] at hfound
    split at hfound
    case isTrue =>
      obtain rfl := some.inj hfound
      apply nodup_pushUnique
      cases hbranch : view.branch thread branchId with
      | none => exact nodup_nil
      | some branch => exact h.nodup hbranch
    case isFalse => exact h.nodup hfound
  · intro thread' stepId' step' hfound
    rw [step_applyToolCall] at hfound
    rw [branch_applyToolCall]
    split at hfound
    case isTrue hkey =>
      obtain rfl := some.inj hfound
      obtain ⟨rfl, rfl⟩ := hkey
      obtain ⟨hid, hon, hbefore⟩ := hf ((view.step thread' stepId').getD (.new thread' stepId' branchId))
      rw [hid, hon]
      cases hstep : view.step thread' stepId' with
      | none =>
        refine ⟨rfl, hstep ▸ hbefore, ?_⟩
        rw [if_pos ⟨rfl, rfl⟩]
        exact ⟨_, rfl, mem_pushUnique.2 (.inr rfl)⟩
      | some step =>
        obtain ⟨hid', _, branch, hbranch, hmem⟩ := h.placed hstep
        refine ⟨hid', hstep ▸ hbefore, ?_⟩
        split
        case isTrue hkey =>
          refine ⟨_, rfl, mem_pushUnique.2 (.inl ?_)⟩
          rw [← hkey.2, getD_some, hbranch]
          exact hmem
        case isFalse => exact ⟨branch, hbranch, hmem⟩
    case isFalse =>
      obtain ⟨hid, hbefore, branch, hbranch, hmem⟩ := h.placed hfound
      refine ⟨hid, hbefore, ?_⟩
      split
      case isTrue hkey =>
        refine ⟨_, rfl, mem_pushUnique.2 (.inl ?_)⟩
        rw [← hkey.1, ← hkey.2, hbranch]
        exact hmem
      case isFalse => exact ⟨branch, hbranch, hmem⟩
  · intro thread' branchId' branch' stepId' hfound hmem
    rw [branch_applyToolCall] at hfound
    rw [step_applyToolCall]
    split
    case isTrue => rfl
    case isFalse hstep =>
      split at hfound
      case isTrue hkey =>
        obtain rfl := some.inj hfound
        rcases mem_pushUnique.1 hmem with hmem | rfl
        · cases hbranch : view.branch thread branchId with
          | none =>
            rw [hbranch] at hmem
            exact absurd hmem not_mem_nil
          | some branch =>
            rw [hbranch] at hmem
            exact hkey.1 ▸ h.known hbranch hmem
        · exact absurd ⟨hkey.1, rfl⟩ hstep
      case isFalse => exact h.known hfound hmem

theorem mergePayloadMetadata_spec (step : TimelineStepSummary)
    (payload : Option TimelineToolPayloadMetadata) :
    (mergePayloadMetadata step payload).stepId = step.stepId ∧
      (mergePayloadMetadata step payload).branchId = step.branchId ∧
      (mergePayloadMetadata step payload).beforeState = step.beforeState := by
  cases payload with
  | none => exact ⟨rfl, rfl, rfl⟩
  | some payload => exact ⟨rfl, rfl, rfl⟩

theorem startStep_spec (opId : TimelineOperationId) (body : ToolCallStarted)
    (labels : List TimelineLabel) (step : TimelineStepSummary) :
    (startStep opId body labels step).stepId = step.stepId ∧
      (startStep opId body labels step).branchId = step.branchId ∧
      (startStep opId body labels step).beforeState.isSome := by
  unfold startStep
  simp only [mergePayloadMetadata_spec, isSome_or, isSome_some, Bool.or_true, and_self]

theorem finishStep_spec (opId : TimelineOperationId) (body : ToolCallFinished)
    (labels : List TimelineLabel) (step : TimelineStepSummary) :
    (finishStep opId body labels step).stepId = step.stepId ∧
      (finishStep opId body labels step).branchId = step.branchId ∧
      (finishStep opId body labels step).beforeState.isSome := by
  unfold finishStep
  simp only [mergePayloadMetadata_spec, isSome_or, isSome_some, Bool.or_true, and_self]

theorem Consistent.push {view : TimelineView} (h : view.Consistent)
    (record : TimelineOperationRecord) : (view.push record).Consistent := by
  have hlisted : { view with operationIds := view.operationIds ++ [record.id] }.Consistent :=
    h.congr rfl rfl
  unfold TimelineView.push applyOperation
  cases record.envelope.body with
  | branchCreated body =>
    have hbranch := hlisted.modifyBranch body.thread body.branchId
      (f := createBranch record.id body) fun _ => rfl
    exact hbranch.congr rfl rfl
  | toolCallStarted body => exact hlisted.applyToolCall _ _ _ _ _ _ (startStep_spec _ _ _)
  | toolCallFinished body => exact hlisted.applyToolCall _ _ _ _ _ _ (finishStep_spec _ _ _)
  | cursorMoved body =>
    have hbranch := hlisted.modifyBranch body.thread body.branchId (f := id) fun _ => rfl
    exact hbranch.congr rfl rfl

theorem Consistent.replay {view : TimelineView} (h : view.Consistent)
    (records : List TimelineOperationRecord) : (view.replay records).Consistent := by
  induction records generalizing view with
  | nil => exact h
  | cons record records ih => exact ih (h.push record)

end Consistent

section Cursor

/-- In the thread each step is on one branch. -/
def StepsOnOneBranch (view : TimelineView) (thread : String) : Prop :=
  ∀ {first second branch branch' stepId}, view.branch thread first = some branch →
    view.branch thread second = some branch' → stepId ∈ branch.steps → stepId ∈ branch'.steps →
    first = second

/-- In the thread no branch was forked from a step of its own. -/
def ForkedFromOthers (view : TimelineView) (thread : String) : Prop :=
  ∀ {branchId branch stepId}, view.branch thread branchId = some branch →
    branch.forkedFromStepId = some stepId → stepId ∉ branch.steps

theorem findIdx?_eq_some {steps : List TimelineStepId}
    (h : steps.findIdx? (· = stepId) = some position) : steps[position]? = some stepId := by
  obtain ⟨hlt, hfound, _⟩ := findIdx?_eq_some_iff_getElem.1 h
  rw [getElem?_eq_getElem hlt, of_decide_eq_true hfound]

theorem findIdx?_of_nodup {steps : List TimelineStepId} (hnodup : steps.Nodup)
    (h : steps[position]? = some stepId) :
    steps.findIdx? (· = stepId) = some position := by
  obtain ⟨hlt, hfound⟩ := List.getElem?_eq_some_iff.1 h
  apply findIdx?_eq_some_iff_getElem.2
  refine ⟨hlt, decide_eq_true hfound, fun j hj => ?_⟩
  rw [decide_eq_true_eq, ← hfound]
  exact fun heq => absurd ((hnodup.getElem_inj_iff).1 heq) hj.ne

theorem findIdx?_of_not_mem {steps : List TimelineStepId} (h : stepId ∉ steps) :
    steps.findIdx? (· = stepId) = none := by
  apply findIdx?_eq_none_iff.2
  intro other hother
  exact decide_eq_false fun heq => h (heq ▸ hother)

section
variable {view : TimelineView}

theorem Consistent.seek {branch : TimelineBranchSummary}
    (h : view.Consistent)
    (hone : view.StepsOnOneBranch thread) (hbranch : view.branch thread branchId = some branch)
    (hmem : stepId ∈ branch.steps) : ∃ state,
      view.resolveSeekTarget thread stepId = some ⟨thread, branchId, some stepId, state⟩ := by
  obtain ⟨step, hstep⟩ := isSome_iff_exists.1 (h.known hbranch hmem)
  obtain ⟨hid, hbefore, branch', hbranch', hmem'⟩ := h.placed hstep
  have hsome : step.cursorState.isSome := by
    unfold TimelineStepSummary.cursorState
    rw [isSome_or, hbefore]
    exact Bool.or_true _
  obtain ⟨state, hstate⟩ := isSome_iff_exists.1 hsome
  refine ⟨state, ?_⟩
  unfold resolveSeekTarget
  rw [hstep, hone hbranch hbranch' hmem hmem', ← hid]
  simp only [bind, Option.bind, hstate]

theorem resolveUndoTarget_eq_some (h : view.resolveUndoTarget thread = some target) :
    ∃ status branchId stepId branch position, view.status thread = some status ∧
      status.currentBranchId = some branchId ∧ status.currentStepId = some stepId ∧
      view.branch thread branchId = some branch ∧ branch.steps[position]? = some stepId ∧
      (position = 0 ∧ target.branchId = branchId ∧ target.stepId = branch.forkedFromStepId ∨
        ∃ previous, 0 < position ∧ branch.steps[position - 1]? = some previous ∧
          view.resolveSeekTarget thread previous = some target) := by
  unfold resolveUndoTarget at h
  obtain ⟨status, hstatus, h⟩ := bind_eq_some_iff.1 h
  obtain ⟨branchId, hbranchId, h⟩ := bind_eq_some_iff.1 h
  obtain ⟨stepId, hstepId, h⟩ := bind_eq_some_iff.1 h
  obtain ⟨branch, hbranch, h⟩ := bind_eq_some_iff.1 h
  obtain ⟨position, hposition, h⟩ := bind_eq_some_iff.1 h
  refine ⟨status, branchId, stepId, branch, position, hstatus, hbranchId, hstepId, hbranch,
    findIdx?_eq_some hposition, ?_⟩
  by_cases hzero : position = 0
  · rw [if_pos hzero] at h
    obtain ⟨step, hstep, h⟩ := bind_eq_some_iff.1 h
    obtain ⟨state, hstate, h⟩ := bind_eq_some_iff.1 h
    obtain rfl := some.inj h
    exact .inl ⟨hzero, rfl, rfl⟩
  · rw [if_neg hzero] at h
    obtain ⟨previous, hprevious, h⟩ := bind_eq_some_iff.1 h
    exact .inr ⟨previous, Nat.pos_of_ne_zero hzero, hprevious, h⟩

theorem resolveRedoTarget_of {status : TimelineThreadStatus}
    {branch : TimelineBranchSummary} (hstatus : view.status thread = some status)
    (hbranchId : status.currentBranchId = some branchId)
    (hbranch : view.branch thread branchId = some branch)
    (hposition : ((status.currentStepId.bind fun current =>
      branch.steps.findIdx? (· = current)).map (· + 1)).getD 0 = position)
    (hstep : branch.steps[position]? = some stepId) :
    view.resolveRedoTarget thread = view.resolveSeekTarget thread stepId := by
  unfold resolveRedoTarget
  rw [hstatus]
  simp only [bind, Option.bind, hbranchId, hbranch]
  have hnext := hposition ▸ hstep
  unfold Option.bind at hnext
  rw [hnext]

/-- A redo after an undo returns to the step that the cursor was on. -/
theorem redo_undo (hconsistent : view.Consistent)
    (hone : view.StepsOnOneBranch thread) (hforked : view.ForkedFromOthers thread)
    (hundo : view.resolveUndoTarget thread = some target) (opId : TimelineOperationId)
    (hbody : envelope.body = .cursorMoved move) (hthread : move.thread = thread)
    (hbranchId : move.branchId = target.branchId) (hstepId : move.toStepId = target.stepId) :
    ∃ status redone, view.status thread = some status ∧
      (view.push ⟨opId, envelope⟩).resolveRedoTarget thread = some redone ∧
      redone.stepId = status.currentStepId ∧ redone.stepId.isSome ∧
      some redone.branchId = status.currentBranchId := by
  obtain ⟨status, branchId, stepId, branch, position, hstatus, hcurrent, hstep, hbranch, hat,
    htarget⟩ := resolveUndoTarget_eq_some hundo
  have hmem : stepId ∈ branch.steps := mem_of_getElem? hat
  obtain ⟨state, hseek⟩ := hconsistent.seek hone hbranch hmem
  have hview : view.push ⟨opId, envelope⟩ =
      ({ view with operationIds := view.operationIds ++ [opId] }.ensureBranch thread
        target.branchId).setThreadCursor thread (some target.branchId) target.stepId
        (some move.toState) opId := by
    unfold TimelineView.push applyOperation
    rw [hbody, ← hthread, ← hbranchId, ← hstepId]
  have hon : target.branchId = branchId := by
    rcases htarget with ⟨_, hon, _⟩ | ⟨previous, _, hprevious, hprevseek⟩
    · exact hon
    · obtain ⟨_, hseek'⟩ := hconsistent.seek hone hbranch (mem_of_getElem? hprevious)
      rw [hseek'] at hprevseek
      obtain rfl := some.inj hprevseek
      rfl
  have hposition : ((target.stepId.bind fun current =>
      branch.steps.findIdx? (· = current)).map (· + 1)).getD 0 = position := by
    rcases htarget with ⟨rfl, _, hfork⟩ | ⟨previous, hpos, hprevious, hprevseek⟩
    · rw [hfork]
      cases hfrom : branch.forkedFromStepId with
      | none => rfl
      | some origin =>
        rw [bind_some, findIdx?_of_not_mem (hforked hbranch hfrom)]
        rfl
    · obtain ⟨_, hseek'⟩ := hconsistent.seek hone hbranch (mem_of_getElem? hprevious)
      rw [hseek'] at hprevseek
      obtain rfl := some.inj hprevseek
      rw [bind_some, findIdx?_of_nodup (hconsistent.nodup hbranch) hprevious]
      exact Nat.sub_add_cancel hpos
  have hbranch' : (view.push ⟨opId, envelope⟩).branch thread branchId = some branch := by
    have hlisted : { view with operationIds := view.operationIds ++ [opId] }.branch thread
        target.branchId = some branch := hon ▸ hbranch
    rw [hview]
    have hensured := branch_modifyBranch { view with operationIds := view.operationIds ++ [opId] }
      thread target.branchId id thread branchId
    rw [if_pos ⟨rfl, hon.symm⟩, hlisted] at hensured
    exact hensured
  have hsteps : (view.push ⟨opId, envelope⟩).steps = view.steps := by
    rw [hview]
    rfl
  have hseek' : (view.push ⟨opId, envelope⟩).resolveSeekTarget thread stepId =
      some ⟨thread, branchId, some stepId, state⟩ := by
    rw [← hseek]
    unfold resolveSeekTarget TimelineView.step
    rw [hsteps]
  have hstatus' := status_setThreadCursor
    ({ view with operationIds := view.operationIds ++ [opId] }.ensureBranch thread target.branchId)
    thread (some target.branchId) target.stepId (some move.toState) opId
  rw [← hview] at hstatus'
  have hredo := resolveRedoTarget_of hstatus' (congrArg some hon) hbranch' hposition hat
  exact ⟨status, _, hstatus, hredo.trans hseek', hstep.symm, rfl, hcurrent.symm⟩

end

end Cursor

end TimelineView

section FullReplay
variable (blake3 : Bytes → ContentHash) (msgpack : TimelineMsgpack)

def storedRecords (disk : TimelineDisk) : List TimelineOperationRecord :=
  disk.ops.entries.filterMap fun entry =>
    (TimelineOperationEnvelope.decode msgpack entry.2).map fun envelope => ⟨entry.1, envelope⟩

def fullReplay (disk : TimelineDisk) : TimelineView :=
  TimelineView.empty.replay (sortOperationRecords (storedRecords msgpack disk))

variable {blake3 msgpack}

theorem mem_storedRecords :
    record ∈ storedRecords msgpack disk ↔ Stores msgpack disk record := by
  unfold storedRecords Stores
  rw [mem_filterMap]
  constructor
  · rintro ⟨⟨opId, bytes⟩, hentry, hmap⟩
    obtain ⟨envelope, hdecode, rfl⟩ := map_eq_some_iff.1 hmap
    exact ⟨bytes, Table.lookup_eq_some.2 hentry, hdecode⟩
  · rintro ⟨bytes, hlookup, hdecode⟩
    exact ⟨(record.id, bytes), Table.lookup_eq_some.1 hlookup,
      map_eq_some_iff.2 ⟨record.envelope, hdecode, rfl⟩⟩

theorem nodup_storedRecords (disk : TimelineDisk) :
    ((storedRecords msgpack disk).map (·.id)).Nodup := by
  have hsub : ∀ entries : List (TimelineOperationId × Bytes),
      List.Sublist ((entries.filterMap fun entry =>
        (TimelineOperationEnvelope.decode msgpack entry.2).map fun envelope =>
          TimelineOperationRecord.mk entry.1 envelope).map (·.id)) (entries.map Prod.fst) := by
    intro entries
    induction entries with
    | nil => exact nil_sublist _
    | cons entry entries ih =>
      rw [filterMap_cons]
      cases TimelineOperationEnvelope.decode msgpack entry.2 with
      | none => exact ih.cons _
      | some envelope => exact ih.cons_cons _
  exact disk.ops.nodup.sublist (hsub _)

theorem replayOrder_stored (disk : TimelineDisk) :
    ReplayOrder msgpack disk (sortOperationRecords (storedRecords msgpack disk)) where
  sorted := sortBy_sorted (nodup_replayKeys (nodup_storedRecords disk))
  stored := fun _ => mem_sortBy.trans mem_storedRecords

theorem rebuild_eq_fullReplay (h : Sound blake3 msgpack disk) :
    (rebuild blake3 msgpack disk).map Prod.fst = some (fullReplay msgpack disk) := by
  obtain ⟨records, disk', horder, hrebuild, _⟩ := rebuild_replays h
  rw [hrebuild, horder.unique (replayOrder_stored disk)]
  rfl

theorem fullReplay_congr (h : ∀ record, Stores msgpack disk record ↔ Stores msgpack disk' record) :
    fullReplay msgpack disk = fullReplay msgpack disk' := by
  have horder : ReplayOrder msgpack disk (sortOperationRecords (storedRecords msgpack disk')) :=
    ⟨(replayOrder_stored disk').sorted, fun record =>
      ((replayOrder_stored disk').stored record).trans (h record).symm⟩
  unfold fullReplay
  rw [(replayOrder_stored disk).unique horder]

theorem fullReplay_write (hfree : CollisionFree blake3 (calls ++ [.write bytes]))
    (hdecode : TimelineOperationEnvelope.decode msgpack bytes = some envelope)
    (hlast : ∀ record ∈ storedRecords msgpack (performAll blake3 msgpack calls),
      operationReplayKey record <
        operationReplayKey ⟨TimelineOperationId.forBytes blake3 bytes, envelope⟩) :
    fullReplay msgpack (performAll blake3 msgpack (calls ++ [.write bytes])) =
      (fullReplay msgpack (performAll blake3 msgpack calls)).push
        ⟨TimelineOperationId.forBytes blake3 bytes, envelope⟩ := by
  have hold : ReplayOrder msgpack (performAll blake3 msgpack calls)
      (sortOperationRecords (storedRecords msgpack (performAll blake3 msgpack calls))) :=
    replayOrder_stored _
  have hfree' : CollisionFree blake3 calls := fun first second hfirst hsecond =>
    hfree first second (mem_append_left _ hfirst) (mem_append_left _ hsecond)
  have horder : ReplayOrder msgpack (performAll blake3 msgpack (calls ++ [.write bytes]))
      (sortOperationRecords (storedRecords msgpack (performAll blake3 msgpack calls)) ++
        [⟨TimelineOperationId.forBytes blake3 bytes, envelope⟩]) := by
    constructor
    · apply pairwise_append.2
      refine ⟨hold.sorted, pairwise_singleton _ _, ?_⟩
      intro record hrecord last hmem
      rw [mem_singleton.1 hmem]
      exact hlast record (mem_sortBy.1 hrecord)
    · intro record
      rw [mem_append, mem_singleton, hold.stored, stores_iff_written hfree',
        stores_iff_written hfree]
      constructor
      · rintro (⟨written, hwritten, hrest⟩ | rfl)
        · exact ⟨written, mem_append_left _ hwritten, hrest⟩
        · exact ⟨bytes, mem_append_right _ (mem_singleton_self _), rfl, hdecode⟩
      · rintro ⟨written, hwritten, hid, henvelope⟩
        rcases mem_append.1 hwritten with hwritten | hwritten
        · exact .inl ⟨written, hwritten, hid, henvelope⟩
        · obtain rfl := TimelineCall.write.inj (mem_singleton.1 hwritten)
          rw [hdecode] at henvelope
          have henv := some.inj henvelope
          cases record
          cases hid
          cases henv
          exact .inr rfl
  unfold fullReplay
  rw [← horder.unique (replayOrder_stored _), TimelineView.replay_append]
  rfl

end FullReplay

/-- A rebuild gives the replay of all stored operations, whether or not it goes on from a checkpoint
and whatever the order of the writes was, and in that view a redo takes an undo back. -/
theorem rebuild_after_calls (blake3 : Bytes → ContentHash) (msgpack : TimelineMsgpack)
    (calls : List TimelineCall) :
    (rebuild blake3 msgpack (performAll blake3 msgpack calls)).map Prod.fst =
        some (fullReplay msgpack (performAll blake3 msgpack calls)) ∧
      (∀ calls', CollisionFree blake3 (calls ++ calls') →
        (∀ bytes, .write bytes ∈ calls ↔ .write bytes ∈ calls') →
        (rebuild blake3 msgpack (performAll blake3 msgpack calls')).map Prod.fst =
          (rebuild blake3 msgpack (performAll blake3 msgpack calls)).map Prod.fst) ∧
      ∀ thread target bytes envelope move,
        (fullReplay msgpack (performAll blake3 msgpack calls)).StepsOnOneBranch thread →
        (fullReplay msgpack (performAll blake3 msgpack calls)).ForkedFromOthers thread →
        (fullReplay msgpack (performAll blake3 msgpack calls)).resolveUndoTarget thread =
          some target →
        CollisionFree blake3 (calls ++ [.write bytes]) →
        TimelineOperationEnvelope.decode msgpack bytes = some envelope →
        envelope.body = .cursorMoved move → move.thread = thread →
        move.branchId = target.branchId → move.toStepId = target.stepId →
        (∀ record ∈ storedRecords msgpack (performAll blake3 msgpack calls),
          operationReplayKey record <
            operationReplayKey ⟨TimelineOperationId.forBytes blake3 bytes, envelope⟩) →
        ∃ status view redone,
          (fullReplay msgpack (performAll blake3 msgpack calls)).status thread = some status ∧
          (rebuild blake3 msgpack (performAll blake3 msgpack (calls ++ [.write bytes]))).map Prod.fst =
            some view ∧
          view.resolveRedoTarget thread = some redone ∧
          redone.stepId = status.currentStepId ∧ redone.stepId.isSome ∧
          some redone.branchId = status.currentBranchId := by
  have hrebuild : ∀ calls, (rebuild blake3 msgpack (performAll blake3 msgpack calls)).map Prod.fst =
      some (fullReplay msgpack (performAll blake3 msgpack calls)) :=
    fun calls => rebuild_eq_fullReplay (performAll_sound calls)
  refine ⟨hrebuild calls, ?_, ?_⟩
  · intro calls' hfree hsame
    rw [hrebuild, hrebuild]
    have hleft : CollisionFree blake3 calls := fun first second hfirst hsecond =>
      hfree first second (mem_append_left _ hfirst) (mem_append_left _ hsecond)
    have hright : CollisionFree blake3 calls' := fun first second hfirst hsecond =>
      hfree first second (mem_append_right _ hfirst) (mem_append_right _ hsecond)
    apply congrArg some
    apply fullReplay_congr
    intro record
    rw [stores_iff_written hright, stores_iff_written hleft]
    simp only [hsame]
  · intro thread target bytes envelope move hone hforked hundo hfree hdecode hbody hthread hbranchId
      hstepId hlast
    have hconsistent : (fullReplay msgpack (performAll blake3 msgpack calls)).Consistent :=
      TimelineView.consistent_empty.replay _
    obtain ⟨status, redone, hstatus, hredo, hrest⟩ :=
      TimelineView.redo_undo hconsistent hone hforked hundo
        (TimelineOperationId.forBytes blake3 bytes) hbody hthread hbranchId hstepId
    refine ⟨status, _, redone, hstatus, ?_, hredo, hrest⟩
    rw [hrebuild, fullReplay_write hfree hdecode hlast]

section Example

def byteHash (bytes : Bytes) : ContentHash := ⟨Vector.replicate 32 (bytes.getLast?.getD 0)⟩

def byteState (n : UInt8) : StateId := ⟨Vector.replicate 32 n⟩

def byteMsgpack : TimelineMsgpack where
  schemaVersion _ := some 1
  wire bytes := some ⟨1, if bytes = [3] then "cursor_moved" else "tool_call_started", [], bytes⟩
  toolCallStarted bytes := some {
    thread := "main", stepId := ⟨if bytes = [1] then "one" else "two"⟩, branchId := ⟨"main"⟩
    parentStepId := none, native := ⟨"shell", none, none, "call"⟩, toolName := "shell"
    beforeState := byteState 0, payload := none
    startedAtMs := if bytes = [1] then 1 else 2 }
  toolCallFinished _ := none
  cursorMoved _ := some {
    thread := "main", branchId := ⟨"main"⟩, fromStepId := some ⟨"two"⟩, toStepId := some ⟨"one"⟩
    fromState := byteState 0, toState := byteState 0, reason := .undo, movedAtMs := 3 }
  branchCreated _ := none

def twoSteps : List TimelineCall := [.write [2], .rebuild, .write [1]]

theorem byteHash_collisionFree (h : ∀ bytes, .write bytes ∈ calls → bytes ∈ [[1], [2], [3]]) :
    CollisionFree byteHash calls := by
  have hall : ∀ first ∈ [[1], [2], [3]], ∀ second ∈ [[1], [2], [3]],
      TimelineOperationId.forBytes byteHash first = TimelineOperationId.forBytes byteHash second →
      first = second := by decide +kernel
  exact fun first second hfirst hsecond => hall first (h first hfirst) second (h second hsecond)

theorem twoSteps_branch
    (h : (fullReplay byteMsgpack (performAll byteHash byteMsgpack twoSteps)).branch "main" branchId =
      some branch) : branchId = ⟨"main"⟩ ∧ branch.forkedFromStepId = none := by
  have hentries : (fullReplay byteMsgpack (performAll byteHash byteMsgpack twoSteps)).branches.entries =
      [(⟨"main", ⟨"main"⟩⟩,
        ⟨"main", ⟨"main"⟩, none, none, none, none, none, [], [⟨"one"⟩, ⟨"two"⟩]⟩)] := by
    decide +kernel
  have hmem := Table.lookup_eq_some.1 h
  rw [hentries, mem_singleton] at hmem
  obtain ⟨hkey, rfl⟩ := Prod.mk.inj hmem
  exact ⟨congrArg TimelineBranchKey.branchId hkey, rfl⟩

/-- The late write of the first step does not matter, and the cursor comes back to the second. -/
theorem rebuild_after_calls_twoSteps :
    (rebuild byteHash byteMsgpack (performAll byteHash byteMsgpack [.write [1], .write [2]])).map
        Prod.fst = (rebuild byteHash byteMsgpack (performAll byteHash byteMsgpack twoSteps)).map
          Prod.fst ∧
      ∃ status view redone,
        (fullReplay byteMsgpack (performAll byteHash byteMsgpack twoSteps)).status "main" =
          some status ∧
        (rebuild byteHash byteMsgpack (performAll byteHash byteMsgpack
          (twoSteps ++ [.write [3]]))).map Prod.fst = some view ∧
        view.resolveRedoTarget "main" = some redone ∧
        redone.stepId = status.currentStepId ∧ redone.stepId.isSome ∧
        some redone.branchId = status.currentBranchId := by
  have hlaw := rebuild_after_calls byteHash byteMsgpack twoSteps
  constructor
  · apply hlaw.2.1
    · apply byteHash_collisionFree
      simp [twoSteps]
    · simp [twoSteps, or_comm]
  · refine hlaw.2.2 "main" ⟨"main", ⟨"main"⟩, some ⟨"one"⟩, byteState 0⟩ [3] ⟨1, .cursorMoved, [],
      .cursorMoved ⟨"main", ⟨"main"⟩, some ⟨"two"⟩, some ⟨"one"⟩, byteState 0, byteState 0, .undo, 3⟩⟩
      _ ?_ ?_ (by decide +kernel) ?_ rfl rfl rfl rfl rfl (by decide +kernel)
    · intro first second branch branch' stepId hfirst hsecond _ _
      rw [(twoSteps_branch hfirst).1, (twoSteps_branch hsecond).1]
    · intro branchId branch stepId hbranch hfork
      rw [(twoSteps_branch hbranch).2] at hfork
      cases hfork
    · apply byteHash_collisionFree
      simp [twoSteps]

end Example

end Heddle.Timeline
