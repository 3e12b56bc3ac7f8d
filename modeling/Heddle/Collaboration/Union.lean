import Heddle.Collaboration.Repository

namespace Heddle
open Heddle.Lib List

variable {τ : CollaborationLeaves}

section Validity
variable [LinearOrder ι] {operation : CollaborationOperationEnvelope τ ι δ}

theorem validate_root (h : operation.validate = .ok ()) :
    operation.body.isRoot = true ↔ operation.parents = [] := by
  simp only [CollaborationOperationEnvelope.validate, bind_eq_ok, refuse_eq_ok, not_and,
    not_not] at h
  obtain ⟨_, _, _, _, _, hroot, _, hrest, _⟩ := h
  exact ⟨hroot, fun hnil => by_contra fun hnot => hrest hnot hnil⟩

theorem validate_selected (h : operation.validate = .ok ())
    (hbody : operation.body = .resolveConflict competing selected) :
    selected ∈ operation.parents := by
  simp only [CollaborationOperationEnvelope.validate, bind_eq_ok, refuse_eq_ok, not_exists,
    not_and, not_not, hbody] at h
  obtain ⟨_, _, _, _, _, _, _, _, _, hcompeting, h⟩ := h
  simp only [CollaborationOperationBody.validate, bind_eq_ok, refuse_eq_ok, not_or, not_not] at h
  obtain ⟨_, ⟨_, hselected⟩, _⟩ := h
  exact hcompeting selected hselected

end Validity

def CausallyClosed (ops : List (DecodedCollaborationOperation τ ι δ)) : Prop :=
  ∀ op ∈ ops, ∀ parent ∈ op.operation.parents, ∃ found ∈ ops, found.operationId = parent

theorem Materializes.makes [LinearOrder ι] [LinearOrder δ] [ToString ι] [ToString δ]
    {delivered byId : List (DecodedCollaborationOperation τ ι δ)}
    (h : Materializes delivered byId result) (hop : op ∈ visibleOperations byId) :
    ∃ rootOperation root, MakesDiscussion byId (discussionGroup byId op.operation.discussionId)
      rootOperation root := by
  have hgroup : discussionGroup byId op.operation.discussionId ≠ [] :=
    ne_nil_of_mem (mem_filter.2 ⟨hop, decide_eq_true rfl⟩)
  obtain ⟨_, _, _, hall⟩ := exists_materializes_iff.1 ⟨result, h⟩
  obtain ⟨discussion, hok⟩ := hall _ hgroup
  obtain ⟨rootOperation, root, hmakes, _⟩ := materializeDiscussion_ok hok
  exact ⟨rootOperation, root, hmakes⟩

/-- A causally closed part of the operations that was accepted on its own. -/
structure Replica [LinearOrder ι] [LinearOrder δ] [ToString ι] [ToString δ]
    (ops byId all byIdAll : List (DecodedCollaborationOperation τ ι δ)) : Prop where
  valid : ∀ op ∈ ops, op.operation.validate = .ok ()
  closed : CausallyClosed ops
  sub : ∀ op ∈ ops, op ∈ all
  accepted : ∃ result, Materializes ops byId result
  indexes : Indexes byIdAll all

namespace Replica
variable [LinearOrder ι] [LinearOrder δ] [ToString ι] [ToString δ]
  {ops byId all byIdAll : List (DecodedCollaborationOperation τ ι δ)}

section
variable (h : Replica ops byId all byIdAll)
include h

theorem own : Indexes byId ops :=
  (exists_materializes_iff.1 h.accepted).2.1

theorem find (hop : op ∈ ops) :
    findOperation byId op.operationId = some op ∧ findOperation byIdAll op.operationId = some op :=
  ⟨h.own.find_iff.2 ⟨hop, rfl⟩, h.indexes.find_iff.2 ⟨h.sub op hop, rfl⟩⟩

theorem within :
    (causalGraph byId).Within (causalGraph byIdAll) := by
  intro v parents hv
  obtain ⟨op, hop, rfl⟩ := Option.map_eq_some_iff.1 hv
  obtain ⟨hmem, rfl⟩ := h.own.find_iff.1 hop
  exact causalGraph_eq (h.find hmem).2

theorem closedGraph : (causalGraph byId).Closed := by
  rintro v p ⟨parents, hv, hp⟩
  obtain ⟨op, hop, rfl⟩ := Option.map_eq_some_iff.1 hv
  exact h.own.available_iff.2 (h.closed op (h.own.find_iff.1 hop).1 p hp)

theorem available (hop : op ∈ ops) :
    (causalGraph byId).Available op.operationId := h.own.available_iff.2 ⟨op, hop, rfl⟩

theorem precedes_iff (hop : op ∈ ops) :
    precedes byIdAll ancestor op = true ↔ precedes byId ancestor op = true := by
  rw [Heddle.precedes_iff (h.find hop).1, Heddle.precedes_iff (h.find hop).2]
  exact h.within.precedes_iff h.closedGraph (h.available hop)

theorem visible_iff (hop : op ∈ ops) :
    op ∈ visibleOperations byIdAll ↔ op ∈ visibleOperations byId := by
  rw [mem_visibleOperations h.own, mem_visibleOperations h.indexes, and_iff_right hop,
    and_iff_right (h.sub op hop)]
  exact ⟨fun hg => hg.restrict h.within h.closedGraph (h.available hop), fun hg => hg.mono h.within⟩

theorem visible (hop : op ∈ visibleOperations byId) :
    op ∈ visibleOperations byIdAll :=
  (h.visible_iff ((mem_visibleOperations h.own).1 hop).1).2 hop

theorem makes (hop : op ∈ visibleOperations byId) :
    ∃ rootOperation root, MakesDiscussion byId (discussionGroup byId op.operation.discussionId)
      rootOperation root := by
  obtain ⟨_, haccepted⟩ := h.accepted
  exact haccepted.makes hop

theorem checkParents (hop : op ∈ visibleOperations byId) :
    Heddle.checkParents byIdAll op = .ok () := by
  obtain ⟨_, _, hparents, _⟩ := exists_materializes_iff.1 h.accepted
  rw [checkParents_ok_iff h.indexes]
  intro parent hparent
  obtain ⟨found, hfound, hid⟩ := (checkParents_ok_iff h.own).1 (hparents op hop) parent hparent
  exact ⟨found, h.sub found hfound, hid⟩

theorem outcome (hop : op ∈ ops) :
    resolutionOutcome byIdAll op.operationId [] = resolutionOutcome byId op.operationId [] := by
  apply resolutionOutcome_congr (P := fun v => (causalGraph byId).Available v)
  · intro v hv
    obtain ⟨found, hfound, rfl⟩ := h.own.available_iff.1 hv
    rw [(h.find hfound).1, (h.find hfound).2]
  · intro v found competing selected _ hfound hbody
    obtain ⟨hmem, _⟩ := h.own.find_iff.1 hfound
    have hselected := validate_selected (h.valid found hmem) hbody
    exact h.own.available_iff.2 (h.closed found hmem selected hselected)
  · exact h.available hop

end

end Replica

section Groups
variable {op rootOperation : DecodedCollaborationOperation τ ι δ} {root : DiscussionRoot τ}
  {byId delivered all ops : List (DecodedCollaborationOperation τ ι δ)} {d : δ}

theorem not_root_of_isStateOperation (h : op.isStateOperation = true) :
    op.operation.body.root? = none := by
  unfold DecodedCollaborationOperation.isStateOperation at h
  split at h
  · rw [‹op.operation.body = _›]
    rfl
  · rw [‹op.operation.body = _›]
    rfl
  · rw [‹op.operation.body = _›]
    rfl
  · cases h

theorem mem_rootOperations : op ∈ rootOperations ops ↔ op ∈ ops ∧ op.operation.parents = [] := by
  rw [rootOperations, List.mem_filter, List.isEmpty_iff]

variable [LinearOrder ι]

theorem root_visible (h : Indexes byId delivered) (hop : op ∈ delivered)
    (hroot : op.operation.parents = []) : op ∈ visibleOperations byId := by
  refine (mem_visibleOperations h).2 ⟨hop, .intro (causalGraph_eq (h.find_iff.2 ⟨hop, rfl⟩)) ?_⟩
  rw [hroot]
  exact fun _ hp => absurd hp not_mem_nil

theorem Indexes.injective (h : Indexes byId delivered) (hop : op ∈ delivered)
    (hop' : op' ∈ delivered) (hid : op.operationId = op'.operationId) : op = op' := by
  have hfind := h.find_iff.2 ⟨hop, hid⟩
  rw [h.find_iff.2 ⟨hop', rfl⟩] at hfind
  exact (Option.some.inj hfind).symm

theorem mem_stateOperations (hbody : rootOperation.operation.body.root? = some root)
    (hunique : ∀ op ∈ ops, op.operationId = rootOperation.operationId → op = rootOperation) :
    op ∈ sortById ((ops.filter fun op => op.operationId ≠ rootOperation.operationId).filter fun op =>
      op.isStateOperation) ↔ op ∈ ops ∧ op.isStateOperation = true := by
  rw [mem_sortById, mem_filter, mem_filter, decide_eq_true_iff]
  refine and_congr_left fun hstate => and_iff_left_of_imp fun hop hid => ?_
  have hnone := not_root_of_isStateOperation hstate
  rw [hunique op hop hid, hbody] at hnone
  cases hnone

theorem mem_discussionGroup [LinearOrder δ] : op ∈ discussionGroup byId d ↔
    op ∈ visibleOperations byId ∧ op.operation.discussionId = d := by
  rw [discussionGroup, mem_filter, decide_eq_true_iff]

variable [ToString ι]

theorem MakesDiscussion.root_eq (h : MakesDiscussion all ops rootOperation root) (hop : op ∈ ops)
    (hroot : op.operation.parents = []) : op = rootOperation := by
  have hmem := mem_rootOperations.2 ⟨hop, hroot⟩
  rw [h.roots] at hmem
  exact mem_singleton.1 hmem

theorem MakesDiscussion.root_mem (h : MakesDiscussion all ops rootOperation root) :
    rootOperation ∈ ops ∧ rootOperation.operation.parents = [] := by
  have hmem : rootOperation ∈ rootOperations ops := h.roots ▸ mem_singleton_self _
  exact mem_rootOperations.1 hmem

end Groups

section Union
variable {opsA byIdA opsB byIdB all byIdAll delivered byId ops :
  List (DecodedCollaborationOperation τ ι δ)}

def SingleRooted (ops ops' : List (DecodedCollaborationOperation τ ι δ)) : Prop :=
  ∀ op ∈ ops, ∀ op' ∈ ops', op.operation.parents = [] → op'.operation.parents = [] →
    op.operation.discussionId = op'.operation.discussionId → op.operationId = op'.operationId

theorem SingleRooted.symm (h : SingleRooted opsA opsB) : SingleRooted opsB opsA :=
  fun op hop op' hop' hroot hroot' hdiscussion =>
    (h op' hop' op hop hroot' hroot hdiscussion.symm).symm

variable [LinearOrder ι] [LinearOrder δ] [ToString ι] [ToString δ]

theorem Materializes.singleRooted (h : Materializes delivered byId result) :
    SingleRooted delivered delivered := by
  intro op hop op' hop' hroot hroot' hdiscussion
  have hvisible := root_visible h.indexes hop hroot
  have hvisible' := root_visible h.indexes hop' hroot'
  obtain ⟨rootOperation, root, hmakes⟩ := h.makes hvisible
  rw [hmakes.root_eq (mem_discussionGroup.2 ⟨hvisible, rfl⟩) hroot,
    hmakes.root_eq (mem_discussionGroup.2 ⟨hvisible', hdiscussion.symm⟩) hroot']

theorem Replica.singleRooted (h : Replica opsA byIdA all byIdAll) : SingleRooted opsA opsA := by
  obtain ⟨_, haccepted⟩ := h.accepted
  exact haccepted.singleRooted

theorem Replica.outcome_ok (h : Replica opsA byIdA all byIdAll) (hop : op ∈ opsA)
    (hgroup : op ∈ discussionGroup byIdAll d) (hstate : op.isStateOperation = true)
    (hmaximal : ∀ other ∈ discussionGroup byIdAll d, other.isStateOperation = true →
      op.operationId = other.operationId ∨ ¬ precedes byIdAll op.operationId other = true) :
    ∃ outcome, resolutionOutcome byIdAll op.operationId [] = .ok outcome := by
  obtain ⟨hvisible, rfl⟩ := mem_discussionGroup.1 hgroup
  have hown := (h.visible_iff hop).1 hvisible
  obtain ⟨rootOperation, root, hmakes⟩ := h.makes hown
  have hmem : ∀ other ∈ discussionGroup byIdA op.operation.discussionId, other ∈ opsA :=
    fun other hother => ((mem_visibleOperations h.own).1 (mem_discussionGroup.1 hother).1).1
  have hunique : ∀ other ∈ discussionGroup byIdA op.operation.discussionId,
      other.operationId = rootOperation.operationId → other = rootOperation :=
    fun other hother => h.own.injective (hmem other hother) (hmem _ hmakes.root_mem.1)
  rw [h.outcome hop]
  apply hmakes.outcomes
  rw [mem_maximalOperations, mem_stateOperations hmakes.body hunique]
  refine ⟨⟨mem_discussionGroup.2 ⟨hown, rfl⟩, hstate⟩, fun other hother => ?_⟩
  obtain ⟨hother, hstate'⟩ := (mem_stateOperations hmakes.body hunique).1 hother
  obtain ⟨hvisible', hdiscussion⟩ := mem_discussionGroup.1 hother
  rw [← h.precedes_iff (hmem other hother)]
  exact hmaximal other (mem_discussionGroup.2 ⟨h.visible hvisible', hdiscussion⟩) hstate'

structure ReplicaUnion (opsA byIdA opsB byIdB all byIdAll :
    List (DecodedCollaborationOperation τ ι δ)) : Prop where
  left : Replica opsA byIdA all byIdAll
  right : Replica opsB byIdB all byIdAll
  covers : ∀ op ∈ all, op ∈ opsA ∨ op ∈ opsB

namespace ReplicaUnion

section
variable (h : ReplicaUnion opsA byIdA opsB byIdB all byIdAll)
include h

theorem symm :
    ReplicaUnion opsB byIdB opsA byIdA all byIdAll :=
  ⟨h.right, h.left, fun op hop => (h.covers op hop).symm⟩

theorem replica_of_mem (hop : op ∈ all) :
    ∃ ops byId, Replica ops byId all byIdAll ∧ op ∈ ops := by
  rcases h.covers op hop with hA | hB
  · exact ⟨opsA, byIdA, h.left, hA⟩
  · exact ⟨opsB, byIdB, h.right, hB⟩

theorem singleRooted (hsingle : SingleRooted opsA opsB) : SingleRooted all all := by
  intro op hop op' hop'
  rcases h.covers op hop with hA | hB
  · rcases h.covers op' hop' with hA' | hB'
    · exact h.left.singleRooted op hA op' hA'
    · exact hsingle op hA op' hB'
  · rcases h.covers op' hop' with hA' | hB'
    · exact hsingle.symm op hB op' hA'
    · exact h.right.singleRooted op hB op' hB'

theorem makes (hsingle : SingleRooted opsA opsB) (hreplica : Replica ops byId all byIdAll)
    (hmakes : MakesDiscussion byId (discussionGroup byId d) rootOperation root) :
    MakesDiscussion byIdAll (discussionGroup byIdAll d) rootOperation root := by
  have hindexes := h.left.indexes
  have hmem : ∀ op' ∈ discussionGroup byIdAll d, op' ∈ all :=
    fun op' hop' => ((mem_visibleOperations hindexes).1 (mem_discussionGroup.1 hop').1).1
  obtain ⟨hrootGroup, hrootNil⟩ := hmakes.root_mem
  obtain ⟨hrootVisible, hrootDiscussion⟩ := mem_discussionGroup.1 hrootGroup
  have hrootMem : rootOperation ∈ discussionGroup byIdAll d :=
    mem_discussionGroup.2 ⟨hreplica.visible hrootVisible, hrootDiscussion⟩
  have hunique : ∀ op' ∈ discussionGroup byIdAll d,
      op'.operationId = rootOperation.operationId → op' = rootOperation :=
    fun op' hop' => hindexes.injective (hmem op' hop') (hmem _ hrootMem)
  have hsame : ∀ op' ∈ discussionGroup byIdAll d,
      op'.operation.parents = [] → op'.operationId = rootOperation.operationId := by
    intro op' hop' hnil
    have hdiscussion := (mem_discussionGroup.1 hop').2.trans hrootDiscussion.symm
    exact h.singleRooted hsingle op' (hmem op' hop') _ (hmem _ hrootMem) hnil hrootNil hdiscussion
  refine ⟨?_, hmakes.body, ?_, ?_, ?_⟩
  · refine perm_singleton.1 ((perm_ext_iff_of_nodup ?_ (nodup_singleton _)).2 ?_)
    · exact ((visibleOperations_nodup hindexes).filter _).filter _
    · intro op'
      rw [mem_rootOperations, mem_singleton]
      constructor
      · rintro ⟨hop', hnil⟩
        exact hunique op' hop' (hsame op' hop' hnil)
      · rintro rfl
        exact ⟨hrootMem, hrootNil⟩
  · intro op' hop' hne
    obtain ⟨_, _, hreplica', hmem'⟩ := h.replica_of_mem (hmem op' hop')
    have hvalid := validate_root (hreplica'.valid op' hmem')
    rw [← Option.not_isSome_iff_eq_none, root?_isSome, hvalid]
    exact fun hnil => hne (hsame op' hop' hnil)
  · intro op' hop'
    rw [mem_maximalOperations, mem_stateOperations hmakes.body hunique] at hop'
    obtain ⟨⟨hgroup, hstate⟩, hmaximal⟩ := hop'
    obtain ⟨_, _, hreplica', hmem'⟩ := h.replica_of_mem (hmem op' hgroup)
    refine hreplica'.outcome_ok hmem' hgroup hstate fun other hother hstate' => ?_
    exact hmaximal other ((mem_stateOperations hmakes.body hunique).2 ⟨hother, hstate'⟩)
  · exact exists_maximal hindexes (ne_nil_of_mem hrootMem) hmem
      (discussionGroup_ordered hindexes d)

theorem accepted_iff (hnodup : (all.map DecodedCollaborationOperation.operationId).Nodup) :
    (∃ result, Materializes all byIdAll result) ↔ SingleRooted opsA opsB := by
  constructor
  · rintro ⟨result, haccepted⟩ op hop op' hop'
    exact haccepted.singleRooted op (h.left.sub op hop) op' (h.right.sub op' hop')
  · intro hsingle
    refine exists_materializes_iff.2 ⟨hnodup, h.left.indexes, fun op hop => ?_, fun d hne => ?_⟩
    · obtain ⟨_, _, hreplica, hmem⟩ := h.replica_of_mem ((mem_visibleOperations h.left.indexes).1 hop).1
      exact hreplica.checkParents ((hreplica.visible_iff hmem).1 hop)
    · obtain ⟨op, hgroup⟩ := exists_mem_of_ne_nil _ hne
      obtain ⟨hvisible, rfl⟩ := mem_discussionGroup.1 hgroup
      obtain ⟨_, _, hreplica, hmem⟩ :=
        h.replica_of_mem ((mem_visibleOperations h.left.indexes).1 hvisible).1
      have hown := (hreplica.visible_iff hmem).1 hvisible
      obtain ⟨_, _, hmakes⟩ := hreplica.makes hown
      exact (h.makes hsingle hreplica hmakes).ok _

end

end ReplicaUnion

end Union

end Heddle
