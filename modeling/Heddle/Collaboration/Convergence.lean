import Heddle.Collaboration.Union

namespace Heddle
open Heddle.Lib List

variable {τ : CollaborationLeaves}

section Graph
variable [LinearOrder ι] {delivered byId : List (DecodedCollaborationOperation τ ι δ)} {v w : ι}

section
variable (h : Indexes byId delivered)
  (hnodup : (delivered.map DecodedCollaborationOperation.operationId).Nodup)
include h hnodup

theorem Indexes.find_eq :
    findOperation byId v = findOperation delivered v :=
  Option.ext fun _ => h.find_iff.trans (lookupBy_eq_some_of_nodup hnodup).symm

theorem Indexes.causalGraph_eq :
    causalGraph byId = causalGraph delivered := by
  funext v
  rw [causalGraph, causalGraph, h.find_eq hnodup]

end

theorem root_not_precedes (hfind : findOperation byId op.operationId = some op)
    (hroot : op.operation.parents = []) : ¬ (causalGraph byId).Precedes w op.operationId := by
  intro hp
  obtain ⟨p, hstep, _⟩ := Relation.TransGen.head'_iff.1 hp
  rw [step_causalGraph hfind, hroot] at hstep
  exact not_mem_nil hstep

end Graph

section Result
variable [LinearOrder ι] [ToString ι] [ToString δ]
  {delivered byId all ops : List (DecodedCollaborationOperation τ ι δ)}

theorem MakesDiscussion.turns_eq (h : MakesDiscussion all ops rootOperation root)
    (hok : materializeDiscussion all discussionId ops = .ok discussion) :
    discussion.turns = discussionTurns rootOperation root ops := by
  obtain ⟨rootOperation', root', hmakes, hturns, _⟩ := materializeDiscussion_ok hok
  obtain ⟨hmem, hnil⟩ := hmakes.root_mem
  obtain rfl := h.root_eq hmem hnil
  obtain rfl := Option.some.inj (hmakes.body.symm.trans h.body)
  exact hturns

theorem Materializes.turns_ordered [LinearOrder δ] (h : Materializes delivered byId result)
    (hmem : (discussionId, discussion) ∈ result.discussions) :
    discussion.turns.Pairwise fun earlier later =>
      ¬ (causalGraph byId).Precedes later.1 earlier.1 := by
  obtain ⟨_, hok⟩ := h.discussion_iff.1 hmem
  obtain ⟨rootOperation, root, hmakes, hturns, _⟩ := materializeDiscussion_ok hok
  obtain ⟨hgroup, hnil⟩ := hmakes.root_mem
  have hdelivered := ((mem_visibleOperations h.indexes).1 (mem_discussionGroup.1 hgroup).1).1
  rw [hturns]
  apply discussionTurns_ordered
  · intro v
    exact root_not_precedes (h.indexes.find_iff.2 ⟨hdelivered, rfl⟩) hnil
  · exact discussionGroup_ordered h.indexes discussionId

end Result

section Merge
variable [LinearOrder ι] [LinearOrder δ] [ToString ι] [ToString δ]
  {opsA byIdA opsB byIdB all byIdAll : List (DecodedCollaborationOperation τ ι δ)}

theorem ReplicaUnion.turns_kept (h : ReplicaUnion opsA byIdA opsB byIdB all byIdAll)
    (hall : Materializes all byIdAll result) (hA : Materializes opsA byIdA resultA)
    (hmem : (discussionId, discussion) ∈ resultA.discussions) :
    ∃ merged, (discussionId, merged) ∈ result.discussions ∧
      ∀ turn ∈ discussion.turns, turn ∈ merged.turns := by
  obtain ⟨_, hok⟩ := hA.discussion_iff.1 hmem
  obtain ⟨rootOperation, root, hmakes, hturns, _⟩ := materializeDiscussion_ok hok
  have hsingle := (h.accepted_iff hall.nodup).1 ⟨result, hall⟩
  have hmakes' := h.makes hsingle h.left hmakes
  obtain ⟨merged, hmerged⟩ := hmakes'.ok discussionId
  have hne := ne_nil_of_mem hmakes'.root_mem.1
  refine ⟨merged, hall.discussion_iff.2 ⟨hne, hmerged⟩, fun turn hturn => ?_⟩
  rw [hturns, mem_discussionTurns] at hturn
  rw [hmakes'.turns_eq hmerged, mem_discussionTurns]
  refine hturn.imp_right ?_
  rintro ⟨op, hop, hne, hturn⟩
  obtain ⟨hvisible, hdiscussion⟩ := mem_discussionGroup.1 hop
  exact ⟨op, mem_discussionGroup.2 ⟨h.left.visible hvisible, hdiscussion⟩, hne, hturn⟩

/-- Two histories that were accepted merge exactly when no discussion has two roots in them. -/
theorem materialize_union {union : List (DecodedCollaborationOperation τ ι δ)}
    (hvalidA : ∀ op ∈ opsA, op.operation.validate = .ok ())
    (hvalidB : ∀ op ∈ opsB, op.operation.validate = .ok ())
    (hclosedA : CausallyClosed opsA) (hclosedB : CausallyClosed opsB)
    (hA : materializeRepositoryCollaboration opsA = .ok resultA)
    (hB : materializeRepositoryCollaboration opsB = .ok resultB)
    (hunion : ∀ op, op ∈ union ↔ op ∈ opsA ∨ op ∈ opsB) :
    ((∃ result, materializeRepositoryCollaboration union = .ok result) ↔
      (union.map DecodedCollaborationOperation.operationId).Nodup ∧ SingleRooted opsA opsB) ∧
    ∀ result, materializeRepositoryCollaboration union = .ok result →
      (∀ union' : List (DecodedCollaborationOperation τ ι δ),
        (union'.map DecodedCollaborationOperation.operationId).Nodup →
        (∀ op, op ∈ union' ↔ op ∈ opsA ∨ op ∈ opsB) →
        materializeRepositoryCollaboration union' = .ok result) ∧
      (∀ v, v ∈ result.pending ↔ (∃ op ∈ union, op.operationId = v) ∧
        ¬ (causalGraph union).Grounded v) ∧
      (∀ discussionId discussion, (discussionId, discussion) ∈ resultA.discussions ∨
        (discussionId, discussion) ∈ resultB.discussions → ∃ merged,
          (discussionId, merged) ∈ result.discussions ∧
            ∀ turn ∈ discussion.turns, turn ∈ merged.turns) ∧
      ∀ discussionId discussion, (discussionId, discussion) ∈ result.discussions →
        discussion.turns.Pairwise fun earlier later =>
          ¬ (causalGraph union).Precedes later.1 earlier.1 := by
  obtain ⟨byIdA, hA⟩ := materialize_ok_iff.1 hA
  obtain ⟨byIdB, hB⟩ := materialize_ok_iff.1 hB
  have hreplicas : ∀ {byId}, Indexes byId union →
      ReplicaUnion opsA byIdA opsB byIdB union byId := by
    intro byId hindexes
    refine ⟨⟨hvalidA, hclosedA, fun op hop => (hunion op).2 (.inl hop), ⟨_, hA⟩, hindexes⟩,
      ⟨hvalidB, hclosedB, fun op hop => (hunion op).2 (.inr hop), ⟨_, hB⟩, hindexes⟩,
      fun op => (hunion op).1⟩
  refine ⟨⟨?_, ?_⟩, fun result hresult => ?_⟩
  · rintro ⟨result, hresult⟩
    obtain ⟨byId, hresult⟩ := materialize_ok_iff.1 hresult
    have haccepted := (hreplicas hresult.indexes).accepted_iff hresult.nodup
    exact ⟨hresult.nodup, haccepted.1 ⟨result, hresult⟩⟩
  · rintro ⟨hnodup, hsingle⟩
    have hindexes : Indexes (sortById union) union :=
      ⟨sortBy_sorted hnodup, fun _ => mem_sortById⟩
    obtain ⟨result, hresult⟩ := ((hreplicas hindexes).accepted_iff hnodup).2 hsingle
    exact ⟨result, materialize_ok_iff.2 ⟨_, hresult⟩⟩
  · obtain ⟨byId, hmade⟩ := materialize_ok_iff.1 hresult
    have hunions := hreplicas hmade.indexes
    have hgraph := hmade.indexes.causalGraph_eq hmade.nodup
    rw [← hgraph]
    refine ⟨fun union' hnodup hmem => ?_, fun v => hmade.mem_pending, fun d discussion hmem => ?_,
      fun d discussion hmem => hmade.turns_ordered hmem⟩
    · rw [← hresult]
      exact materialize_congr hnodup hmade.nodup fun op => (hmem op).trans (hunion op).symm
    · rcases hmem with hmem | hmem
      · exact hunions.turns_kept hmade hA hmem
      · exact hunions.symm.turns_kept hmade hB hmem

end Merge

section Resolution
variable [LinearOrder ι] (ops : List (DecodedCollaborationOperation τ ι δ)) (d : δ)

/-- What a state operation decides, through the conflicts that it settles. -/
inductive Outcome : ι → Option (CollaborationResolution τ) → Prop
  | resolve : findOperation ops v = some op → op.operation.body = .resolve resolution →
      Outcome v (some resolution)
  | reopen : findOperation ops v = some op → op.operation.body = .reopen reason → Outcome v none
  | resolveConflict : findOperation ops v = some op →
      op.operation.body = .resolveConflict competing selected → Outcome selected r → Outcome v r

/-- The visible operations that change the state of a discussion. -/
structure StateOf (op : DecodedCollaborationOperation τ ι δ) : Prop where
  mem : op ∈ ops
  discussion : op.operation.discussionId = d
  state : op.isStateOperation = true
  visible : (causalGraph ops).Grounded op.operationId

structure MaximalState (op : DecodedCollaborationOperation τ ι δ) : Prop
    extends StateOf ops d op where
  maximal : ∀ other, StateOf ops d other →
    ¬ (causalGraph ops).Precedes op.operationId other.operationId

def Disputed : Prop := ∃ a b r s, MaximalState ops d a ∧ MaximalState ops d b ∧
  Outcome ops a.operationId r ∧ Outcome ops b.operationId s ∧ r ≠ s

/-- The resolution is that of the maximal state operations where they agree. The conflicts of the
tags are listed beside theirs. -/
structure ResolvedCausally (discussion : MaterializedDiscussion τ ι δ) : Prop where
  outcome : ∀ op, MaximalState ops d op → ∃! r, Outcome ops op.operationId r
  listed : ∀ op, StateOf ops d op →
    (op.operationId ∈ discussion.conflictOperations ↔ MaximalState ops d op ∧ Disputed ops d)
  others : ∀ v ∈ discussion.conflictOperations, ∃ op ∈ ops, op.operationId = v ∧
    (StateOf ops d op ∨ op.editedTags.isSome)
  disputed : Disputed ops d → discussion.resolution = none
  agreed : ¬ Disputed ops d → ∀ op r, MaximalState ops d op → Outcome ops op.operationId r →
    discussion.resolution = r
  untouched : (∀ op, ¬ StateOf ops d op) → ∃ op ∈ ops, ∃ root, op.operation.discussionId = d ∧
    op.operation.body.root? = some root ∧ discussion.resolution = root.resolution

/-- The state operation `op` comes to the others after all the maximal ones; no state operation
waited for it. -/
structure FollowsAll (op : DecodedCollaborationOperation τ ι δ)
    (ops' : List (DecodedCollaborationOperation τ ι δ)) : Prop where
  perm : ops'.Perm (op :: ops)
  state : StateOf ops' d op
  follows : ∀ m, MaximalState ops d m →
    (causalGraph ops').Precedes m.operationId op.operationId
  awaited : ∀ other ∈ ops, StateOf ops' d other →
    ¬ (causalGraph ops').Precedes op.operationId other.operationId

variable {ops} {d}

theorem Outcome.unique (h : Outcome ops v r) (h' : Outcome ops v s) : r = s := by
  induction h with
  | resolve hfind hbody | reopen hfind hbody =>
    cases h' with
    | resolve hfind' hbody' | reopen hfind' hbody' | resolveConflict hfind' hbody' _ =>
      cases hfind.symm.trans hfind'
      cases hbody.symm.trans hbody'
      try rfl
  | resolveConflict hfind hbody _ ih =>
    cases h' with
    | resolve hfind' hbody' | reopen hfind' hbody' =>
      cases hfind.symm.trans hfind'
      cases hbody.symm.trans hbody'
    | resolveConflict hfind' hbody' hselected =>
      cases hfind.symm.trans hfind'
      cases hbody.symm.trans hbody'
      exact ih hselected

theorem outcome_of_resolutionOutcome [ToString ι] {id : ι}
    (hfind : ∀ v, findOperation byId v = findOperation ops v) (visiting : List ι)
    (h : resolutionOutcome byId id visiting = .ok r) : Outcome ops id r := by
  induction id, visiting using resolutionOutcome.induct byId with
  | case1 id visiting hvisiting =>
    rw [resolutionOutcome, dif_pos hvisiting] at h
    cases h
  | case2 id visiting hvisiting hnone =>
    rw [resolutionOutcome_missing hvisiting hnone] at h
    cases h
  | case3 id visiting hvisiting op hop resolution hbody =>
    rw [resolutionOutcome_found hvisiting hop, hbody] at h
    cases h
    exact .resolve ((hfind id).symm.trans hop) hbody
  | case4 id visiting hvisiting op hop reason hbody =>
    rw [resolutionOutcome_found hvisiting hop, hbody] at h
    cases h
    exact .reopen ((hfind id).symm.trans hop) hbody
  | case5 id visiting hvisiting op hop competing selected hbody ih =>
    rw [resolutionOutcome_found hvisiting hop, hbody] at h
    exact .resolveConflict ((hfind id).symm.trans hop) hbody (ih h)
  | case6 id visiting hvisiting op hop hresolve hreopen hconflict =>
    rw [resolutionOutcome_found hvisiting hop] at h
    split at h
    · exact absurd ‹_› (hresolve _)
    · exact absurd ‹_› (hreopen _)
    · exact (hconflict _ _ ‹_›).elim
    · cases h

variable [LinearOrder δ] [ToString ι] [ToString δ] {byId : List (DecodedCollaborationOperation τ ι δ)}

theorem Materializes.stateOf_iff (h : Materializes ops byId result) :
    StateOf ops d op ↔ op ∈ discussionGroup byId d ∧ op.isStateOperation = true := by
  rw [mem_discussionGroup, mem_visibleOperations h.indexes, h.indexes.causalGraph_eq h.nodup]
  exact ⟨fun hop => ⟨⟨⟨hop.mem, hop.visible⟩, hop.discussion⟩, hop.state⟩,
    fun hop => ⟨hop.1.1.1, hop.1.2, hop.2, hop.1.1.2⟩⟩

theorem Materializes.irrefl (h : Materializes ops byId result) (hop : StateOf ops d op) :
    ¬ (causalGraph ops).Precedes op.operationId op.operationId := by
  have hvisible := hop.visible
  rw [← h.indexes.causalGraph_eq h.nodup] at hvisible ⊢
  exact (visibleOrder_ordered h.indexes).irrefl ((mem_visibleOrder h.indexes).2 hvisible)

theorem Materializes.mem_maximal (h : Materializes ops byId result)
    {stateOperations : List (DecodedCollaborationOperation τ ι δ)}
    (hstate : ∀ op, op ∈ stateOperations ↔ StateOf ops d op) :
    op ∈ maximalOperations byId stateOperations ↔ MaximalState ops d op := by
  have hgraph := h.indexes.causalGraph_eq h.nodup
  have hprecedes : ∀ {ancestor other}, StateOf ops d other → (precedes byId ancestor other = true ↔
      (causalGraph ops).Precedes ancestor other.operationId) := by
    intro ancestor other hother
    rw [precedes_iff (h.indexes.find_iff.2 ⟨hother.mem, rfl⟩), hgraph]
  rw [mem_maximalOperations, hstate]
  constructor
  · rintro ⟨hop, hmaximal⟩
    refine ⟨hop, fun other hother hp => ?_⟩
    rcases hmaximal other ((hstate other).2 hother) with heq | hnot
    · exact h.irrefl hother (heq ▸ hp)
    · exact hnot ((hprecedes hother).2 hp)
  · intro hop
    exact ⟨hop.toStateOf, fun other hother => .inr fun hp =>
      hop.maximal other ((hstate other).1 hother) ((hprecedes ((hstate other).1 hother)).1 hp)⟩

omit [LinearOrder ι] [LinearOrder δ] [ToString ι] [ToString δ] in
theorem not_tags_of_isStateOperation {op : DecodedCollaborationOperation τ ι δ}
    (h : op.isStateOperation = true) : ¬ op.editedTags.isSome = true := by
  unfold DecodedCollaborationOperation.isStateOperation at h
  unfold DecodedCollaborationOperation.editedTags
  intro htags
  split at htags
  · rw [‹op.operation.body = _›] at h
    cases h
  · cases htags

theorem Materializes.resolvedCausally (h : Materializes ops byId result)
    (hmem : (d, discussion) ∈ result.discussions) : ResolvedCausally ops d discussion := by
  obtain ⟨_, hok⟩ := h.discussion_iff.1 hmem
  obtain ⟨rootOperation, root, hmakes, _, resolved, hresolved, hresolution, hconflicts⟩ :=
    materializeDiscussion_ok hok
  have hdelivered : ∀ op ∈ discussionGroup byId d, op ∈ ops := fun op hop =>
    ((mem_visibleOperations h.indexes).1 (mem_discussionGroup.1 hop).1).1
  obtain ⟨hroot, _⟩ := hmakes.root_mem
  have hstate : ∀ op, op ∈ sortById (((discussionGroup byId d).filter fun op =>
      op.operationId ≠ rootOperation.operationId).filter fun op => op.isStateOperation) ↔
        StateOf ops d op := by
    intro op
    rw [mem_stateOperations hmakes.body, h.stateOf_iff]
    exact fun op hop => h.indexes.injective (hdelivered op hop) (hdelivered _ hroot)
  have hmaximal : ∀ {op}, _ ↔ MaximalState ops d op := h.mem_maximal hstate
  have hsound := fun {v r} => @outcome_of_resolutionOutcome _ _ _ _ ops byId r _ v
    (fun _ => h.indexes.find_eq h.nodup) []
  have hunique : ∀ op, MaximalState ops d op → ∃! r, Outcome ops op.operationId r := by
    intro op hop
    obtain ⟨r, hr⟩ := hmakes.outcomes op (hmaximal.2 hop)
    exact ⟨r, hsound hr, fun s hs => hs.unique (hsound hr)⟩
  have htags : ∀ v, v ∈ discussion.conflictOperations → v ∉ resolved.1 →
      ∃ op ∈ ops, op.operationId = v ∧ op.editedTags.isSome = true := by
    intro v hv hnot
    rw [hconflicts, mem_insertionSort, mem_dedup, mem_append] at hv
    obtain ⟨op, hop, hid⟩ := materializeTags_conflicts (hv.resolve_left hnot)
    obtain ⟨hop, htag⟩ := mem_filter.1 (mem_sortById.1 hop)
    exact ⟨op, hdelivered op (mem_filter.1 hop).1, hid, htag⟩
  have hlisted : ∀ op, StateOf ops d op →
      (op.operationId ∈ discussion.conflictOperations ↔ op.operationId ∈ resolved.1) := by
    intro op hop
    constructor
    · intro hv
      by_contra hnot
      obtain ⟨other, hother, hid, htag⟩ := htags _ hv hnot
      obtain rfl := h.indexes.injective hother hop.mem hid
      exact not_tags_of_isStateOperation hop.state htag
    · intro hv
      rw [hconflicts, mem_insertionSort, mem_dedup]
      exact mem_append_left _ hv
  rcases materializeResolution_cases hresolved with ⟨hnone, hbase, hsame⟩ | ⟨rfl, hdiffer⟩
  · have hagree : ¬ Disputed ops d := by
      rintro ⟨a, b, r, s, ha, hb, hr, hs, hne⟩
      have hra := hr.unique (hsound (hsame a (hmaximal.2 ha)))
      have hsb := hs.unique (hsound (hsame b (hmaximal.2 hb)))
      exact hne (hra.trans hsb.symm)
    rw [hnone] at hlisted htags
    refine ⟨hunique, fun op hop => ?_, fun v hv => ?_, fun hd => absurd hd hagree, ?_, ?_⟩
    · rw [hlisted op hop]
      exact iff_of_false not_mem_nil fun hd => hagree hd.2
    · obtain ⟨op, hop, hid, htag⟩ := htags v hv not_mem_nil
      exact ⟨op, hop, hid, .inr htag⟩
    · intro _ op r hop hr
      rw [hresolution, hr.unique (hsound (hsame op (hmaximal.2 hop)))]
    · intro hempty
      have hnil := eq_nil_iff_forall_not_mem.2 fun op hop =>
        hempty op (hmaximal.1 hop).toStateOf
      exact ⟨rootOperation, hdelivered _ hroot, root, (mem_discussionGroup.1 hroot).2, hmakes.body,
        hresolution.trans (hbase hnil)⟩
  · obtain ⟨a, ha, b, hb, r, s, hr, hs, hne⟩ := hdiffer
    have hdisputed : Disputed ops d :=
      ⟨a, b, r, s, hmaximal.1 ha, hmaximal.1 hb, hsound hr, hsound hs, hne⟩
    refine ⟨hunique, fun op hop => ?_, fun v hv => ?_, fun _ => hresolution, fun hd =>
      absurd hdisputed hd, fun hempty => absurd (hmaximal.1 ha).toStateOf (hempty a)⟩
    · rw [hlisted op hop, and_iff_left hdisputed, mem_map]
      constructor
      · rintro ⟨other, hother, hid⟩
        have hmaximal' := hmaximal.1 hother
        obtain rfl := h.indexes.injective hmaximal'.mem hop.mem hid
        exact hmaximal'
      · exact fun hmax => ⟨op, hmaximal.2 hmax, rfl⟩
    · by_cases hin : v ∈ (maximalOperations byId (sortById (((discussionGroup byId d).filter fun op =>
          op.operationId ≠ rootOperation.operationId).filter fun op => op.isStateOperation))).map
            DecodedCollaborationOperation.operationId
      · obtain ⟨op, hop, rfl⟩ := mem_map.1 hin
        have hmax := hmaximal.1 hop
        exact ⟨op, hmax.mem, rfl, .inl hmax.toStateOf⟩
      · obtain ⟨op, hop, hid, htag⟩ := htags v hv hin
        exact ⟨op, hop, hid, .inr htag⟩

theorem Materializes.exists_maximalState (h : Materializes ops byId result)
    (hop : StateOf ops d op) : ∃ m, MaximalState ops d m ∧
      (m.operationId = op.operationId ∨ (causalGraph ops).Precedes op.operationId m.operationId) := by
  let later := (discussionGroup byId d).filter fun other => other.isStateOperation &&
    (other.operationId = op.operationId || precedes byId op.operationId other)
  have hprecedes : ∀ {ancestor other}, other ∈ ops → (precedes byId ancestor other = true ↔
      (causalGraph ops).Precedes ancestor other.operationId) := by
    intro ancestor other hother
    rw [precedes_iff (h.indexes.find_iff.2 ⟨hother, rfl⟩), h.indexes.causalGraph_eq h.nodup]
  have hlater : ∀ other, other ∈ later ↔ StateOf ops d other ∧ (other.operationId = op.operationId ∨
      (causalGraph ops).Precedes op.operationId other.operationId) := by
    intro other
    rw [mem_filter, Bool.and_eq_true, Bool.or_eq_true, decide_eq_true_iff, ← and_assoc,
      ← h.stateOf_iff]
    exact and_congr_right fun hother => or_congr_right (hprecedes hother.mem)
  have hne := exists_maximal h.indexes (ne_nil_of_mem ((hlater op).2 ⟨hop, .inl rfl⟩))
    (fun other hother => ((hlater other).1 hother).1.mem)
    (pairwise_map.2 ((pairwise_map.1 (discussionGroup_ordered h.indexes d)).filter _))
  obtain ⟨m, hm⟩ := exists_mem_of_ne_nil _ hne
  rw [mem_maximalOperations, mem_sortById, hlater] at hm
  obtain ⟨⟨hstate, habove⟩, hmaximal⟩ := hm
  refine ⟨m, ⟨hstate, fun other hother hp => ?_⟩, habove⟩
  have hfollows : (causalGraph ops).Precedes op.operationId other.operationId := by
    rcases habove with heq | habove
    · exact heq ▸ hp
    · exact hp.trans habove
  rcases hmaximal other (mem_sortById.2 ((hlater other).2 ⟨hother, .inr hfollows⟩)) with heq | hnot
  · exact h.irrefl hother (heq ▸ hp)
  · exact hnot ((hprecedes hother.mem).2 hp)

theorem FollowsAll.maximal_iff (hadd : FollowsAll ops d op ops') (h : Materializes ops byId result)
    (h' : Materializes ops' byId' result') : MaximalState ops' d m ↔ m = op := by
  have hmem : ∀ other, other ∈ ops' ↔ other = op ∨ other ∈ ops :=
    fun other => hadd.perm.mem_iff.trans mem_cons
  have hfind : ∀ v, v ≠ op.operationId → findOperation ops' v = findOperation ops v := by
    intro v hv
    apply Option.ext
    intro found
    apply (lookupBy_eq_some_of_nodup h'.nodup).trans
    refine Iff.trans (and_congr_left fun hid => ?_) (lookupBy_eq_some_of_nodup h.nodup).symm
    rw [hmem]
    exact or_iff_right fun heq => hv (heq ▸ hid.symm)
  have hsame : ∀ v, v ≠ op.operationId → causalGraph ops' v = causalGraph ops v := by
    intro v hv
    rw [causalGraph, causalGraph, hfind v hv]
  have hnew : ∀ other ∈ ops, other.operationId ≠ op.operationId := by
    intro other hother heq
    have hnodup := (hadd.perm.map DecodedCollaborationOperation.operationId).nodup_iff.1 h'.nodup
    rw [map_cons, nodup_cons] at hnodup
    exact hnodup.1 (heq ▸ mem_map_of_mem hother)
  have hbefore : ∀ other, StateOf ops' d other → other ≠ op →
      (causalGraph ops').Precedes other.operationId op.operationId := by
    intro other hother hne
    have hold := ((hmem other).1 hother.mem).resolve_left hne
    have hvisible := hother.visible.avoid hsame (hnew other hold) (hadd.awaited other hold hother)
    obtain ⟨m, hm, habove⟩ :=
      h.exists_maximalState ⟨hold, hother.discussion, hother.state, hvisible⟩
    have hlast := hadd.follows m hm
    rcases habove with heq | habove
    · exact heq ▸ hlast
    · refine hlast.trans (Relation.TransGen.mono (fun v p hstep => ?_) _ _ habove)
      obtain ⟨parents, hv, hp⟩ := hstep
      obtain ⟨found, hfound, rfl⟩ := Option.map_eq_some_iff.1 hv
      obtain ⟨hin, rfl⟩ := (lookupBy_eq_some_of_nodup h.nodup).1 hfound
      exact ⟨_, (hsame _ (hnew found hin)).trans hv, hp⟩
  constructor
  · intro hm
    by_contra hne
    exact hm.maximal op hadd.state (hbefore m hm.toStateOf hne)
  · rintro rfl
    refine ⟨hadd.state, fun other hother hp => ?_⟩
    rcases (hmem other).1 hother.mem with rfl | hold
    · exact h'.irrefl hother hp
    · exact hadd.awaited other hold hother hp

/-- The resolution of a discussion follows the causal order of its state operations, not the order
of delivery, and one that follows all the others decides it. -/
theorem resolution_follows_causality (hok : materializeRepositoryCollaboration ops = .ok result)
    (hmem : (d, discussion) ∈ result.discussions) :
    ResolvedCausally ops d discussion ∧
    (∀ ops', List.Perm ops' ops → materializeRepositoryCollaboration ops' = .ok result) ∧
    ∀ op ops' result', FollowsAll ops d op ops' →
      materializeRepositoryCollaboration ops' = .ok result' →
      ∃ discussion', (d, discussion') ∈ result'.discussions ∧
        Outcome ops' op.operationId discussion'.resolution ∧
        ∀ other, StateOf ops' d other → other.operationId ∉ discussion'.conflictOperations := by
  obtain ⟨byId, h⟩ := materialize_ok_iff.1 hok
  refine ⟨h.resolvedCausally hmem, fun ops' hperm => ?_, fun op ops' result' hadd hok' => ?_⟩
  · rw [← hok]
    exact materialize_congr ((hperm.map _).nodup_iff.2 h.nodup) h.nodup fun _ => hperm.mem_iff
  · obtain ⟨byId', h'⟩ := materialize_ok_iff.1 hok'
    have hmaximal := fun m => hadd.maximal_iff h h' (m := m)
    have hgroup := (h'.stateOf_iff.1 hadd.state).1
    obtain ⟨hvisible, rfl⟩ := mem_discussionGroup.1 hgroup
    obtain ⟨_, _, hmakes⟩ := h'.makes hvisible
    obtain ⟨discussion', hdiscussion⟩ := hmakes.ok op.operation.discussionId
    have hmem' := h'.discussion_iff.2 ⟨ne_nil_of_mem hgroup, hdiscussion⟩
    have hresolved := h'.resolvedCausally hmem'
    have hagree : ¬ Disputed ops' op.operation.discussionId := by
      rintro ⟨a, b, r, s, ha, hb, hr, hs, hne⟩
      obtain rfl := (hmaximal a).1 ha
      obtain rfl := (hmaximal b).1 hb
      exact hne (hr.unique hs)
    obtain ⟨r, hr, _⟩ := hresolved.outcome op ((hmaximal op).2 rfl)
    refine ⟨discussion', hmem', ?_, fun other hother hlisted => ?_⟩
    · rw [hresolved.agreed hagree op r ((hmaximal op).2 rfl) hr]
      exact hr
    · exact hagree ((hresolved.listed other hother).1 hlisted).2

end Resolution

section Examples

def plainLeaves : CollaborationLeaves where
  Source := Unit
  Tag := Unit
  Context := Unit
  Metadata := Unit
  Locator := Unit
  decEqSource := inferInstance
  decEqTag := inferInstance
  decEqContext := inferInstance
  locatorOrder := inferInstance
  validateSource := fun _ => .ok ()
  validateAnnotationTags := fun _ => .ok ()
  encodeContext := fun _ => .ok []
  validateMetadata := fun _ => .ok ()
  turnContentHash := fun _ => ⟨Vector.replicate 32 0⟩

def openedOperation (operationId discussionId : Nat) :
    DecodedCollaborationOperation plainLeaves Nat Nat where
  operationId := operationId
  operation :=
    { metadata := none, discussionId, parents := [], occurredAtMs := operationId,
      body := .isOpen false "title" .repository .publicTier
        ⟨"first", ⟨Vector.replicate 32 0⟩⟩ none [] }

def appendedOperation (operationId discussionId parent : Nat) :
    DecodedCollaborationOperation plainLeaves Nat Nat where
  operationId := operationId
  operation :=
    { metadata := none, discussionId, parents := [parent], occurredAtMs := operationId,
      body := .appendTurn ⟨"next", ⟨Vector.replicate 32 0⟩⟩ }

theorem exists_ok_of_isOk {x : Except ε α} (h : x.isOk = true) : ∃ a, x = .ok a := by
  cases x with
  | error _ => cases h
  | ok a => exact ⟨a, rfl⟩

/-- Two replicas that each append to the discussion 0. -/
theorem materialize_union_appended : ∃ result, materializeRepositoryCollaboration
    [appendedOperation 3 0 1, openedOperation 1 0, appendedOperation 2 0 1] = .ok result := by
  have hA : (materializeRepositoryCollaboration
      [openedOperation 1 0, appendedOperation 2 0 1]).isOk = true := by decide +kernel
  have hB : (materializeRepositoryCollaboration
      [openedOperation 1 0, appendedOperation 3 0 1]).isOk = true := by decide +kernel
  obtain ⟨resultA, hA⟩ := exists_ok_of_isOk hA
  obtain ⟨resultB, hB⟩ := exists_ok_of_isOk hB
  have hvalid : ∀ op ∈ [appendedOperation 3 0 1, openedOperation 1 0, appendedOperation 2 0 1],
      op.operation.validate = .ok () := by decide +kernel
  have hclosed : ∀ v, CausallyClosed [openedOperation 1 0, appendedOperation v 0 1] := by
    intro v op hop parent hparent
    refine ⟨openedOperation 1 0, mem_cons_self, ?_⟩
    rcases mem_cons.1 hop with rfl | hop
    · exact absurd hparent not_mem_nil
    · obtain rfl := mem_singleton.1 hop
      exact (mem_singleton.1 hparent).symm
  have hsingle : SingleRooted [openedOperation 1 0, appendedOperation 2 0 1]
      [openedOperation 1 0, appendedOperation 3 0 1] := by
    simp [SingleRooted, openedOperation, appendedOperation]
  refine (materialize_union ?_ ?_ (hclosed 2) (hclosed 3) hA hB ?_).1.2 ⟨?_, hsingle⟩
  · exact fun op hop => hvalid op (mem_cons_of_mem _ hop)
  · intro op hop
    rcases mem_cons.1 hop with rfl | hop
    · exact hvalid _ (mem_cons_of_mem _ mem_cons_self)
    · exact hvalid op (mem_singleton.1 hop ▸ mem_cons_self)
  · intro op
    simp only [mem_cons, not_mem_nil, or_false]
    tauto
  · decide

/-- Two roots of the discussion 0: each history is accepted, the two together are not. -/
theorem materialize_union_twoRoots :
    (∀ op ∈ [openedOperation 1 0, openedOperation 2 0], op.operation.validate = .ok ()) ∧
    CausallyClosed [openedOperation 1 0] ∧ CausallyClosed [openedOperation 2 0] ∧
    (∃ result, materializeRepositoryCollaboration [openedOperation 1 0] = .ok result) ∧
    (∃ result, materializeRepositoryCollaboration [openedOperation 2 0] = .ok result) ∧
    (materializeRepositoryCollaboration [openedOperation 1 0, openedOperation 2 0]).isOk = false ∧
    (materializeRepositoryCollaboration [openedOperation 1 0, openedOperation 1 0]).isOk = false := by
  have hclosed : ∀ v, CausallyClosed [openedOperation v 0] := by
    intro v op hop parent hparent
    obtain rfl := mem_singleton.1 hop
    exact absurd hparent not_mem_nil
  refine ⟨?_, hclosed 1, hclosed 2, ?_, ?_, ?_, ?_⟩
  · decide +kernel
  · exact exists_ok_of_isOk (by decide +kernel)
  · exact exists_ok_of_isOk (by decide +kernel)
  · decide +kernel
  · decide +kernel

def laterOperation (operationId parent : Nat) (body : CollaborationOperationBody plainLeaves Nat) :
    DecodedCollaborationOperation plainLeaves Nat Nat where
  operationId := operationId
  operation :=
    { metadata := none, discussionId := 0, parents := [parent], occurredAtMs := operationId, body }

def dismissedOperation := laterOperation 2 1 (.resolve (.dismissed "done"))

/-- A resolution of the discussion 0 comes to its root. -/
theorem resolution_follows_causality_resolved : ∃ result' discussion',
    materializeRepositoryCollaboration [dismissedOperation, openedOperation 1 0] = .ok result' ∧
    (0, discussion') ∈ result'.discussions ∧
    Outcome [dismissedOperation, openedOperation 1 0] 2 discussion'.resolution := by
  obtain ⟨result, hok⟩ := exists_ok_of_isOk
    (x := materializeRepositoryCollaboration [openedOperation 1 0]) (by decide +kernel)
  obtain ⟨result', hok'⟩ := exists_ok_of_isOk (x := materializeRepositoryCollaboration
    [dismissedOperation, openedOperation 1 0]) (by decide +kernel)
  obtain ⟨byId, h⟩ := materialize_ok_iff.1 hok
  have hvisible := root_visible h.indexes (mem_singleton_self (openedOperation 1 0)) rfl
  obtain ⟨_, _, hmakes⟩ := h.makes hvisible
  obtain ⟨discussion, hdiscussion⟩ := hmakes.ok 0
  have hmem := h.discussion_iff.2
    ⟨ne_nil_of_mem (mem_discussionGroup.2 ⟨hvisible, rfl⟩), hdiscussion⟩
  have hadd : FollowsAll [openedOperation 1 0] 0 dismissedOperation
      [dismissedOperation, openedOperation 1 0] := by
    refine ⟨.refl _, ⟨mem_cons_self, rfl, rfl, ?_⟩, fun m hm => ?_, fun other hother _ => ?_⟩
    · refine .intro (causalGraph_eq (show findOperation _ _ = some dismissedOperation from rfl)) fun p hp => ?_
      obtain rfl := mem_singleton.1 hp
      exact .intro (causalGraph_eq (show findOperation _ _ = some (openedOperation 1 0) from rfl)) nofun
    · have hstate := hm.state
      rw [mem_singleton.1 hm.mem] at hstate
      cases hstate
    · obtain rfl := mem_singleton.1 hother
      exact root_not_precedes rfl rfl
  obtain ⟨discussion', hmem', houtcome, _⟩ :=
    (resolution_follows_causality hok hmem).2.2 _ _ result' hadd hok'
  exact ⟨result', discussion', hok', hmem', houtcome⟩

/-- Two concurrent edits of the tags are listed, and nothing changes the state. And a resolution
that follows the only other one does not decide when a reopening waited for it. -/
theorem tag_conflict_listed :
    let tagged := [openedOperation 1 0, laterOperation 2 1 (.editTags []),
      laterOperation 3 1 (.editTags [()])]
    let added := laterOperation 3 2 (.resolve (.dismissed "again"))
    let waiting := [laterOperation 4 3 (.reopen "open"), dismissedOperation, openedOperation 1 0]
    let outcomes := fun ops => (materializeRepositoryCollaboration ops).toOption.map fun result =>
      (result.discussions.map fun entry => (entry.1, entry.2.resolution), result.pending)
    ((∀ op ∈ tagged, op.operation.validate = .ok () ∧ op.isStateOperation = false) ∧
      (materializeRepositoryCollaboration tagged).toOption.map (fun result =>
        result.discussions.map fun entry => (entry.1, entry.2.conflictOperations)) =
        some [(0, [2, 3])]) ∧
    (∀ op ∈ added :: waiting, op.operation.validate = .ok ()) ∧
      outcomes waiting = some ([(0, some (.dismissed "done"))], [4]) ∧
      outcomes (added :: waiting) = some ([(0, none)], []) := by
  decide +kernel

end Examples

end Heddle
