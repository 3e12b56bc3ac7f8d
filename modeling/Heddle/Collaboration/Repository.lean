import Heddle.Collaboration.Causality

namespace Heddle
open Heddle.Lib List

variable {τ : CollaborationLeaves}

section Visible
variable [LinearOrder ι] {byId delivered : List (DecodedCollaborationOperation τ ι δ)}

def visibleOperations (byId : List (DecodedCollaborationOperation τ ι δ)) :
    List (DecodedCollaborationOperation τ ι δ) :=
  (visibleOrder byId).filterMap (findOperation byId)

section
variable (h : Indexes byId delivered)
include h

theorem mapM_requireOperation {ids : List ι}
    (hids : ∀ v ∈ ids, (causalGraph byId).Available v) :
    ids.mapM (requireOperation byId) = .ok (ids.filterMap (findOperation byId)) ∧
      (ids.filterMap (findOperation byId)).map DecodedCollaborationOperation.operationId = ids := by
  induction ids with
  | nil => exact ⟨rfl, rfl⟩
  | cons v ids ih =>
    obtain ⟨hok, hmap⟩ := ih fun w hw => hids w (mem_cons_of_mem v hw)
    obtain ⟨op, hop, hv⟩ := h.available_iff.1 (hids v mem_cons_self)
    have hfind := h.find_iff.2 ⟨hop, hv⟩
    rw [filterMap_cons_some hfind, map_cons, hmap, hv]
    refine ⟨?_, rfl⟩
    rw [mapM_cons, hok, requireOperation, hfind]
    rfl

theorem visibleOrder_mapM :
    (visibleOrder byId).mapM (requireOperation byId) = .ok (visibleOperations byId) ∧
      (visibleOperations byId).map DecodedCollaborationOperation.operationId = visibleOrder byId :=
  mapM_requireOperation h fun _ hv => (visibleOrder_ordered h).available hv

theorem mem_visibleOperations :
    op ∈ visibleOperations byId ↔ op ∈ delivered ∧ (causalGraph byId).Grounded op.operationId := by
  rw [visibleOperations, mem_filterMap]
  constructor
  · rintro ⟨v, hv, hfind⟩
    obtain ⟨hop, rfl⟩ := h.find_iff.1 hfind
    exact ⟨hop, (mem_visibleOrder h).1 hv⟩
  · rintro ⟨hop, hgrounded⟩
    exact ⟨op.operationId, (mem_visibleOrder h).2 hgrounded, h.find_iff.2 ⟨hop, rfl⟩⟩

theorem visibleOperations_nodup : (visibleOperations byId).Nodup := by
  have hnodup := (visibleOrder_ordered h).nodup
  rw [← (visibleOrder_mapM h).2] at hnodup
  exact hnodup.of_map _

end

end Visible

section Group
variable [LinearOrder ι] [LinearOrder δ] {byId delivered : List (DecodedCollaborationOperation τ ι δ)}

def discussionGroup (byId : List (DecodedCollaborationOperation τ ι δ)) (discussionId : δ) :
    List (DecodedCollaborationOperation τ ι δ) :=
  (visibleOperations byId).filter fun op => op.operation.discussionId = discussionId

theorem discussionGroup_ordered (h : Indexes byId delivered) (discussionId : δ) :
    ((discussionGroup byId discussionId).map DecodedCollaborationOperation.operationId).Pairwise
      fun v w => ¬ (causalGraph byId).Precedes w v := by
  have hordered := (visibleOrder_ordered h).pairwise
  rw [← (visibleOrder_mapM h).2, pairwise_map] at hordered
  exact pairwise_map.2 (hordered.filter _)

end Group

section Materialize
variable [LinearOrder ι] [LinearOrder δ] [ToString ι]
  {byId delivered delivered' : List (DecodedCollaborationOperation τ ι δ)}

theorem checkParents_ok_iff (h : Indexes byId delivered) :
    checkParents byId op = .ok () ↔ ∀ parent ∈ op.operation.parents, ∃ found ∈ delivered,
      found.operationId = parent ∧ found.operation.discussionId = op.operation.discussionId := by
  rw [checkParents, forM_ok_iff]
  refine forall₂_congr fun parent _ => ?_
  simp only [bind_eq_ok, refuse_eq_ok, not_not]
  refine exists_congr fun found => ?_
  rw [requireOperation]
  cases hfind : findOperation byId parent with
  | none =>
    refine iff_of_false (fun h => by cases h.1) fun hparent => ?_
    rw [h.find_iff.2 ⟨hparent.1, hparent.2.1⟩] at hfind
    cases hfind
  | some other =>
    obtain ⟨hmem, hid⟩ := h.find_iff.1 hfind
    rw [Option.elim_some, Except.ok.injEq]
    constructor
    · rintro ⟨rfl, hdiscussion⟩
      exact ⟨hmem, hid, hdiscussion⟩
    · rintro ⟨hmem', hid', hdiscussion⟩
      have hsame := (h.find_iff.2 ⟨hmem', hid'⟩).symm.trans hfind
      exact ⟨(Option.some.inj hsame).symm, hdiscussion⟩

variable [ToString δ]

structure Materializes (delivered byId : List (DecodedCollaborationOperation τ ι δ))
    (result : MaterializedRepositoryCollaboration τ ι δ) : Prop where
  nodup : (delivered.map DecodedCollaborationOperation.operationId).Nodup
  indexes : Indexes byId delivered
  parents : ∀ op ∈ visibleOperations byId, checkParents byId op = .ok ()
  discussions : List.Forall₂ (fun group entry => entry.1 = group.1 ∧
    materializeDiscussion byId group.1 group.2 = .ok entry.2)
    (groupBy (fun op => op.operation.discussionId) (visibleOperations byId)) result.discussions
  pending : result.pending = (byId.map DecodedCollaborationOperation.operationId).filter
    (· ∉ visibleOrder byId)

theorem materialize_ok_iff : materializeRepositoryCollaboration delivered = .ok result ↔
    ∃ byId, Materializes delivered byId result := by
  have hentry : ∀ (byId : List (DecodedCollaborationOperation τ ι δ))
      (group : δ × List (DecodedCollaborationOperation τ ι δ)) entry,
      (∃ discussion, materializeDiscussion byId group.1 group.2 = .ok discussion ∧
        (group.1, discussion) = entry) ↔
      entry.1 = group.1 ∧ materializeDiscussion byId group.1 group.2 = .ok entry.2 := by
    intro byId group entry
    constructor
    · rintro ⟨discussion, hok, rfl⟩
      exact ⟨rfl, hok⟩
    · rintro ⟨hid, hok⟩
      exact ⟨entry.2, hok, Prod.ext hid.symm rfl⟩
  simp only [materializeRepositoryCollaboration, bind_eq_ok, delivery_iff, forM_ok_iff,
    mapM_ok_iff, pure_eq_ok, Except.ok.injEq, hentry]
  constructor
  · rintro ⟨byId, ⟨hnodup, hindexes⟩, ordered, hordered, _, hparents, discussions, hdiscussions, rfl⟩
    rw [← mapM_ok_iff, (visibleOrder_mapM hindexes).1, Except.ok.injEq] at hordered
    subst hordered
    exact ⟨byId, hnodup, hindexes, hparents, hdiscussions, rfl⟩
  · rintro ⟨byId, h⟩
    refine ⟨byId, ⟨h.nodup, h.indexes⟩, visibleOperations byId, ?_, (), h.parents,
      result.discussions, h.discussions, ?_⟩
    · rw [← mapM_ok_iff]
      exact (visibleOrder_mapM h.indexes).1
    · rw [← h.pending]

theorem Materializes.discussion_iff (h : Materializes delivered byId result) :
    (discussionId, discussion) ∈ result.discussions ↔ discussionGroup byId discussionId ≠ [] ∧
      materializeDiscussion byId discussionId (discussionGroup byId discussionId) =
        .ok discussion := by
  constructor
  · intro hmem
    obtain ⟨⟨_, group⟩, hgroup, rfl, hok⟩ := forall₂_mem_right h.discussions hmem
    obtain ⟨rfl, hne⟩ := mem_groupBy.1 hgroup
    exact ⟨hne, hok⟩
  · rintro ⟨hne, hok⟩
    obtain ⟨⟨_, other⟩, hmem, rfl, hother⟩ :=
      forall₂_mem_left h.discussions (mem_groupBy.2 ⟨rfl, hne⟩)
    obtain rfl := Except.ok.inj (hok.symm.trans hother)
    exact hmem

theorem exists_materializes_iff : (∃ result, Materializes delivered byId result) ↔
    (delivered.map DecodedCollaborationOperation.operationId).Nodup ∧ Indexes byId delivered ∧
      (∀ op ∈ visibleOperations byId, checkParents byId op = .ok ()) ∧
      ∀ discussionId : δ, discussionGroup byId discussionId ≠ [] → ∃ discussion,
        materializeDiscussion byId discussionId (discussionGroup byId discussionId) =
          .ok discussion := by
  constructor
  · rintro ⟨result, h⟩
    refine ⟨h.nodup, h.indexes, h.parents, fun discussionId hne => ?_⟩
    obtain ⟨⟨_, discussion⟩, _, rfl, hok⟩ :=
      forall₂_mem_left h.discussions (mem_groupBy.2 ⟨rfl, hne⟩)
    exact ⟨discussion, hok⟩
  · rintro ⟨hnodup, hindexes, hparents, hdiscussions⟩
    have hall : ∀ group ∈ groupBy (fun op : DecodedCollaborationOperation τ ι δ =>
        op.operation.discussionId) (visibleOperations byId), ∃ entry : δ × MaterializedDiscussion τ ι δ,
        entry.1 = group.1 ∧ materializeDiscussion byId group.1 group.2 = .ok entry.2 := by
      rintro ⟨discussionId, group⟩ hgroup
      obtain ⟨rfl, hne⟩ := mem_groupBy.1 hgroup
      obtain ⟨discussion, hok⟩ := hdiscussions discussionId hne
      exact ⟨(discussionId, discussion), rfl, hok⟩
    obtain ⟨discussions, h⟩ := (exists_forall₂_iff _ _).2 hall
    exact ⟨⟨discussions, _⟩, hnodup, hindexes, hparents, h, rfl⟩

theorem Materializes.mem_pending (h : Materializes delivered byId result) :
    v ∈ result.pending ↔ (∃ op ∈ delivered, op.operationId = v) ∧
      ¬ (causalGraph byId).Grounded v := by
  rw [h.pending, mem_filter, decide_eq_true_iff, mem_visibleOrder h.indexes, mem_map]
  simp only [h.indexes.mem_iff]

theorem materialize_congr (hnodup : (delivered.map DecodedCollaborationOperation.operationId).Nodup)
    (hnodup' : (delivered'.map DecodedCollaborationOperation.operationId).Nodup)
    (hsame : ∀ op, op ∈ delivered ↔ op ∈ delivered') :
    materializeRepositoryCollaboration delivered = materializeRepositoryCollaboration delivered' := by
  have hsorted := Indexes.mk (sortBy_sorted hnodup) fun op => mem_sortBy
  have hok := (delivery_iff delivered).2 ⟨hnodup, hsorted⟩
  have hok' := (delivery_iff delivered').2
    ⟨hnodup', hsorted.sorted, fun op => (hsorted.mem_iff op).trans (hsame op)⟩
  rw [materializeRepositoryCollaboration, materializeRepositoryCollaboration, hok, hok']

end Materialize

end Heddle
