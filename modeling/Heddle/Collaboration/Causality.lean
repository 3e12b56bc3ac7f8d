import Heddle.Collaboration.Materialize

namespace Heddle
open Heddle.Lib List

variable {τ : CollaborationLeaves}

section Precedes
variable [LinearOrder ι] {all : List (DecodedCollaborationOperation τ ι δ)}

theorem causalGraph_eq (h : findOperation all v = some op) :
    causalGraph all v = some op.operation.parents := by
  rw [causalGraph, h]
  rfl

theorem step_causalGraph (h : findOperation all v = some op) :
    (causalGraph all).Step v p ↔ p ∈ op.operation.parents :=
  ParentGraph.step_iff (causalGraph_eq h)

/-- Whoever reaches the ancestor from what was seen goes through what is pending. -/
theorem reaches_pending {pending seen : List ι} (hancestor : ancestor ∉ seen)
    (hclosed : ∀ s ∈ seen, ∀ p, (causalGraph all).Step s p → p ∈ seen ∨ p ∈ pending)
    (hv : v ∈ seen) (h : (causalGraph all).Reaches v ancestor) :
    ∃ w ∈ pending, (causalGraph all).Reaches w ancestor := by
  induction h using Relation.ReflTransGen.head_induction_on with
  | refl => exact absurd hv hancestor
  | head hs hrest ih =>
    rcases hclosed _ hv _ hs with hseen | hpending
    · exact ih hseen
    · exact ⟨_, hpending, hrest⟩

theorem precedesFrom_iff (hancestor : ancestor ∉ seen)
    (hclosed : ∀ s ∈ seen, ∀ p, (causalGraph all).Step s p → p ∈ seen ∨ p ∈ pending) :
    precedesFrom all ancestor pending seen = true ↔
      ∃ v ∈ pending, (causalGraph all).Reaches v ancestor := by
  induction pending, seen using precedesFrom.induct all ancestor with
  | case1 seen =>
    rw [precedesFrom]
    exact iff_of_false Bool.false_ne_true fun ⟨_, hv, _⟩ => absurd hv not_mem_nil
  | case2 seen pending =>
    rw [precedesFrom, if_pos rfl]
    exact iff_of_true rfl ⟨ancestor, mem_cons_self, .refl⟩
  | case3 seen id pending hne hseen ih =>
    have hrest : ∀ s ∈ seen, ∀ p, (causalGraph all).Step s p → p ∈ seen ∨ p ∈ pending := by
      intro s hs p hstep
      rcases hclosed s hs p hstep with hp | hp
      · exact .inl hp
      · rcases mem_cons.1 hp with rfl | hp
        · exact .inl hseen
        · exact .inr hp
    rw [precedesFrom, if_neg hne, dif_pos hseen, ih hancestor hrest, exists_mem_cons_iff]
    exact (or_iff_right_of_imp (reaches_pending hancestor hrest hseen)).symm
  | case4 seen id pending hne hseen hnone ih =>
    have hrest : ∀ s ∈ id :: seen, ∀ p, (causalGraph all).Step s p →
        p ∈ id :: seen ∨ p ∈ pending := by
      refine forall_mem_cons.2 ⟨fun p hstep => ?_, fun s hs p hstep => ?_⟩
      · have havailable := hstep.available
        rw [ParentGraph.Available, causalGraph, hnone] at havailable
        cases havailable
      · rcases hclosed s hs p hstep with hp | hp
        · exact .inl (mem_cons_of_mem id hp)
        · rcases mem_cons.1 hp with rfl | hp
          · exact .inl mem_cons_self
          · exact .inr hp
    have hancestor' : ancestor ∉ id :: seen := by
      rw [mem_cons, not_or]
      exact ⟨Ne.symm hne, hancestor⟩
    rw [precedesFrom, if_neg hne, dif_neg hseen]
    split
    · rw [ih hancestor' hrest, exists_mem_cons_iff]
      exact (or_iff_right_of_imp
        (reaches_pending hancestor' hrest mem_cons_self)).symm
    · rename_i hop
      rw [hnone] at hop
      cases hop
  | case5 seen id pending hne hseen op hop ih =>
    have hrest : ∀ s ∈ id :: seen, ∀ p, (causalGraph all).Step s p →
        p ∈ id :: seen ∨ p ∈ op.operation.parents.reverse ++ pending := by
      refine forall_mem_cons.2 ⟨fun p hstep => ?_, fun s hs p hstep => ?_⟩
      · exact .inr (mem_append_left _ (mem_reverse.2 ((step_causalGraph hop).1 hstep)))
      · rcases hclosed s hs p hstep with hp | hp
        · exact .inl (mem_cons_of_mem id hp)
        · rcases mem_cons.1 hp with rfl | hp
          · exact .inl mem_cons_self
          · exact .inr (mem_append_right _ hp)
    have hancestor' : ancestor ∉ id :: seen := by
      rw [mem_cons, not_or]
      exact ⟨Ne.symm hne, hancestor⟩
    rw [precedesFrom, if_neg hne, dif_neg hseen]
    split
    · rename_i hnone
      rw [hnone] at hop
      cases hop
    · rename_i op' hop'
      obtain rfl := Option.some.inj (hop.symm.trans hop')
      rw [ih hancestor' hrest]
      constructor
      · rintro ⟨v, hv, hreaches⟩
        rcases mem_append.1 hv with hv | hv
        · have hstep := (step_causalGraph hop).2 (mem_reverse.1 hv)
          exact ⟨id, mem_cons_self, .head hstep hreaches⟩
        · exact ⟨v, mem_cons_of_mem id hv, hreaches⟩
      · rintro ⟨v, hv, hreaches⟩
        rcases mem_cons.1 hv with rfl | hv
        · exact reaches_pending hancestor' hrest mem_cons_self hreaches
        · exact ⟨v, mem_append_right _ hv, hreaches⟩

theorem precedes_iff (h : findOperation all op.operationId = some op) :
    precedes all ancestor op = true ↔ (causalGraph all).Precedes ancestor op.operationId := by
  rw [precedes, precedesFrom_iff not_mem_nil fun _ hs => absurd hs not_mem_nil,
    ParentGraph.Precedes, Relation.TransGen.head'_iff]
  refine exists_congr fun v => and_congr_left' ?_
  rw [mem_reverse, step_causalGraph h]

end Precedes

section Outcome
variable [LinearOrder ι] [ToString ι] {all all' : List (DecodedCollaborationOperation τ ι δ)}

theorem resolutionOutcome_missing {id : ι} (hvisiting : id ∉ visiting)
    (h : findOperation all id = none) : resolutionOutcome all id visiting =
      .error (.invalid ("missing operation " ++ toString id)) := by
  rw [resolutionOutcome, dif_neg hvisiting]
  split
  · rfl
  · rename_i hop
    rw [h] at hop
    cases hop

theorem resolutionOutcome_found {id : ι} (hvisiting : id ∉ visiting)
    (h : findOperation all id = some op) : resolutionOutcome all id visiting =
      match op.operation.body with
      | .resolve resolution => .ok (some resolution)
      | .reopen _ => .ok none
      | .resolveConflict _ selected => resolutionOutcome all selected (id :: visiting)
      | _ => .error (.invalid ("operation " ++ toString id ++
          " does not select a resolution outcome")) := by
  rw [resolutionOutcome, dif_neg hvisiting]
  split
  · rename_i hnone
    rw [h] at hnone
    cases hnone
  · rename_i op' hop
    obtain rfl := Option.some.inj (h.symm.trans hop)
    rfl

theorem resolutionOutcome_congr {P : ι → Prop}
    (hsame : ∀ v, P v → findOperation all' v = findOperation all v)
    (hselected : ∀ v op competing selected, P v → findOperation all v = some op →
      op.operation.body = .resolveConflict competing selected → P selected)
    {id : ι} (hid : P id) (visiting : List ι) :
    resolutionOutcome all' id visiting = resolutionOutcome all id visiting := by
  induction id, visiting using resolutionOutcome.induct all with
  | case1 id visiting hvisiting =>
    rw [resolutionOutcome, resolutionOutcome, dif_pos hvisiting, dif_pos hvisiting]
  | case2 id visiting hvisiting hnone =>
    rw [resolutionOutcome_missing hvisiting hnone,
      resolutionOutcome_missing hvisiting ((hsame id hid).trans hnone)]
  | case3 id visiting hvisiting op hop resolution hbody =>
    rw [resolutionOutcome_found hvisiting hop,
      resolutionOutcome_found hvisiting ((hsame id hid).trans hop), hbody]
  | case4 id visiting hvisiting op hop reason hbody =>
    rw [resolutionOutcome_found hvisiting hop,
      resolutionOutcome_found hvisiting ((hsame id hid).trans hop), hbody]
  | case5 id visiting hvisiting op hop competing selected hbody ih =>
    rw [resolutionOutcome_found hvisiting hop,
      resolutionOutcome_found hvisiting ((hsame id hid).trans hop), hbody]
    exact ih (hselected id op competing selected hid hop hbody)
  | case6 id visiting hvisiting op hop hresolve hreopen hconflict =>
    rw [resolutionOutcome_found hvisiting hop,
      resolutionOutcome_found hvisiting ((hsame id hid).trans hop)]
    split
    · exact absurd ‹_› (hresolve _)
    · rfl
    · exact (hconflict _ _ ‹_›).elim
    · rfl

end Outcome

section Index
variable [LinearOrder ι] {v : ι} {byId byId' ops : List (DecodedCollaborationOperation τ ι δ)}

structure Indexes (byId ops : List (DecodedCollaborationOperation τ ι δ)) : Prop where
  sorted : SortedBy DecodedCollaborationOperation.operationId byId
  mem_iff : ∀ op, op ∈ byId ↔ op ∈ ops

section
variable (h : Indexes byId ops)
include h

theorem Indexes.unique (h' : Indexes byId' ops) : byId = byId' :=
  sortedBy_ext_mem h.sorted h'.sorted fun op => (h.mem_iff op).trans (h'.mem_iff op).symm

theorem Indexes.find_iff :
    findOperation byId v = some op ↔ op ∈ ops ∧ op.operationId = v := by
  rw [findOperation, lookupBy_eq_some h.sorted, h.mem_iff]

theorem Indexes.available_iff :
    (causalGraph byId).Available v ↔ ∃ op ∈ ops, op.operationId = v := by
  rw [ParentGraph.Available, causalGraph, Option.isSome_map, Option.isSome_iff_exists]
  exact exists_congr fun op => h.find_iff

theorem Indexes.upsert (hnew : findOperation byId op.operationId = none) :
    Indexes (upsertBy DecodedCollaborationOperation.operationId op.operationId (fun _ => op) byId)
      (ops ++ [op]) := by
  have hkey : ∀ o : Option (DecodedCollaborationOperation τ ι δ),
      (∀ x ∈ o, x.operationId = op.operationId) → op.operationId = op.operationId := fun _ _ => rfl
  have hsorted := upsertBy_sorted hkey h.sorted
  refine ⟨hsorted, fun other => ?_⟩
  have hlookup := lookupBy_upsertBy hkey h.sorted other.operationId
  have hmem := lookupBy_eq_some (k := other.operationId) (x := other) hsorted
  rw [hlookup, and_iff_left rfl] at hmem
  rw [← hmem, mem_append, mem_singleton]
  split
  · rename_i heq
    rw [Option.some.injEq]
    refine ⟨fun h => .inr h.symm, fun h' => (h'.resolve_left fun hmem => ?_).symm⟩
    rw [← heq, h.find_iff.2 ⟨hmem, rfl⟩] at hnew
    cases hnew
  · rename_i hne
    rw [← findOperation, h.find_iff, and_iff_left rfl]
    exact (or_iff_left fun heq => hne (congrArg _ heq)).symm

end

theorem insertOperation_eq_ok : insertOperation byId op = .ok byId' ↔
    findOperation byId op.operationId = none ∧
      byId' = upsertBy DecodedCollaborationOperation.operationId op.operationId (fun _ => op) byId := by
  simp only [insertOperation, bind_eq_ok, refuse_eq_ok, pure_eq_ok, Except.ok.injEq]
  constructor
  · rintro ⟨_, hnone, rfl⟩
    exact ⟨by simpa using hnone, rfl⟩
  · rintro ⟨hnone, rfl⟩
    exact ⟨(), by simp [hnone], rfl⟩

theorem foldlM_insertOperation_iff (h : Indexes byId ops)
    (delivery : List (DecodedCollaborationOperation τ ι δ)) :
    (∃ byId', delivery.foldlM insertOperation byId = .ok byId') ↔
      (delivery.map DecodedCollaborationOperation.operationId).Nodup ∧
        ∀ op ∈ delivery, findOperation byId op.operationId = none := by
  induction delivery generalizing byId ops with
  | nil => exact iff_of_true ⟨byId, rfl⟩ ⟨nodup_nil, fun _ h => absurd h not_mem_nil⟩
  | cons op delivery ih =>
    have hcons : (∃ byId', (op :: delivery).foldlM insertOperation byId = .ok byId') ↔
        findOperation byId op.operationId = none ∧ ∃ byId', delivery.foldlM insertOperation
          (upsertBy DecodedCollaborationOperation.operationId op.operationId (fun _ => op) byId) =
            .ok byId' := by
      simp only [foldlM_cons, bind_eq_ok, insertOperation_eq_ok]
      constructor
      · rintro ⟨byId', _, ⟨hnew, rfl⟩, hrest⟩
        exact ⟨hnew, byId', hrest⟩
      · rintro ⟨hnew, byId', hrest⟩
        exact ⟨byId', _, ⟨hnew, rfl⟩, hrest⟩
    rw [hcons, map_cons, nodup_cons, forall_mem_cons]
    have hrest : ∀ hnew : findOperation byId op.operationId = none, _ := fun hnew => ih (h.upsert hnew)
    have hlookup := lookupBy_upsertBy
      (fun (o : Option (DecodedCollaborationOperation τ ι δ))
        (_ : ∀ x ∈ o, x.operationId = op.operationId) => (rfl : op.operationId = op.operationId)) h.sorted
    have hfind : ∀ other : DecodedCollaborationOperation τ ι δ, findOperation (upsertBy
        DecodedCollaborationOperation.operationId op.operationId (fun _ => op) byId)
          other.operationId = none ↔
        other.operationId ≠ op.operationId ∧ findOperation byId other.operationId = none := by
      intro other
      rw [findOperation, hlookup]
      split
      · rename_i heq
        exact iff_of_false (Option.some_ne_none op) fun h => h.1 heq
      · rename_i hne
        exact (and_iff_right hne).symm
    constructor
    · rintro ⟨hnew, hok⟩
      obtain ⟨hnodup, hall⟩ := (hrest hnew).1 hok
      refine ⟨⟨fun hmem => ?_, hnodup⟩, hnew, fun other hother => ((hfind other).1 (hall other hother)).2⟩
      obtain ⟨other, hother, heq⟩ := mem_map.1 hmem
      exact ((hfind other).1 (hall other hother)).1 heq
    · rintro ⟨⟨hmem, hnodup⟩, hnew, hall⟩
      refine ⟨hnew, (hrest hnew).2 ⟨hnodup, fun other hother => (hfind other).2 ⟨fun heq => ?_, ?_⟩⟩⟩
      · exact hmem (heq ▸ mem_map_of_mem hother)
      · exact hall other hother

theorem Indexes.foldlM (h : Indexes byId ops)
    (hok : delivery.foldlM insertOperation byId = .ok byId') : Indexes byId' (ops ++ delivery) := by
  induction delivery generalizing byId ops with
  | nil =>
    obtain rfl := Except.ok.inj hok
    rwa [append_nil]
  | cons op delivery ih =>
    rw [foldlM_cons, bind_eq_ok] at hok
    obtain ⟨_, hinsert, hok⟩ := hok
    obtain ⟨hnew, rfl⟩ := insertOperation_eq_ok.1 hinsert
    have hrest := ih (h.upsert hnew) hok
    rwa [append_assoc, singleton_append] at hrest

theorem delivery_iff (delivery : List (DecodedCollaborationOperation τ ι δ)) :
    delivery.foldlM insertOperation [] = .ok byId ↔
      (delivery.map DecodedCollaborationOperation.operationId).Nodup ∧ Indexes byId delivery := by
  have hempty : Indexes ([] : List (DecodedCollaborationOperation τ ι δ)) [] :=
    ⟨.nil, fun _ => Iff.rfl⟩
  have hiff := foldlM_insertOperation_iff hempty delivery
  constructor
  · intro hok
    have hindexes := hempty.foldlM hok
    exact ⟨(hiff.1 ⟨byId, hok⟩).1, hindexes⟩
  · rintro ⟨hnodup, hindexes⟩
    obtain ⟨byId', hok⟩ := hiff.2 ⟨hnodup, fun _ _ => rfl⟩
    obtain rfl := hindexes.unique (hempty.foldlM hok)
    exact hok

end Index

section Order
variable [LinearOrder ι] {v : ι} {byId ops : List (DecodedCollaborationOperation τ ι δ)}

theorem nextVisible_findsReady (h : Indexes byId ops) :
    FindsReady (causalGraph byId) (nextVisible byId) where
  ready := by
    intro done v hnext
    obtain ⟨key, hkey, rfl⟩ := Option.map_eq_some_iff.1 hnext
    obtain ⟨op, hop, rfl⟩ := mem_map.1 (min?_mem hkey)
    obtain ⟨hmem, hready⟩ := mem_filter.1 hop
    obtain ⟨hnew, hparents⟩ := of_decide_eq_true hready
    have hfind := h.find_iff.2 ⟨(h.mem_iff op).1 hmem, rfl⟩
    exact ⟨op.operation.parents, causalGraph_eq hfind, hnew, hparents⟩
  none := by
    rintro done v hnext ⟨parents, hv, hnew, hparents⟩
    rw [nextVisible, Option.map_eq_none_iff, min?_eq_none_iff, map_eq_nil_iff,
      filter_eq_nil_iff] at hnext
    obtain ⟨op, hop, rfl⟩ := Option.map_eq_some_iff.1 hv
    obtain ⟨hmem, rfl⟩ := h.find_iff.1 hop
    exact hnext op ((h.mem_iff op).2 hmem) (decide_eq_true ⟨hnew, hparents⟩)

theorem visibleOrder_ordered (h : Indexes byId ops) :
    (causalGraph byId).Ordered (visibleOrder byId) :=
  (nextVisible_findsReady h).ordered byId.length .nil

theorem mem_visibleOrder (h : Indexes byId ops) :
    v ∈ visibleOrder byId ↔ (causalGraph byId).Grounded v := by
  have hfin : ∀ v, (causalGraph byId).Available v →
      v ∈ byId.map DecodedCollaborationOperation.operationId := by
    intro v hv
    obtain ⟨op, hop, rfl⟩ := h.available_iff.1 hv
    exact mem_map_of_mem ((h.mem_iff op).2 hop)
  have hiff := (nextVisible_findsReady h).mem_schedule_iff (v := v) hfin
  rwa [length_map] at hiff

end Order

end Heddle

namespace Heddle
open Heddle.Lib List

variable {τ : CollaborationLeaves}

theorem root?_isSome (body : CollaborationOperationBody τ ι) : body.root?.isSome = body.isRoot := by
  cases body <;> rfl

section Maximal
variable [LinearOrder ι] {all ops : List (DecodedCollaborationOperation τ ι δ)}

theorem mem_maximalOperations : op ∈ maximalOperations all ops ↔ op ∈ ops ∧
    ∀ other ∈ ops, op.operationId = other.operationId ∨ ¬ precedes all op.operationId other = true := by
  rw [maximalOperations, mem_filter, all_eq_true]
  simp only [decide_eq_true_eq]

theorem mem_sortById : op ∈ sortById ops ↔ op ∈ ops := mem_sortBy

end Maximal

section Resolution
variable [LinearOrder ι] [ToString ι] {all stateOperations : List (DecodedCollaborationOperation τ ι δ)}

theorem materializeResolution_ok_iff (base : Option (CollaborationResolution τ)) :
    (∃ resolved, materializeResolution all base stateOperations = .ok resolved) ↔
      ∀ op ∈ maximalOperations all stateOperations, ∃ outcome,
        resolutionOutcome all op.operationId [] = .ok outcome := by
  rw [← exists_forall₂_iff]
  simp only [materializeResolution, bind_eq_ok, mapM_ok_iff]
  constructor
  · rintro ⟨_, outcomes, houtcomes, _⟩
    exact ⟨outcomes, houtcomes⟩
  · rintro ⟨outcomes, houtcomes⟩
    cases outcomes with
    | nil => exact ⟨_, [], houtcomes, rfl⟩
    | cons first rest =>
      by_cases hall : (first :: rest).all (· = first) = true
      · exact ⟨_, first :: rest, houtcomes, if_pos hall⟩
      · exact ⟨_, first :: rest, houtcomes, if_neg hall⟩

theorem materializeResolution_cases
    (h : materializeResolution all base stateOperations = .ok resolved) :
    let maximal := maximalOperations all stateOperations
    resolved.1 = [] ∧ (maximal = [] → resolved.2 = base) ∧
        (∀ op ∈ maximal, resolutionOutcome all op.operationId [] = .ok resolved.2) ∨
      resolved = (maximal.map DecodedCollaborationOperation.operationId, none) ∧
        ∃ a ∈ maximal, ∃ b ∈ maximal, ∃ r s, resolutionOutcome all a.operationId [] = .ok r ∧
          resolutionOutcome all b.operationId [] = .ok s ∧ r ≠ s := by
  obtain ⟨outcomes, houtcomes, h⟩ := bind_eq_ok.1 h
  have hall := mapM_ok_iff.1 houtcomes
  generalize maximalOperations all stateOperations = maximal at hall h
  cases hall with
  | nil =>
    cases h
    exact .inl ⟨rfl, fun _ => rfl, fun _ hmem => absurd hmem not_mem_nil⟩
  | @cons op first maximal outcomes hfirst hrest =>
    dsimp only at h
    split at h
    · rename_i hsame
      cases h
      refine .inl ⟨rfl, nofun, forall_mem_cons.2 ⟨hfirst, fun other hother => ?_⟩⟩
      obtain ⟨outcome, hmem, hok⟩ := forall₂_mem_left hrest hother
      have heq := all_eq_true.1 hsame outcome (mem_cons_of_mem _ hmem)
      rw [hok, of_decide_eq_true heq]
    · rename_i hdiffer
      cases h
      rw [all_eq_true] at hdiffer
      push Not at hdiffer
      obtain ⟨outcome, hmem, hne⟩ := hdiffer
      have hne : outcome ≠ first := fun heq => hne (decide_eq_true heq)
      obtain ⟨other, hother, hok⟩ :=
        forall₂_mem_right hrest ((mem_cons.1 hmem).resolve_left hne)
      exact .inr ⟨rfl, op, mem_cons_self, other, mem_cons_of_mem _ hother, first, outcome,
        hfirst, hok, hne.symm⟩

omit [ToString ι] in
theorem materializeTags_conflicts (h : v ∈ (materializeTags all tags stateOperations).2) :
    ∃ op ∈ stateOperations, op.operationId = v := by
  unfold materializeTags at h
  dsimp only at h
  split at h
  · exact absurd h not_mem_nil
  · split at h
    · exact absurd h not_mem_nil
    · obtain ⟨op, hop, rfl⟩ := mem_map.1 h
      exact ⟨op, (mem_maximalOperations.1 hop).1, rfl⟩

end Resolution

section Discussion
variable [LinearOrder ι] [ToString ι] [ToString δ]
  {all ops : List (DecodedCollaborationOperation τ ι δ)} {discussionId : δ}

def rootOperations (ops : List (DecodedCollaborationOperation τ ι δ)) :
    List (DecodedCollaborationOperation τ ι δ) :=
  ops.filter fun op => op.operation.parents.isEmpty

def discussionTurns (rootOperation : DecodedCollaborationOperation τ ι δ) (root : DiscussionRoot τ)
    (ops : List (DecodedCollaborationOperation τ ι δ)) : List (ι × DiscussionTurn) :=
  root.turns.map (fun turn => (rootOperation.operationId, turn)) ++
    (ops.filter fun op => op.operationId ≠ rootOperation.operationId).filterMap
      DecodedCollaborationOperation.appendedTurn

structure MakesDiscussion (all ops : List (DecodedCollaborationOperation τ ι δ))
    (rootOperation : DecodedCollaborationOperation τ ι δ) (root : DiscussionRoot τ) : Prop where
  roots : rootOperations ops = [rootOperation]
  body : rootOperation.operation.body.root? = some root
  rest : ∀ op ∈ ops, op.operationId ≠ rootOperation.operationId → op.operation.body.root? = none
  outcomes : ∀ op ∈ maximalOperations all (sortById ((ops.filter fun op =>
    op.operationId ≠ rootOperation.operationId).filter fun op => op.isStateOperation)),
    ∃ outcome, resolutionOutcome all op.operationId [] = .ok outcome
  heads : maximalOperations all (sortById ops) ≠ []

/-- Where a discussion has its resolution and its conflicts from. -/
def ResolvesDiscussion (all ops : List (DecodedCollaborationOperation τ ι δ))
    (rootOperation : DecodedCollaborationOperation τ ι δ) (root : DiscussionRoot τ)
    (discussion : MaterializedDiscussion τ ι δ) : Prop :=
  let rest := ops.filter fun op => op.operationId ≠ rootOperation.operationId
  ∃ resolved, materializeResolution all root.resolution
      (sortById (rest.filter fun op => op.isStateOperation)) = .ok resolved ∧
    discussion.resolution = resolved.2 ∧
    discussion.conflictOperations = (resolved.1 ++ (materializeTags all root.tags
      (sortById (rest.filter fun op => op.editedTags.isSome))).2).dedup.insertionSort (· ≤ ·)

theorem materializeDiscussion_ok (h : materializeDiscussion all discussionId ops = .ok discussion) :
    ∃ rootOperation root, MakesDiscussion all ops rootOperation root ∧
      discussion.turns = discussionTurns rootOperation root ops ∧
      ResolvesDiscussion all ops rootOperation root discussion := by
  unfold materializeDiscussion at h
  dsimp only at h
  split at h
  · rename_i rootOperation hroots
    split at h
    · cases h
    · rename_i root hbody
      simp only [bind_eq_ok, forM_ok_iff, refuse_eq_ok] at h
      obtain ⟨_, hrest, resolved, hresolved, h⟩ := h
      split at h
      · cases h
      · rename_i displayHead heads hheads
        obtain rfl := Except.ok.inj h
        refine ⟨rootOperation, root, ⟨hroots, hbody, ?_, ?_, ?_⟩, rfl, _, hresolved, rfl, rfl⟩
        · intro op hop hne
          have hnone := hrest op (mem_filter.2 ⟨hop, decide_eq_true hne⟩)
          exact Option.not_isSome_iff_eq_none.1 hnone
        · exact (materializeResolution_ok_iff root.resolution).1 ⟨resolved, hresolved⟩
        · rintro hnil
          rw [hnil] at hheads
          cases hheads
  · cases h

theorem MakesDiscussion.ok (h : MakesDiscussion all ops rootOperation root) (discussionId : δ) :
    ∃ discussion, materializeDiscussion all discussionId ops = .ok discussion := by
  obtain ⟨resolved, hresolved⟩ := (materializeResolution_ok_iff root.resolution).2 h.outcomes
  obtain ⟨head, heads, hheads⟩ := exists_cons_of_ne_nil h.heads
  have hroots : (ops.filter fun op => op.operation.parents.isEmpty) = [rootOperation] := h.roots
  unfold materializeDiscussion
  simp only [hroots, h.body, hheads, map_cons, bind_eq_ok, forM_ok_iff, refuse_eq_ok]
  refine ⟨_, (), fun op hop => ?_, resolved, hresolved, rfl⟩
  obtain ⟨hop, hne⟩ := mem_filter.1 hop
  rw [h.rest op hop (of_decide_eq_true hne)]
  exact Bool.false_ne_true

end Discussion

section Heads
variable [LinearOrder ι] {byId delivered ops : List (DecodedCollaborationOperation τ ι δ)}

theorem exists_maximal (h : Indexes byId delivered) (hne : ops ≠ []) (hops : ∀ op ∈ ops, op ∈ delivered)
    (horder : (ops.map DecodedCollaborationOperation.operationId).Pairwise fun v w =>
      ¬ (causalGraph byId).Precedes w v) : maximalOperations byId (sortById ops) ≠ [] := by
  obtain ⟨before, last, rfl⟩ := (eq_nil_or_concat' ops).resolve_left hne
  rw [map_append, pairwise_append] at horder
  have hmaximal : last ∈ maximalOperations byId (sortById (before ++ [last])) := by
    rw [mem_maximalOperations, mem_sortById]
    refine ⟨mem_append_right _ mem_cons_self, fun other hother => ?_⟩
    rw [mem_sortById] at hother
    rcases mem_append.1 hother with hbefore | hlast
    · rw [precedes_iff (h.find_iff.2 ⟨hops other hother, rfl⟩)]
      exact .inr (horder.2.2 _ (mem_map_of_mem hbefore) _ mem_cons_self)
    · exact .inl (congrArg _ (mem_singleton.1 hlast).symm)
  exact ne_nil_of_mem hmaximal

end Heads

section Turns
variable {ops : List (DecodedCollaborationOperation τ ι δ)}

theorem appendedTurn_fst {op : DecodedCollaborationOperation τ ι δ} (h : op.appendedTurn = some turn) :
    turn.1 = op.operationId := by
  unfold DecodedCollaborationOperation.appendedTurn at h
  split at h
  · obtain rfl := Option.some.inj h
    rfl
  · cases h

variable [LinearOrder ι]

theorem mem_discussionTurns :
    turn ∈ discussionTurns rootOperation root ops ↔
      turn.1 = rootOperation.operationId ∧ turn.2 ∈ root.turns ∨
      ∃ op ∈ ops, op.operationId ≠ rootOperation.operationId ∧ op.appendedTurn = some turn := by
  rw [discussionTurns, mem_append, mem_map, mem_filterMap]
  refine or_congr ?_ (exists_congr fun op => ?_)
  · constructor
    · rintro ⟨t, ht, rfl⟩
      exact ⟨rfl, ht⟩
    · rintro ⟨hid, ht⟩
      exact ⟨turn.2, ht, Prod.ext hid.symm rfl⟩
  · rw [mem_filter, decide_eq_true_iff, and_assoc]

theorem discussionTurns_ordered {g : ParentGraph ι}
    (hfirst : ∀ v, ¬ g.Precedes v rootOperation.operationId)
    (horder : (ops.map DecodedCollaborationOperation.operationId).Pairwise fun v w => ¬ g.Precedes w v) :
    (discussionTurns rootOperation root ops).Pairwise fun earlier later =>
      ¬ g.Precedes later.1 earlier.1 := by
  rw [discussionTurns, pairwise_append]
  refine ⟨?_, ?_, ?_⟩
  · rw [pairwise_map]
    exact pairwise_of_forall fun _ _ => hfirst _
  · refine ((pairwise_map.1 horder).filter _).filterMap _ ?_
    intro op op' hnot turn hturn turn' hturn'
    rw [appendedTurn_fst hturn, appendedTurn_fst hturn']
    exact hnot
  · intro earlier hearlier later _
    obtain ⟨_, _, rfl⟩ := mem_map.1 hearlier
    exact hfirst _

end Turns

end Heddle
