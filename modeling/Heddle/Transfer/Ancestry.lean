import Heddle.Lib.BreadthFirst
import Heddle.Repo.WarmGraph

namespace Heddle
open Heddle.Lib List

inductive AncestryError where
  | cancelled
  | deadline
  | workLimit
  deriving DecidableEq

/-- `interruption n` is what the `n`-th check for a cancellation or the deadline finds. -/
structure AncestryBudget where
  maxStates : Nat
  interruption : Nat → Option AncestryError

section Model
variable [DecidableEq ι] (source : ObjectSource ι H)

structure AncestorWalk (ι : Type) where
  queue : List ι
  seen : List ι

def walkAncestorRound (getState : ι → Option (HistoryState ι H)) (ancestor : ι)
    (walk : AncestorWalk ι) : Round (AncestorWalk ι) Bool :=
  match walk.queue with
  | [] => .done false
  | id :: queue =>
    if id ∈ walk.seen then .next { walk with queue := queue }
    else
      match getState id with
      | none => .done false
      | some state =>
        if ancestor ∈ state.parents then .done true
        else .next ⟨queue ++ state.parents, id :: walk.seen⟩

def walkAncestor (fuel : Nat) (ancestor descendant : ι)
    (getState : ι → Option (HistoryState ι H)) : Option Bool :=
  if ancestor = descendant then some true
  else runLoop (walkAncestorRound getState ancestor) fuel ⟨[descendant], []⟩

def isAncestor (fuel : Nat) (ancestor descendant : ι) : Option Bool :=
  walkAncestor fuel ancestor descendant source.getState

def isAncestorFromSource (fuel : Nat) (ancestor descendant : ι) : Option Bool :=
  walkAncestor fuel ancestor descendant source.getState

/-- The walk of `is_ancestor_async_bounded`; `checks` counts the checks for an interruption. -/
structure BoundedWalk (ι : Type) where
  stack : List ι
  seen : List ι
  checks : Nat

def boundedRound (budget : AncestryBudget) (ancestor : ι) (walk : BoundedWalk ι) :
    Round (BoundedWalk ι) (Except AncestryError Bool) :=
  match walk.stack with
  | [] => .done (.ok false)
  | id :: stack =>
    match budget.interruption walk.checks with
    | some error => .done (.error error)
    | none =>
      if id ∈ walk.seen then .next ⟨stack, walk.seen, walk.checks + 1⟩
      else if budget.maxStates < walk.seen.length + 1 then .done (.error .workLimit)
      else
        match budget.interruption (walk.checks + 1) with
        | some error => .done (.error error)
        | none =>
          match source.getState id with
          -- a missing state ends only its own branch
          | none => .next ⟨stack, id :: walk.seen, walk.checks + 2⟩
          | some state =>
            if id = ancestor then .done (.ok true)
            else .next ⟨state.parents.reverse ++ stack, id :: walk.seen, walk.checks + 2⟩

def isAncestorAsyncBounded (fuel : Nat) (budget : AncestryBudget) (ancestor descendant : ι) :
    Option (Except AncestryError Bool) :=
  if ancestor = descendant then some (.ok true)
  else runLoop (boundedRound source budget ancestor) fuel ⟨[descendant], [], 0⟩

/-- Nothing interrupts the walk, and all the ancestry may be visited. -/
structure AncestryBudget.Sufficient (source : ObjectSource ι H) (budget : AncestryBudget)
    (descendant : ι) : Prop where
  interruption : ∀ n, budget.interruption n = none
  maxStates : ∀ visited : List ι, visited.Nodup →
    (∀ v ∈ visited, source.parentGraph.Reaches descendant v) → visited.length ≤ budget.maxStates

end Model

section BreadthFirst
variable [DecidableEq ι] {source : ObjectSource ι H} {walk walk' : AncestorWalk ι}

/-- A state that the walk leaves behind can be read and is no child of the ancestor. -/
def PassedBy (source : ObjectSource ι H) (ancestor v : ι) : Prop :=
  source.parentGraph.Available v ∧ ¬ source.parentGraph.Step v ancestor

structure WalkInv (source : ObjectSource ι H) (ancestor descendant : ι) (walk : AncestorWalk ι) :
    Prop where
  passed : ∀ v ∈ walk.seen, PassedBy source ancestor v
  closed : ∀ v ∈ walk.seen, ∀ p, source.parentGraph.Step v p → p ∈ walk.seen ∨ p ∈ walk.queue
  start : descendant ∈ walk.seen ∨ descendant ∈ walk.queue
  naive : ∃ done rest, source.parentGraph.Naive descendant done rest ∧ (∀ v ∈ done, v ∈ walk.seen) ∧
    Dedups walk.seen rest walk.queue

def walkWork (source : ObjectSource ι H) (walk : AncestorWalk ι) : Nat :=
  walk.queue.length + unseenWork (fun v => (source.parentGraph.parentsOf v).length)
    (source.states.map HistoryState.stateId) walk.seen

theorem WalkInv.pop (h : WalkInv source ancestor descendant walk) (hqueue : walk.queue = v :: queue) :
    ∃ done rest, source.parentGraph.Naive descendant done (v :: rest) ∧
      (∀ w ∈ done, w ∈ walk.seen) ∧ Dedups (v :: walk.seen) rest queue := by
  obtain ⟨done, naive, hnaive, hdone, hdedups⟩ := h.naive
  rw [hqueue] at hdedups
  obtain ⟨block, rest, rfl, hblock, hdedups⟩ := hdedups.head
  refine ⟨done ++ block, rest ++ block.flatMap source.parentGraph.parentsOf, hnaive.advance, ?_, ?_⟩
  · exact fun w hw => (mem_append.1 hw).elim (hdone w) (hblock w)
  · refine hdedups.append_again fun p hp => ?_
    obtain ⟨w, hw, hp⟩ := mem_flatMap.1 hp
    rcases h.closed w (hblock w hw) p (ParentGraph.mem_parentsOf.1 hp) with hmem | hmem
    · exact .inl (mem_cons_of_mem v hmem)
    · rw [hqueue] at hmem
      rcases mem_cons.1 hmem with rfl | hmem
      · exact .inl mem_cons_self
      · exact .inr hmem

section
variable (hs : source.getState v = some s)
include hs

theorem parentsOf_getState :
    source.parentGraph.parentsOf v = s.parents := by
  rw [ParentGraph.parentsOf, ObjectSource.parentGraph, hs]
  rfl

theorem step_getState :
    source.parentGraph.Step v p ↔ p ∈ s.parents := by
  rw [← ParentGraph.mem_parentsOf, parentsOf_getState hs]

theorem available_getState : source.parentGraph.Available v := by
  rw [ParentGraph.Available, ObjectSource.parentGraph, hs]
  rfl

end

theorem walkAncestorRound_next (h : WalkInv source ancestor descendant walk)
    (hround : walkAncestorRound source.getState ancestor walk = .next walk') :
    WalkInv source ancestor descendant walk' ∧ walkWork source walk' < walkWork source walk := by
  unfold walkAncestorRound at hround
  split at hround
  · cases hround
  · rename_i v queue hqueue
    obtain ⟨done, rest, hnaive, hdone, hdedups⟩ := h.pop hqueue
    have hblock : source.parentGraph.Naive descendant done ([v] ++ rest) := hnaive
    have hadvance := hblock.advance
    split at hround
    · rename_i hseen
      obtain rfl := (Round.next.inj hround).symm
      have hkeep : ∀ w, w ∈ walk.seen ∨ w ∈ walk.queue → w ∈ walk.seen ∨ w ∈ queue := by
        rw [hqueue]
        rintro w (hw | hw)
        · exact .inl hw
        · rcases mem_cons.1 hw with rfl | hw
          · exact .inl hseen
          · exact .inr hw
      refine ⟨⟨h.passed, fun w hw p hs => hkeep p (h.closed w hw p hs), hkeep _ h.start, ?_⟩, ?_⟩
      · refine ⟨_, _, hadvance, ?_, ?_⟩
        · intro w hw
          rcases mem_append.1 hw with hw | hw
          · exact hdone w hw
          · exact mem_singleton.1 hw ▸ hseen
        · have hmono := hdedups.mono (forall_mem_cons.2 ⟨hseen, fun _ hw => hw⟩)
          refine hmono.append_again fun p hp => ?_
          rw [flatMap_singleton, ParentGraph.mem_parentsOf] at hp
          exact hkeep p (h.closed v hseen p hp)
      · rw [walkWork, walkWork, hqueue, length_cons]
        dsimp only
        omega
    · rename_i hseen
      split at hround
      · cases hround
      · rename_i s hs
        split at hround
        · cases hround
        · rename_i hother
          obtain rfl := (Round.next.inj hround).symm
          have hkeep : ∀ w, w ∈ walk.seen ∨ w ∈ walk.queue →
              w ∈ v :: walk.seen ∨ w ∈ queue ++ s.parents := by
            rw [hqueue]
            rintro w (hw | hw)
            · exact .inl (mem_cons_of_mem v hw)
            · rcases mem_cons.1 hw with rfl | hw
              · exact .inl mem_cons_self
              · exact .inr (mem_append_left _ hw)
          refine ⟨⟨?_, ?_, hkeep _ h.start, ?_⟩, ?_⟩
          · refine forall_mem_cons.2 ⟨⟨available_getState hs, fun hstep => ?_⟩, h.passed⟩
            exact hother ((step_getState hs).1 hstep)
          · refine forall_mem_cons.2 ⟨fun p hstep => ?_, fun w hw p hstep => ?_⟩
            · exact .inr (mem_append_right _ ((step_getState hs).1 hstep))
            · exact hkeep p (h.closed w hw p hstep)
          · refine ⟨_, _, hadvance, ?_, ?_⟩
            · intro w hw
              rcases mem_append.1 hw with hw | hw
              · exact mem_cons_of_mem v (hdone w hw)
              · exact mem_singleton.1 hw ▸ mem_cons_self
            · rw [flatMap_singleton, parentsOf_getState hs]
              exact hdedups.append_both s.parents
          · have hwork := unseenWork_cons (fun v => (source.parentGraph.parentsOf v).length)
              (CommitGraphIndex.mem_states hs) hseen
            rw [walkWork, walkWork, hqueue, length_cons, length_append]
            rw [parentsOf_getState hs] at hwork
            dsimp only at hwork ⊢
            omega

theorem walkAncestorRound_done (h : WalkInv source ancestor descendant walk)
    (hround : walkAncestorRound source.getState ancestor walk = .done found) :
    found = true ↔ source.parentGraph.MetFirst ancestor descendant := by
  unfold walkAncestorRound at hround
  split at hround
  · rename_i hqueue
    obtain rfl := (Round.done.inj hround).symm
    refine ⟨fun hfalse => absurd hfalse Bool.false_ne_true, ?_⟩
    rintro ⟨n, before, v, after, hn, hs, _⟩
    have hreaches : source.parentGraph.Reaches descendant v :=
      ParentGraph.reaches_of_mem_levels (hn ▸ mem_append_right _ mem_cons_self)
    have hempty : ∀ w, w ∈ walk.seen ∨ w ∈ walk.queue → w ∈ walk.seen :=
      fun w hw => hw.resolve_right (hqueue ▸ not_mem_nil)
    have hseen : v ∈ walk.seen :=
      hreaches.mem (S := (· ∈ walk.seen)) (hempty _ h.start) fun x p hx hp => hempty p (h.closed x hx p hp)
    exact absurd hs (h.passed v hseen).2
  · rename_i v queue hqueue
    obtain ⟨done, rest, hnaive, hdone, _⟩ := h.pop hqueue
    split at hround
    · cases hround
    · split at hround
      · rename_i hnone
        obtain rfl := (Round.done.inj hround).symm
        refine ⟨fun hfalse => absurd hfalse Bool.false_ne_true, fun hmet => absurd hmet ?_⟩
        apply hnaive.not_metFirst fun w hw => (h.passed w (hdone w hw)).2
        rw [ParentGraph.Available, ObjectSource.parentGraph, hnone]
        exact Bool.false_ne_true
      · rename_i s hs
        split at hround
        · rename_i hmem
          obtain rfl := (Round.done.inj hround).symm
          exact ⟨fun _ => hnaive.metFirst (fun w hw => (h.passed w (hdone w hw)).1)
            ((step_getState hs).2 hmem), fun _ => rfl⟩
        · cases hround

theorem walkAncestor_returns (source : ObjectSource ι H) (ancestor descendant : ι) : ∃ found,
    Returns (fun fuel => walkAncestor fuel ancestor descendant source.getState) found ∧
    (found = true ↔
      ancestor = descendant ∨ source.parentGraph.MetFirst ancestor descendant) := by
  unfold walkAncestor
  by_cases heq : ancestor = descendant
  · simp only [if_pos heq]
    exact ⟨true, returns_some _, fun _ => .inl heq, fun _ => rfl⟩
  · simp only [if_neg heq]
    have hstart : WalkInv source ancestor descendant ⟨[descendant], []⟩ :=
      ⟨nofun, nofun, .inr mem_cons_self, [], [descendant], source.parentGraph.naive_start _,
        nofun, .both .nil⟩
    obtain ⟨found, hreturns, hfound⟩ := runLoop_returns (walkWork source)
      (fun _ _ h hround => walkAncestorRound_next h hround)
      (fun _ _ h hround => walkAncestorRound_done h hround) hstart
    exact ⟨found, hreturns, hfound.trans (or_iff_right heq).symm⟩

end BreadthFirst

section Bounded
variable [DecidableEq ι] {source : ObjectSource ι H} {walk walk' : BoundedWalk ι}
  {budget : AncestryBudget}

structure BoundedInv (source : ObjectSource ι H) (ancestor descendant : ι) (walk : BoundedWalk ι) :
    Prop where
  sound : ∀ v, v ∈ walk.seen ∨ v ∈ walk.stack → source.parentGraph.Reaches descendant v
  nodup : walk.seen.Nodup
  missed : ancestor ∈ walk.seen → ¬ source.parentGraph.Available ancestor
  closed : ∀ v ∈ walk.seen, ∀ p, source.parentGraph.Step v p → p ∈ walk.seen ∨ p ∈ walk.stack
  start : descendant ∈ walk.seen ∨ descendant ∈ walk.stack

def boundedWork (source : ObjectSource ι H) (walk : BoundedWalk ι) : Nat :=
  walk.stack.length + unseenWork (fun v => (source.parentGraph.parentsOf v).length)
    (source.states.map HistoryState.stateId) walk.seen

theorem boundedRound_next (h : BoundedInv source ancestor descendant walk)
    (hround : boundedRound source budget ancestor walk = .next walk') :
    BoundedInv source ancestor descendant walk' ∧ boundedWork source walk' < boundedWork source walk := by
  unfold boundedRound at hround
  split at hround
  · cases hround
  · rename_i v stack hstack
    have hpushed : ∀ (pushed : List ι) (w : ι), w ∈ walk.seen ∨ w ∈ walk.stack →
        w ∈ v :: walk.seen ∨ w ∈ pushed ++ stack := by
      rw [hstack]
      rintro pushed w (hw | hw)
      · exact .inl (mem_cons_of_mem v hw)
      · rcases mem_cons.1 hw with rfl | hw
        · exact .inl mem_cons_self
        · exact .inr (mem_append_right _ hw)
    have hv : source.parentGraph.Reaches descendant v :=
      h.sound v (.inr (hstack ▸ mem_cons_self))
    have hsound : ∀ w, w ∈ v :: walk.seen ∨ w ∈ stack →
        source.parentGraph.Reaches descendant w := by
      rintro w (hw | hw)
      · rcases mem_cons.1 hw with rfl | hw
        · exact hv
        · exact h.sound w (.inl hw)
      · exact h.sound w (.inr (hstack ▸ mem_cons_of_mem v hw))
    split at hround
    · cases hround
    · split at hround
      · rename_i hseen
        obtain rfl := (Round.next.inj hround).symm
        have hkeep : ∀ w, w ∈ walk.seen ∨ w ∈ walk.stack → w ∈ walk.seen ∨ w ∈ stack := by
          intro w hw
          refine (hpushed [] w hw).imp_left fun hw => ?_
          rcases mem_cons.1 hw with rfl | hw
          · exact hseen
          · exact hw
        refine ⟨⟨fun w hw => ?_, h.nodup, h.missed, ?_, hkeep _ h.start⟩, ?_⟩
        · exact hsound w (hw.imp_left (mem_cons_of_mem v))
        · exact fun w hw p hs => hkeep p (h.closed w hw p hs)
        · rw [boundedWork, boundedWork, hstack, length_cons]
          dsimp only
          omega
      · rename_i hseen
        have hnodup : (v :: walk.seen).Nodup := nodup_cons.2 ⟨hseen, h.nodup⟩
        split at hround
        · cases hround
        · split at hround
          · cases hround
          · split at hround
            · rename_i hnone
              obtain rfl := (Round.next.inj hround).symm
              have hmissing : ¬ source.parentGraph.Available v := by
                rw [ParentGraph.Available, ObjectSource.parentGraph, hnone]
                exact Bool.false_ne_true
              refine ⟨⟨hsound, hnodup, fun hmem => ?_, ?_, hpushed [] _ h.start⟩, ?_⟩
              · rcases mem_cons.1 hmem with rfl | hmem
                · exact hmissing
                · exact h.missed hmem
              · refine forall_mem_cons.2 ⟨fun p hs => absurd hs.available hmissing, ?_⟩
                exact fun w hw p hs => hpushed [] p (h.closed w hw p hs)
              · have hle := unseenWork_cons_le (fun v => (source.parentGraph.parentsOf v).length)
                  (source.states.map HistoryState.stateId) walk.seen v
                rw [boundedWork, boundedWork, hstack, length_cons]
                dsimp only
                omega
            · rename_i s hs
              split at hround
              · cases hround
              · rename_i hother
                obtain rfl := (Round.next.inj hround).symm
                refine ⟨⟨?_, hnodup, fun hmem => ?_, ?_, hpushed _ _ h.start⟩, ?_⟩
                · rintro w (hw | hw)
                  · exact hsound w (.inl hw)
                  · rcases mem_append.1 hw with hw | hw
                    · exact hv.tail ((step_getState hs).2 (mem_reverse.1 hw))
                    · exact hsound w (.inr hw)
                · rcases mem_cons.1 hmem with rfl | hmem
                  · exact absurd rfl hother
                  · exact h.missed hmem
                · refine forall_mem_cons.2 ⟨fun p hstep => ?_, ?_⟩
                  · refine .inr (mem_append_left _ (mem_reverse.2 ?_))
                    exact (step_getState hs).1 hstep
                  · exact fun w hw p hstep => hpushed _ p (h.closed w hw p hstep)
                · have hwork := unseenWork_cons (fun v => (source.parentGraph.parentsOf v).length)
                    (CommitGraphIndex.mem_states hs) hseen
                  rw [boundedWork, boundedWork, hstack, length_cons, length_append,
                    length_reverse]
                  rw [parentsOf_getState hs] at hwork
                  dsimp only at hwork ⊢
                  omega

theorem boundedRound_done (hbudget : budget.Sufficient source descendant)
    (h : BoundedInv source ancestor descendant walk)
    (hround : boundedRound source budget ancestor walk = .done result) : ∃ found, result = .ok found ∧
      (found = true ↔ source.parentGraph.Reaches descendant ancestor ∧
        source.parentGraph.Available ancestor) := by
  unfold boundedRound at hround
  split at hround
  · rename_i hstack
    obtain rfl := (Round.done.inj hround).symm
    refine ⟨false, rfl, fun hfalse => absurd hfalse Bool.false_ne_true, ?_⟩
    rintro ⟨hreaches, havailable⟩
    refine absurd havailable ?_
    have hempty : ∀ w, w ∈ walk.seen ∨ w ∈ walk.stack → w ∈ walk.seen :=
      fun w hw => hw.resolve_right (hstack ▸ not_mem_nil)
    apply h.missed
    exact hreaches.mem (S := (· ∈ walk.seen)) (hempty _ h.start)
      fun x p hx hp => hempty p (h.closed x hx p hp)
  · rename_i v stack hstack
    have hv := h.sound v (.inr (hstack ▸ mem_cons_self))
    simp only [hbudget.interruption] at hround
    split at hround
    · cases hround
    · rename_i hseen
      split at hround
      · rename_i hlimit
        have hle := hbudget.maxStates (v :: walk.seen) (nodup_cons.2 ⟨hseen, h.nodup⟩)
          (forall_mem_cons.2 ⟨hv, fun w hw => h.sound w (.inl hw)⟩)
        exact absurd hlimit hle.not_gt
      · split at hround
        · cases hround
        · rename_i s hs
          split at hround
          · rename_i heq
            obtain rfl := (Round.done.inj hround).symm
            subst heq
            exact ⟨true, rfl, fun _ => ⟨hv, available_getState hs⟩, fun _ => rfl⟩
          · cases hround

theorem isAncestorAsyncBounded_returns (ancestor : ι)
    (hbudget : budget.Sufficient source descendant) : ∃ found,
      Returns (fun fuel => isAncestorAsyncBounded source fuel budget ancestor descendant)
        (.ok found) ∧
      (found = true ↔ source.parentGraph.IsAncestor ancestor descendant) := by
  unfold isAncestorAsyncBounded
  by_cases heq : ancestor = descendant
  · simp only [if_pos heq]
    exact ⟨true, returns_some _, fun _ => .inl heq, fun _ => rfl⟩
  · simp only [if_neg heq]
    have hstart : BoundedInv source ancestor descendant ⟨[descendant], [], 0⟩ := by
      refine ⟨?_, nodup_nil, nofun, nofun, .inr mem_cons_self⟩
      rintro v (hv | hv)
      · exact absurd hv not_mem_nil
      · exact mem_singleton.1 hv ▸ .refl
    obtain ⟨result, hreturns, found, rfl, hfound⟩ := runLoop_returns (boundedWork source)
      (fun _ _ h hround => boundedRound_next h hround)
      (fun _ _ h hround => boundedRound_done hbudget h hround) hstart
    exact ⟨found, hreturns, hfound.trans (or_iff_right heq).symm⟩

end Bounded

section Agreement
variable [LinearOrder ι] [DecidableEq H] [Zero H] {source : ObjectSource ι H}
  {index : CommitGraphIndex ι H} {budget : AncestryBudget}

/-- The four ancestry tests agree exactly when the breadth-first walk meets a child of the ancestor
before a missing state just in case the ancestor can be reached. -/
theorem ancestryTests_agree_iff (hacyclic : source.parentGraph.Acyclic)
    (hwarm : Warm keyedHash source index) (ancestor descendant : ι) (written : Bool)
    (hbudget : budget.Sufficient source descendant) : ∃ sync fromSource bounded cached index',
    Returns (fun fuel => isAncestor source fuel ancestor descendant) sync ∧
    Returns (fun fuel => isAncestorFromSource source fuel ancestor descendant) fromSource ∧
    Returns (fun fuel => isAncestorAsyncBounded source fuel budget ancestor descendant)
      (.ok bounded) ∧
    Returns (fun fuel => index.isAncestor source fuel written ancestor descendant)
      (cached, index') ∧
    (bounded = true ↔ source.parentGraph.IsAncestor ancestor descendant) ∧
    ((sync = bounded ∧ fromSource = bounded ∧ cached = bounded) ↔
      (ancestor = descendant ∨ (source.parentGraph.MetFirst ancestor descendant ↔
        source.parentGraph.IsAncestor ancestor descendant))) := by
  obtain ⟨sync, hsync, hmet⟩ := walkAncestor_returns source ancestor descendant
  obtain ⟨bounded, hbounded, hanswer⟩ := isAncestorAsyncBounded_returns ancestor hbudget
  obtain ⟨cached, index', hcached, hanswer'⟩ := CommitGraphIndex.isAncestor_returns hacyclic
    hwarm.faithful.nodes written ancestor descendant
  have hsame : cached = bounded := Bool.eq_iff_iff.2 (hanswer'.trans hanswer.symm)
  refine ⟨sync, sync, bounded, cached, index', hsync, hsync, hbounded, hcached, hanswer, ?_⟩
  have hagree : sync = bounded ↔ (ancestor = descendant ∨
      (source.parentGraph.MetFirst ancestor descendant ↔
        source.parentGraph.IsAncestor ancestor descendant)) := by
    rw [Bool.eq_iff_iff, hmet, hanswer]
    by_cases heq : ancestor = descendant
    · exact iff_of_true (iff_of_true (.inl heq) (.inl heq)) (.inl heq)
    · rw [or_iff_right heq, or_iff_right heq]
  exact ⟨fun h => hagree.1 h.1, fun h => ⟨hagree.2 h, hagree.2 h, hsame⟩⟩

end Agreement

section Example

def forkedHistory : ObjectSource Nat Nat :=
  ⟨[⟨1, [], 1, 0, none⟩, ⟨2, [1], 1, 0, none⟩, ⟨4, [0, 2], 1, 0, none⟩], fun _ => none⟩

theorem forkedHistory_step (h : forkedHistory.parentGraph.Step v p) :
    v = 2 ∧ p = 1 ∨ v = 4 ∧ (p = 0 ∨ p = 2) := by
  obtain ⟨parents, hparents, hp⟩ := h
  obtain ⟨s, hs, rfl⟩ := Option.map_eq_some_iff.1 hparents
  obtain rfl : s.stateId = v := of_decide_eq_true (find?_some hs :)
  have hmem := mem_of_find?_eq_some hs
  simp only [forkedHistory, mem_cons, not_mem_nil, or_false] at hmem
  rcases hmem with rfl | rfl | rfl <;> simp at hp ⊢ <;> exact hp

theorem forkedHistory_acyclic : forkedHistory.parentGraph.Acyclic := by
  apply ParentGraph.acyclic_of_lt
  intro v p hstep
  rcases forkedHistory_step hstep with ⟨rfl, rfl⟩ | ⟨rfl, rfl | rfl⟩ <;> decide

def fiveStates : AncestryBudget := ⟨5, fun _ => none⟩

theorem fiveStates_sufficient : fiveStates.Sufficient forkedHistory 4 := by
  refine ⟨fun _ => rfl, fun visited hnodup hvisited => ?_⟩
  have hsub : visited ⊆ List.range 5 := by
    intro v hv
    have hle : v ≤ 4 := by
      apply (hvisited v hv).mem (S := (· ≤ 4)) le_rfl
      intro x p _ hstep
      rcases forkedHistory_step hstep with ⟨rfl, rfl⟩ | ⟨rfl, rfl | rfl⟩ <;> decide
    exact mem_range.2 (Nat.lt_succ_of_le hle)
  exact (hnodup.subperm hsub).length_le.trans_eq length_range

theorem forkedHistory_warm (keyedHash : Bytes → Bytes → ContentHash) :
    Warm keyedHash forkedHistory (.withCache (.fs none) true) := .created

theorem ancestryTests_agree_iff_forked : ∃ sync fromSource bounded cached index',
    Returns (fun fuel => isAncestor forkedHistory fuel 2 4) sync ∧
    Returns (fun fuel => isAncestorFromSource forkedHistory fuel 2 4) fromSource ∧
    Returns (fun fuel => isAncestorAsyncBounded forkedHistory fuel fiveStates 2 4) (.ok bounded) ∧
    Returns (fun fuel => (CommitGraphIndex.withCache (.fs none) true).isAncestor forkedHistory fuel
      true 2 4) (cached, index') ∧
    (bounded = true ↔ forkedHistory.parentGraph.IsAncestor 2 4) ∧
    ((sync = bounded ∧ fromSource = bounded ∧ cached = bounded) ↔
      (2 = 4 ∨ (forkedHistory.parentGraph.MetFirst 2 4 ↔
        forkedHistory.parentGraph.IsAncestor 2 4))) :=
  ancestryTests_agree_iff forkedHistory_acyclic
    (forkedHistory_warm fun _ _ => ⟨Vector.replicate 32 0⟩) 2 4 true fiveStates_sufficient

/-- The breadth-first tests stop at the missing state 0, before they read state 2. -/
theorem ancestryTests_disagree : ¬ ∃ found,
    Returns (fun fuel => isAncestor forkedHistory fuel 1 4) found ∧
    Returns (fun fuel => isAncestorFromSource forkedHistory fuel 1 4) found ∧
    Returns (fun fuel => isAncestorAsyncBounded forkedHistory fuel fiveStates 1 4) (.ok found) := by
  rintro ⟨found, hsync, _, hbounded⟩
  have hfalse : Returns (fun fuel => isAncestor forkedHistory fuel 1 4) false :=
    ⟨2, fun fuel hfuel => runLoop_mono (by decide) hfuel⟩
  have htrue : Returns (fun fuel => isAncestorAsyncBounded forkedHistory fuel fiveStates 1 4)
      (.ok true) := ⟨4, fun fuel hfuel => runLoop_mono (by decide) hfuel⟩
  obtain rfl := hsync.unique hfalse
  exact absurd (hbounded.unique htrue) (by decide)

end Example

end Heddle
