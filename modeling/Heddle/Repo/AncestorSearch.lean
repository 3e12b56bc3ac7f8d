import Heddle.Repo.GraphLoading

namespace Heddle
open Heddle.Lib List

variable [LinearOrder ι] [DecidableEq H] {source : ObjectSource ι H} {P : ι → Bloom → Prop}

namespace CommitGraphIndex
variable {index : CommitGraphIndex ι H} {walk walk' : List ι × List ι}

/-- A visited state is not the one that is searched, and its parents are visited or still to come,
but those that are too low to have it for an ancestor. -/
structure AncestorInv (source : ObjectSource ι H) (index : CommitGraphIndex ι H)
    (ancestor descendant : ι) (ancestorGeneration : Nat) (walk : List ι × List ι) : Prop where
  sound : ∀ v ∈ walk.1, source.parentGraph.Reaches descendant v
  start : descendant ∈ walk.1 ∨ descendant ∈ walk.2
  missed : ancestor ∉ walk.2
  closed : ∀ v ∈ walk.2, ∀ p, source.parentGraph.Step v p →
    WithBot.some ancestorGeneration ≤ index.nodes.mergeBaseGraph.rank p → p ∈ walk.1 ∨ p ∈ walk.2

def ancestorWork (source : ObjectSource ι H) (index : CommitGraphIndex ι H)
    (walk : List ι × List ι) : Nat :=
  walk.1.length + unseenWork (fun v => (index.nodes.lookup v).elim 0 fun node => node.parents.length)
    (source.states.map HistoryState.stateId) walk.2

omit [DecidableEq H] in
theorem any_generation_iff : (index.generation v).any (n ≤ ·) = true ↔
    WithBot.some n ≤ index.nodes.mergeBaseGraph.rank v := by
  cases hv : index.generation v with
  | none =>
    rw [MergeBaseGraph.rank_of_none hv]
    exact ⟨nofun, fun h => absurd h (WithBot.not_coe_le_bot n)⟩
  | some k =>
    rw [MergeBaseGraph.rank_of_some hv, WithBot.coe_le_coe]
    exact decide_eq_true_iff

omit [LinearOrder ι] [DecidableEq H] in
theorem mem_states [DecidableEq ι] (hs : source.getState v = some s) :
    v ∈ source.states.map HistoryState.stateId :=
  mem_map.2 ⟨s, mem_of_find?_eq_some hs, of_decide_eq_true (find?_some hs :)⟩

omit [DecidableEq H] in
theorem ancestorRound_next (hfaithful : Faithful source P index.nodes)
    (hsettled : Settled source.parentGraph index.nodes.mergeBaseGraph descendant)
    (h : AncestorInv source index ancestor descendant n walk)
    (hround : ancestorRound index ancestor n walk = .next walk') :
    AncestorInv source index ancestor descendant n walk' ∧
      ancestorWork source index walk' < ancestorWork source index walk := by
  obtain ⟨stack, visited⟩ := walk
  unfold ancestorRound at hround
  cases stack with
  | nil => cases hround
  | cons v stack =>
    have hsound : ∀ w ∈ stack, source.parentGraph.Reaches descendant w :=
      fun w hw => h.sound w (mem_cons_of_mem v hw)
    dsimp only at hround
    split at hround
    · rename_i hvisited
      obtain rfl := (Round.next.inj hround).symm
      refine ⟨⟨hsound, ?_, h.missed, fun w hw p hs hp => ?_⟩, ?_⟩
      · rcases h.start with hstart | hstart
        · rcases mem_cons.1 hstart with rfl | hstart
          · exact .inr hvisited
          · exact .inl hstart
        · exact .inr hstart
      · rcases h.closed w hw p hs hp with hmem | hmem
        · rcases mem_cons.1 hmem with rfl | hmem
          · exact .inr hvisited
          · exact .inl hmem
        · exact .inr hmem
      · rw [ancestorWork, ancestorWork, length_cons]
        dsimp only
        omega
    · rename_i hvisited
      split at hround
      · cases hround
      · rename_i hother
        have hstart : ∀ pushed : List ι, descendant ∈ pushed ++ stack ∨ descendant ∈ v :: visited := by
          intro pushed
          rcases h.start with hstart | hstart
          · rcases mem_cons.1 hstart with rfl | hstart
            · exact .inr mem_cons_self
            · exact .inl (mem_append_right _ hstart)
          · exact .inr (mem_cons_of_mem v hstart)
        have hmissed : ancestor ∉ v :: visited := by
          rw [mem_cons, not_or]
          exact ⟨fun heq => hother heq.symm, h.missed⟩
        have hclosed : ∀ (pushed : List ι), ∀ w ∈ visited, ∀ p, source.parentGraph.Step w p →
            WithBot.some n ≤ index.nodes.mergeBaseGraph.rank p →
            p ∈ pushed ++ stack ∨ p ∈ v :: visited := by
          intro pushed w hw p hs hp
          rcases h.closed w hw p hs hp with hmem | hmem
          · rcases mem_cons.1 hmem with rfl | hmem
            · exact .inr mem_cons_self
            · exact .inl (mem_append_right _ hmem)
          · exact .inr (mem_cons_of_mem v hmem)
        have hreaches := h.sound v mem_cons_self
        have hparents := (hsettled.reaches hreaches).parents
        split at hround
        · rename_i hnone
          obtain rfl := (Round.next.inj hround).symm
          refine ⟨⟨hsound, hstart [], hmissed, fun w hw p hs hp => ?_⟩, ?_⟩
          · rcases mem_cons.1 hw with rfl | hw
            · have hg : source.parentGraph w = none :=
                hparents.symm.trans (congrArg (Option.map CommitGraphNode.parents) hnone)
              exact absurd hs.available (ParentGraph.not_available hg)
            · exact hclosed [] w hw p hs hp
          · have hle := unseenWork_cons_le
              (fun v => (index.nodes.lookup v).elim 0 fun node => node.parents.length)
              (source.states.map HistoryState.stateId) visited v
            rw [ancestorWork, ancestorWork, length_cons]
            dsimp only
            omega
        · rename_i node hnode
          obtain rfl := (Round.next.inj hround).symm
          have hg := hfaithful.parents hnode
          refine ⟨⟨?_, hstart _, hmissed, fun w hw p hs hp => ?_⟩, ?_⟩
          · intro w hw
            rcases mem_append.1 hw with hw | hw
            · have hstep := (ParentGraph.step_iff hg).2 (mem_filter.1 (mem_reverse.1 hw)).1
              exact hreaches.tail hstep
            · exact hsound w hw
          · rcases mem_cons.1 hw with rfl | hw
            · refine .inl (mem_append_left _ (mem_reverse.2 (mem_filter.2 ?_)))
              exact ⟨(ParentGraph.step_iff hg).1 hs, any_generation_iff.2 hp⟩
            · exact hclosed _ w hw p hs hp
          · obtain ⟨s, hs, _⟩ := hfaithful.state hnode
            have hwork := unseenWork_cons
              (fun v => (index.nodes.lookup v).elim 0 fun node => node.parents.length)
              (mem_states hs) hvisited
            rw [hnode, Option.elim_some] at hwork
            have hpushed := length_filter_le
              (fun parent => (index.generation parent).any (n ≤ ·)) node.parents
            rw [ancestorWork, ancestorWork, length_cons, length_append, length_reverse]
            dsimp only at hwork ⊢
            omega

omit [DecidableEq H] in
theorem ancestorRound_done
    (hsettled : Settled source.parentGraph index.nodes.mergeBaseGraph descendant)
    (hgeneration : index.generation ancestor = some n)
    (h : AncestorInv source index ancestor descendant n walk)
    (hround : ancestorRound index ancestor n walk = .done found) :
    found = true ↔ source.parentGraph.Reaches descendant ancestor := by
  obtain ⟨stack, visited⟩ := walk
  unfold ancestorRound at hround
  cases stack with
  | nil =>
    obtain rfl := (Round.done.inj hround).symm
    refine ⟨nofun, fun hreaches => absurd ?_ h.missed⟩
    have hall : ∀ v, source.parentGraph.Reaches descendant v →
        source.parentGraph.Reaches v ancestor → v ∈ visited := by
      intro v hv
      induction hv with
      | refl => exact fun _ => h.start.resolve_left not_mem_nil
      | @tail v p hv hs ih =>
        intro hp
        have hrank := hp.generation_le fun x hx =>
          (hsettled.reaches ((hv.tail hs).trans hx)).generation
        rw [MergeBaseGraph.rank_of_some hgeneration] at hrank
        exact (h.closed v (ih (hp.head hs)) p hs hrank).resolve_left not_mem_nil
    exact hall ancestor hreaches .refl
  | cons v stack =>
    dsimp only at hround
    split at hround
    · cases hround
    · split at hround
      · rename_i heq
        obtain rfl := (Round.done.inj hround).symm
        exact ⟨fun _ => heq ▸ h.sound v mem_cons_self, fun _ => rfl⟩
      · split at hround <;> cases hround

theorem isAncestor_returns (hacyclic : source.parentGraph.Acyclic)
    (hindex : Faithful source P index.nodes) (written : Bool) (ancestor descendant : ι) :
    ∃ found index', Returns (fun fuel => index.isAncestor source fuel written ancestor descendant)
      (found, index') ∧ (found = true ↔ source.parentGraph.IsAncestor ancestor descendant) := by
  by_cases heq : ancestor = descendant
  · refine ⟨true, index, ⟨0, fun fuel _ => if_pos heq⟩, fun _ => .inl heq, fun _ => rfl⟩
  obtain ⟨warmed, hwarmed, hfaithful, hsettled, _⟩ :=
    ensureLoaded_settles hacyclic hindex written descendant
  have hrun : ∀ k : CommitGraphIndex ι H → Nat → Option (Bool × CommitGraphIndex ι H),
      ∀ result, Returns (k warmed) result →
      Returns (fun fuel => (index.ensureLoaded source fuel written descendant).bind
        fun index' => k index' fuel) result :=
    fun k result hk => hwarmed.bind hk
  unfold isAncestor
  simp only [if_neg heq]
  cases hgeneration : warmed.generation ancestor with
  | none =>
    refine ⟨false, warmed, hrun _ _ ?_, nofun, ?_⟩
    · simp only [hgeneration]
      exact returns_some _
    · rintro (hsame | ⟨hreaches, havailable⟩)
      · exact absurd hsame heq
      · have hparents := (hsettled.reaches hreaches).parents
        have hnone : warmed.nodes.lookup ancestor = none := Option.map_eq_none_iff.1 hgeneration
        have hg : source.parentGraph ancestor = none :=
          hparents.symm.trans (congrArg (Option.map CommitGraphNode.parents) hnone)
        exact absurd havailable (ParentGraph.not_available hg)
  | some n =>
    obtain ⟨found, hreturns, hfound⟩ := runLoop_returns (ancestorWork source warmed)
      (fun _ _ h hround => ancestorRound_next hfaithful hsettled h hround)
      (fun _ _ h hround => ancestorRound_done hsettled hgeneration h hround)
      (s := ([descendant], [])) ⟨fun v hv => mem_singleton.1 hv ▸ .refl,
        .inl mem_cons_self, not_mem_nil, nofun⟩
    refine ⟨found, warmed, hrun _ _ ?_, hfound.trans ?_⟩
    · simp only [hgeneration]
      exact hreturns.map (·, warmed)
    · obtain ⟨node, hnode, _⟩ := Option.map_eq_some_iff.1 hgeneration
      have havailable := ParentGraph.available_of_some (hfaithful.parents hnode)
      exact ⟨fun h => .inr ⟨h, havailable⟩, fun h => (h.resolve_left heq).1⟩

end CommitGraphIndex

end Heddle
