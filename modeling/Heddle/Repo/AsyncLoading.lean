import Heddle.Repo.GraphLoading

namespace Heddle
open Heddle.Lib List Option

variable [LinearOrder ι] {source : ObjectSource ι H} {walk walk' : AsyncLoadWalk ι}

/-- A node is only entered when the ancestry of its state is settled. -/
def NodesSettled (g : ParentGraph ι) (nodes : AsyncCommitGraphNodes ι) : Prop :=
  ∀ v, (nodes.lookup v).isSome → Settled g (asyncMergeBaseGraph nodes) v

theorem NodesSettled.unavailable {nodes : AsyncCommitGraphNodes ι} (h : NodesSettled g nodes)
    (hv : g v = none) : Settled g (asyncMergeBaseGraph nodes) v := by
  have hnone : nodes.lookup v = none := by
    cases hnode : nodes.lookup v with
    | none => rfl
    | some node =>
      have hparents := (h v (isSome_of_eq_some hnode)).parents
      rw [hv] at hparents
      exact absurd (map_eq_none_iff.1 hparents) (hnode ▸ some_ne_none node)
  apply settled_unavailable hv
  · exact congrArg (Option.map AsyncCommitGraphNode.parents) hnone
  · exact congrArg (Option.map AsyncCommitGraphNode.generation) hnone

/-- A state that is being loaded: its parents were pushed, its node is still missing. -/
def Waiting (source : ObjectSource ι H) (walk : AsyncLoadWalk ι) (v : ι) : Prop :=
  v ∈ walk.expanded ∧ source.parentGraph.Available v ∧ walk.nodes.lookup v = none

/-- `rest` is the stack once the states `loaded` were loaded from its top. -/
structure LoadedAsync (source : ObjectSource ι H) (walk : AsyncLoadWalk ι) (loaded rest : List ι)
    (walk' : AsyncLoadWalk ι) : Prop where
  rounds : Rounds (loadAsyncRound source) walk walk'
  stack : walk'.stack = rest
  nodes : NodesSettled source.parentGraph walk'.nodes
  settled : ∀ v ∈ loaded, Settled source.parentGraph (asyncMergeBaseGraph walk'.nodes) v
  keeps : ∀ v, Settled source.parentGraph (asyncMergeBaseGraph walk.nodes) v →
    Settled source.parentGraph (asyncMergeBaseGraph walk'.nodes) v
  expanded : ∀ v ∈ walk.expanded, v ∈ walk'.expanded
  waiting : ∀ v, Waiting source walk' v → Waiting source walk v

theorem LoadedAsync.all
    (hone : ∀ v ∈ loaded, ∀ (walk₁ : AsyncLoadWalk ι) (rest₁ : List ι), walk₁.stack = v :: rest₁ →
      NodesSettled source.parentGraph walk₁.nodes →
      (∀ x, Waiting source walk₁ x → Waiting source walk x) →
      ∃ walk₂, LoadedAsync source walk₁ [v] rest₁ walk₂) (hstack : walk.stack = loaded ++ rest)
    (hnodes : NodesSettled source.parentGraph walk.nodes) :
    ∃ walk', LoadedAsync source walk loaded rest walk' := by
  suffices h : ∀ walk₁ : AsyncLoadWalk ι, walk₁.stack = loaded ++ rest →
      NodesSettled source.parentGraph walk₁.nodes →
      (∀ x, Waiting source walk₁ x → Waiting source walk x) →
      ∃ walk', LoadedAsync source walk₁ loaded rest walk' from h walk hstack hnodes fun _ h => h
  clear hstack hnodes
  induction loaded with
  | nil =>
    intro walk₁ hstack hnodes _
    exact ⟨walk₁, .refl, hstack, hnodes, nofun, fun _ h => h, fun _ h => h, fun _ h => h⟩
  | cons v loaded ih =>
    intro walk₁ hstack hnodes hwaiting
    obtain ⟨walk₂, h₂⟩ := hone v mem_cons_self walk₁ _ hstack hnodes hwaiting
    obtain ⟨walk', h'⟩ := ih (fun w hw => hone w (mem_cons_of_mem v hw)) walk₂ h₂.stack h₂.nodes
      fun x hx => hwaiting x (h₂.waiting x hx)
    refine ⟨walk', h₂.rounds.trans h'.rounds, h'.stack, h'.nodes, ?_, ?_, ?_, ?_⟩
    · intro w hw
      rcases mem_cons.1 hw with rfl | hw
      · exact h'.keeps w (h₂.settled w mem_cons_self)
      · exact h'.settled w hw
    · exact fun w hw => h'.keeps w (h₂.keeps w hw)
    · exact fun w hw => h'.expanded w (h₂.expanded w hw)
    · exact fun w hw => h₂.waiting w (h'.waiting w hw)

section Rounds

theorem loadAsyncRound_known (hstack : walk.stack = v :: rest) (hv : (walk.nodes.lookup v).isSome) :
    loadAsyncRound source walk = .next { walk with stack := rest } := by
  rw [loadAsyncRound, hstack]
  exact if_pos hv

section
variable (source : ObjectSource ι H) (hstack : walk.stack = v :: rest)
  (hv : walk.nodes.lookup v = none)
include hstack hv

theorem loadAsyncRound_expand (hexpanded : v ∉ walk.expanded) : loadAsyncRound source walk =
      match source.parentGraph v with
      | none => .next { walk with expanded := v :: walk.expanded }
      | some parents =>
        .next { walk with
          stack := (parents.filter fun p => (walk.nodes.lookup p).isNone).reverse ++ v :: rest
          expanded := v :: walk.expanded } := by
  rw [loadAsyncRound, hstack]
  simp only [hv, isSome_none, Bool.false_eq_true, if_false, if_pos hexpanded]
  rfl

theorem loadAsyncRound_enter (hexpanded : v ∈ walk.expanded) : loadAsyncRound source walk =
      match source.parentGraph v with
      | none => .next { walk with stack := rest }
      | some parents =>
        .next { walk with
          stack := rest
          nodes := walk.nodes.insert v ⟨parents, nextGeneration (generationAsync walk.nodes) parents⟩ } := by
  rw [loadAsyncRound, hstack]
  simp only [hv, isSome_none, Bool.false_eq_true, if_false, hexpanded, not_true_eq_false]
  rfl

end

theorem enter_settled {nodes : AsyncCommitGraphNodes ι} (hg : g v = some parents)
    (hparents : ∀ p ∈ parents, Settled g (asyncMergeBaseGraph nodes) p)
    (hw : w = v ∨ Settled g (asyncMergeBaseGraph nodes) w) :
    Settled g (asyncMergeBaseGraph
      (nodes.insert v ⟨parents, nextGeneration (generationAsync nodes) parents⟩)) w := by
  let node : AsyncCommitGraphNode ι := ⟨parents, nextGeneration (generationAsync nodes) parents⟩
  have hother : ∀ x, x ≠ v →
      (asyncMergeBaseGraph (nodes.insert v node)).parents x = (asyncMergeBaseGraph nodes).parents x ∧
      (asyncMergeBaseGraph (nodes.insert v node)).generation x =
        (asyncMergeBaseGraph nodes).generation x := by
    intro x hx
    have hlookup := Table.lookup_insert_ne (t := nodes) (v := node) hx
    exact ⟨congrArg (Option.map AsyncCommitGraphNode.parents) hlookup,
      congrArg (Option.map AsyncCommitGraphNode.generation) hlookup⟩
  have hself := Table.lookup_insert_self nodes v node
  have hentered : (asyncMergeBaseGraph (nodes.insert v node)).parents v = g v ∧
      g.IsGeneration v ((asyncMergeBaseGraph (nodes.insert v node)).rank v) := by
    constructor
    · rw [hg]
      exact congrArg (Option.map AsyncCommitGraphNode.parents) hself
    · rw [MergeBaseGraph.rank_of_some (congrArg (Option.map AsyncCommitGraphNode.generation) hself)]
      exact isGeneration_nextGeneration hg fun p hp => (hparents p hp).generation
  have hkeeps : ∀ x, Settled g (asyncMergeBaseGraph nodes) x →
      Settled g (asyncMergeBaseGraph (nodes.insert v node)) x :=
    fun x hx => hx.mono hother hentered
  rcases hw with rfl | hw
  · exact settled_of_parents hg hentered fun p hp => hkeeps p (hparents p hp)
  · exact hkeeps w hw

theorem LoadedAsync.finish (hstack : walk.stack = v :: rest) (hv : walk.nodes.lookup v = none)
    (hexpanded : v ∉ walk.expanded) (hg : source.parentGraph v = some parents)
    (hnodes : NodesSettled source.parentGraph walk.nodes)
    (h : LoadedAsync source { walk with
        stack := (parents.filter fun p => (walk.nodes.lookup p).isNone).reverse ++ v :: rest
        expanded := v :: walk.expanded }
      (parents.filter fun p => (walk.nodes.lookup p).isNone).reverse (v :: rest) walk') :
    ∃ walk'', LoadedAsync source walk [v] rest walk'' := by
  have hround := loadAsyncRound_expand source hstack hv hexpanded
  rw [hg] at hround
  have hparents : ∀ p ∈ parents, Settled source.parentGraph (asyncMergeBaseGraph walk'.nodes) p := by
    intro p hp
    cases hlookup : walk.nodes.lookup p with
    | none =>
      apply h.settled p
      rw [mem_reverse, mem_filter, hlookup]
      exact ⟨hp, rfl⟩
    | some node => exact h.keeps p (hnodes p (isSome_of_eq_some hlookup))
  have hwaiting : ∀ x, x ≠ v → Waiting source walk' x → Waiting source walk x := by
    intro x hx hw
    obtain ⟨hexp, havail, hnone⟩ := h.waiting x hw
    exact ⟨(mem_cons.1 hexp).resolve_left hx, havail, hnone⟩
  cases hentered : walk'.nodes.lookup v with
  | some node =>
    have hisSome := isSome_of_eq_some hentered
    refine ⟨_, (Rounds.head hround h.rounds).tail (loadAsyncRound_known h.stack hisSome), rfl,
      h.nodes, ?_, h.keeps, fun w hw => h.expanded w (mem_cons_of_mem v hw), ?_⟩
    · exact fun w hw => mem_singleton.1 hw ▸ h.nodes v hisSome
    · intro x hx
      apply hwaiting x _ hx
      rintro rfl
      exact absurd (hentered.symm.trans hx.2.2) (some_ne_none node)
  | none =>
    have hround' := loadAsyncRound_enter source h.stack hentered
      (h.expanded v mem_cons_self)
    rw [hg] at hround'
    refine ⟨_, (Rounds.head hround h.rounds).tail hround', rfl, ?_, ?_, ?_,
      fun w hw => h.expanded w (mem_cons_of_mem v hw), ?_⟩
    · intro x hx
      rw [Table.lookup_insert] at hx
      split at hx
      · exact enter_settled hg hparents (.inl ‹_›)
      · exact enter_settled hg hparents (.inr (h.nodes x hx))
    · exact fun w hw => enter_settled hg hparents (.inl (mem_singleton.1 hw))
    · exact fun w hw => enter_settled hg hparents (.inr (h.keeps w hw))
    · rintro x ⟨hexp, havail, hnone⟩
      rw [Table.lookup_insert] at hnone
      split at hnone
      · exact absurd hnone (some_ne_none _)
      · exact hwaiting x ‹_› ⟨hexp, havail, hnone⟩

end Rounds

/-- The induction is on the history: the parents of a state are loaded before it. -/
theorem loadedAsync_state (hacyclic : source.parentGraph.Acyclic) (v : ι) :
    ∀ (walk : AsyncLoadWalk ι) (rest : List ι), walk.stack = v :: rest →
      NodesSettled source.parentGraph walk.nodes →
      (∀ x, Waiting source walk x → Relation.TransGen source.parentGraph.Step x v) →
      ∃ walk', LoadedAsync source walk [v] rest walk' := by
  induction v using (source.wellFounded hacyclic).induction with
  | _ v ih =>
    intro walk rest hstack hnodes hwaiting
    by_cases hknown : (walk.nodes.lookup v).isSome
    · refine ⟨_, .single (loadAsyncRound_known hstack hknown), rfl, hnodes, ?_, fun _ h => h,
        fun _ h => h, fun _ h => h⟩
      exact fun w hw => mem_singleton.1 hw ▸ hnodes v hknown
    have hnone : walk.nodes.lookup v = none := not_isSome_iff_eq_none.1 hknown
    cases hg : source.parentGraph v with
    | none =>
      have hsettled := hnodes.unavailable hg
      by_cases hexpanded : v ∈ walk.expanded
      · have hround := loadAsyncRound_enter source hstack hnone hexpanded
        rw [hg] at hround
        refine ⟨_, .single hround, rfl, hnodes, ?_, fun _ h => h, fun _ h => h, fun _ h => h⟩
        exact fun w hw => mem_singleton.1 hw ▸ hsettled
      · have hround := loadAsyncRound_expand source hstack hnone hexpanded
        rw [hg] at hround
        let entered := { walk with expanded := v :: walk.expanded }
        have hentered : entered.stack = v :: rest := hstack
        have hround' := loadAsyncRound_enter source hentered hnone mem_cons_self
        rw [hg] at hround'
        refine ⟨_, (Rounds.single hround).tail hround', rfl, hnodes, ?_, fun _ h => h,
          fun w hw => mem_cons_of_mem v hw, ?_⟩
        · exact fun w hw => mem_singleton.1 hw ▸ hsettled
        · rintro x ⟨hexp, havail, hx⟩
          rcases mem_cons.1 hexp with rfl | hexp
          · exact absurd havail (ParentGraph.not_available hg)
          · exact ⟨hexp, havail, hx⟩
    | some parents =>
      have hexpanded : v ∉ walk.expanded := fun hv =>
        hacyclic v (hwaiting v ⟨hv, ParentGraph.available_of_some hg, hnone⟩)
      let missing := (parents.filter fun p => (walk.nodes.lookup p).isNone).reverse
      let pushed := { walk with stack := missing ++ v :: rest, expanded := v :: walk.expanded }
      have hone : ∀ p ∈ missing, ∀ (walk₁ : AsyncLoadWalk ι) (rest₁ : List ι),
          walk₁.stack = p :: rest₁ → NodesSettled source.parentGraph walk₁.nodes →
          (∀ x, Waiting source walk₁ x → Waiting source pushed x) →
          ∃ walk₂, LoadedAsync source walk₁ [p] rest₁ walk₂ := by
        intro p hp walk₁ rest₁ hstack₁ hnodes₁ hwaiting₁
        have hstep : source.parentGraph.Step v p :=
          ⟨parents, hg, (mem_filter.1 (mem_reverse.1 hp)).1⟩
        refine ih p hstep walk₁ rest₁ hstack₁ hnodes₁ fun x hx => ?_
        obtain ⟨hexp, havail, hxnone⟩ := hwaiting₁ x hx
        rcases mem_cons.1 hexp with rfl | hexp
        · exact .single hstep
        · exact (hwaiting x ⟨hexp, havail, hxnone⟩).tail hstep
      have hpushed : pushed.stack = missing ++ v :: rest := rfl
      obtain ⟨walk', h⟩ := LoadedAsync.all hone hpushed hnodes
      exact h.finish hstack hnone hexpanded hg hnodes

/-- After a state is loaded its ancestry is settled; what was settled before stays so. -/
theorem ensureLoadedAsync_settles (hacyclic : source.parentGraph.Acyclic)
    (hnodes : NodesSettled source.parentGraph nodes) (v : ι) :
    ∃ nodes', Returns (fun fuel => ensureLoadedAsync source fuel nodes v) nodes' ∧
      NodesSettled source.parentGraph nodes' ∧
      Settled source.parentGraph (asyncMergeBaseGraph nodes') v ∧
      ∀ w, Settled source.parentGraph (asyncMergeBaseGraph nodes) w →
        Settled source.parentGraph (asyncMergeBaseGraph nodes') w := by
  obtain ⟨walk', h⟩ := loadedAsync_state hacyclic v ⟨[v], [], nodes⟩ [] rfl hnodes
    fun x hx => absurd hx.1 not_mem_nil
  have hdone : loadAsyncRound source walk' = .done walk'.nodes := by
    rw [loadAsyncRound, h.stack]
  exact ⟨_, Rounds.returns h.rounds (returns_done hdone), h.nodes, h.settled v mem_cons_self,
    h.keeps⟩

end Heddle
