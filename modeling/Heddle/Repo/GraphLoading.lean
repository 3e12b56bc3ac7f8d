import Heddle.Repo.CommitGraph

namespace Heddle
open Heddle.Lib List Option

section Settled
variable {g : ParentGraph ι} {graph graph' : MergeBaseGraph ι}

/-- The graph knows the ancestry of a state: all its parents and generations, and what is missing. -/
def Settled (g : ParentGraph ι) (graph : MergeBaseGraph ι) (v : ι) : Prop :=
  ∀ w, g.Reaches v w → graph.parents w = g w ∧ g.IsGeneration w (graph.rank w)

theorem MergeBaseGraph.rank_of_some (h : graph.generation v = some n) : graph.rank v = WithBot.some n := by
  rw [MergeBaseGraph.rank, h]
  rfl

theorem MergeBaseGraph.rank_of_none (h : graph.generation v = none) : graph.rank v = ⊥ := by
  rw [MergeBaseGraph.rank, h]
  rfl

section
variable (h : Settled g graph v)
include h

theorem Settled.reaches (hw : g.Reaches v w) : Settled g graph w :=
  fun x hx => h x (hw.trans hx)

theorem Settled.generation : g.IsGeneration v (graph.rank v) :=
  (h v .refl).2

theorem Settled.rank_lt (hw : g.Reaches v w) (hs : g.Step w p) :
    graph.rank p < graph.rank w :=
  (h.reaches hw).generation.lt (h.reaches (hw.tail hs)).generation hs

theorem Settled.parents : graph.parents v = g v := (h v .refl).1

end

theorem isGeneration_nextGeneration (h : g v = some parents)
    (hgen : ∀ p ∈ parents, g.IsGeneration p (graph.rank p)) :
    g.IsGeneration v (WithBot.some (nextGeneration graph.generation parents)) := by
  have hknown : ∀ n : Nat, n ≤ nextGeneration graph.generation parents ↔
      n = 0 ∨ ∃ p ∈ parents, ∃ k, graph.generation p = some k ∧ n ≤ k + 1 := by
    intro n
    unfold nextGeneration
    cases hmax : (parents.filterMap graph.generation).max? with
    | none =>
      have hnone := max?_eq_none_iff.1 hmax
      constructor
      · exact fun hn => .inl (Nat.le_zero.1 hn)
      · rintro (rfl | ⟨p, hp, k, hk, _⟩)
        · exact le_rfl
        · exact absurd (mem_filterMap.2 ⟨p, hp, hk⟩) (hnone ▸ not_mem_nil)
    | some m =>
      obtain ⟨hmem, hle⟩ := max?_eq_some_iff.1 hmax
      constructor
      · intro hn
        obtain ⟨p, hp, hk⟩ := mem_filterMap.1 hmem
        exact .inr ⟨p, hp, m, hk, hn⟩
      · rintro (rfl | ⟨p, hp, k, hk, hn⟩)
        · exact Nat.zero_le _
        · exact hn.trans (Nat.succ_le_succ (hle k (mem_filterMap.2 ⟨p, hp, hk⟩)))
  intro n
  change WithBot.some n ≤ _ ↔ _
  rw [WithBot.coe_le_coe, hknown]
  constructor
  · rintro (rfl | ⟨p, hp, k, hk, hn⟩)
    · exact .start (ParentGraph.available_of_some h)
    · cases n with
      | zero => exact .start (ParentGraph.available_of_some h)
      | succ n =>
        have hpath : WithBot.some n ≤ graph.rank p ↔ g.PathFrom p n := hgen p hp n
        rw [MergeBaseGraph.rank_of_some hk, WithBot.coe_le_coe] at hpath
        exact .step ⟨parents, h, hp⟩ (hpath.1 (Nat.le_of_succ_le_succ hn))
  · intro hpath
    cases hpath with
    | start => exact .inl rfl
    | @step _ p n hs hpath =>
      have hp := (ParentGraph.step_iff h).1 hs
      have hrank : WithBot.some n ≤ graph.rank p := (hgen p hp n).2 hpath
      cases hk : graph.generation p with
      | none =>
        rw [MergeBaseGraph.rank_of_none hk] at hrank
        exact absurd hrank (WithBot.not_coe_le_bot n)
      | some k =>
        rw [MergeBaseGraph.rank_of_some hk, WithBot.coe_le_coe] at hrank
        exact .inr ⟨p, hp, k, hk, Nat.succ_le_succ hrank⟩

theorem settled_unavailable (h : g v = none) (hparents : graph.parents v = none)
    (hgeneration : graph.generation v = none) : Settled g graph v := by
  intro w hw
  rcases hw.cases_head with rfl | ⟨p, hs, _⟩
  · rw [MergeBaseGraph.rank_of_none hgeneration, hparents, h]
    exact ⟨rfl, ParentGraph.isGeneration_bot h⟩
  · exact absurd hs.available (ParentGraph.not_available h)

/-- A state that is entered with the right generation settles what the graph knew before. -/
theorem Settled.mono (h : Settled g graph v) (hother : ∀ w, w ≠ entered →
      graph'.parents w = graph.parents w ∧ graph'.generation w = graph.generation w)
    (hentered : graph'.parents entered = g entered ∧
      g.IsGeneration entered (graph'.rank entered)) : Settled g graph' v := by
  intro w hw
  by_cases heq : w = entered
  · exact heq ▸ hentered
  · rw [MergeBaseGraph.rank, (hother w heq).1, (hother w heq).2]
    exact h w hw

theorem settled_of_parents (hg : g v = some parents) (hself : graph.parents v = g v ∧
      g.IsGeneration v (graph.rank v)) (h : ∀ p ∈ parents, Settled g graph p) :
    Settled g graph v := by
  intro w hw
  rcases hw.cases_head with rfl | ⟨p, hs, hp⟩
  · exact hself
  · exact h p ((ParentGraph.step_iff hg).1 hs) w hp

end Settled

section Load
variable [LinearOrder ι] {source : ObjectSource ι H} {P : ι → Bloom → Prop}

theorem ObjectSource.wellFounded (source : ObjectSource ι H) (h : source.parentGraph.Acyclic) :
    WellFounded fun p v => source.parentGraph.Step v p := by
  have hfin : ∀ v, source.parentGraph.Available v → v ∈ source.states.map HistoryState.stateId := by
    intro v hv
    obtain ⟨parents, hparents⟩ := isSome_iff_exists.1 hv
    obtain ⟨s, hs, _⟩ := map_eq_some_iff.1 hparents
    exact mem_map.2 ⟨s, mem_of_find?_eq_some hs, of_decide_eq_true (find?_some hs :)⟩
  exact h.wellFounded hfin

/-- The data of a state, but a model that is empty may have been lost in the cache. -/
structure Records (s : HistoryState ι H) (data : CommitGraphStateData ι H) : Prop where
  parents : data.parents = s.parents
  treeHash : data.treeHash = s.tree
  createdAtSecs : data.createdAtSecs = s.createdAtSecs
  agentModel : data.agentModel = s.agentModel ∨ data.agentModel = s.agentModel.filter (· ≠ "")

def CommitGraphNode.stateData (node : CommitGraphNode ι H) : CommitGraphStateData ι H :=
  ⟨node.parents, node.treeHash, node.createdAtSecs, node.agentModel⟩

/-- The nodes hold what the source holds, whatever their generations; `P` is said of each filter. -/
structure Faithful (source : ObjectSource ι H) (P : ι → Bloom → Prop)
    (nodes : CommitGraphNodes ι H) : Prop where
  state : nodes.lookup v = some node → ∃ s, source.getState v = some s ∧ Records s node.stateData
  bloom : nodes.lookup v = some node → node.bloom = some bits → P v bits

theorem Faithful.parents (h : Faithful source P nodes) (hnode : nodes.lookup v = some node) :
    source.parentGraph v = some node.parents := by
  obtain ⟨s, hs, hrecords⟩ := h.state hnode
  rw [ObjectSource.parentGraph, hs]
  exact congrArg some hrecords.parents.symm

theorem Faithful.lookup_none (h : Faithful source P nodes) (hv : source.parentGraph v = none) :
    nodes.lookup v = none := by
  cases hnode : nodes.lookup v with
  | none => rfl
  | some node => exact absurd (hv.symm.trans (h.parents hnode)) (some_ne_none _).symm

theorem Faithful.knownData_some (h : Faithful source P nodes)
    (hdata : knownData source nodes v = some data) :
    (∃ s, source.getState v = some s ∧ Records s data) ∧
      source.parentGraph v = some data.parents := by
  have hstate : ∃ s, source.getState v = some s ∧ Records s data := by
    unfold knownData at hdata
    cases hnode : nodes.lookup v with
    | some node =>
      rw [hnode] at hdata
      exact some.inj hdata ▸ h.state hnode
    | none =>
      rw [hnode] at hdata
      obtain ⟨s, hs, rfl⟩ := map_eq_some_iff.1 hdata
      exact ⟨s, hs, rfl, rfl, rfl, .inl rfl⟩
  refine ⟨hstate, ?_⟩
  obtain ⟨s, hs, hrecords⟩ := hstate
  rw [ObjectSource.parentGraph, hs]
  exact congrArg some hrecords.parents.symm

theorem knownData_none (hdata : knownData source nodes v = none) : source.parentGraph v = none := by
  unfold knownData at hdata
  cases hnode : nodes.lookup v with
  | some node =>
    rw [hnode] at hdata
    exact absurd hdata (some_ne_none _)
  | none =>
    rw [hnode] at hdata
    rw [ObjectSource.parentGraph, map_eq_none_iff.1 hdata]
    rfl

theorem Faithful.unavailable (h : Faithful source P nodes) (hv : source.parentGraph v = none) :
    Settled source.parentGraph nodes.mergeBaseGraph v := by
  have hlookup := h.lookup_none hv
  apply settled_unavailable hv
  · exact congrArg (Option.map CommitGraphNode.parents) hlookup
  · exact congrArg (Option.map CommitGraphNode.generation) hlookup

theorem Faithful.insert (h : Faithful source P nodes) (hs : source.getState v = some s)
    (hrecords : Records s node.stateData) (hbloom : ∀ bits, node.bloom = some bits → P v bits) :
    Faithful source P (nodes.insert v node) := by
  constructor
  · intro v' node' hnode
    rw [Table.lookup_insert] at hnode
    split at hnode
    · obtain rfl := some.inj hnode
      subst v'
      exact ⟨s, hs, hrecords⟩
    · exact h.state hnode
  · intro v' node' bits hnode hbits
    rw [Table.lookup_insert] at hnode
    split at hnode
    · obtain rfl := some.inj hnode
      subst v'
      exact hbloom bits hbits
    · exact h.bloom hnode hbits

variable [DecidableEq H]

theorem Faithful.refreshed (h : Faithful source P nodes)
    (hbits : (refreshedNode nodes v data).bloom = some bits) : P v bits := by
  obtain ⟨node, hnode, hbloom⟩ := bind_eq_some_iff.1 hbits
  exact h.bloom (filter_eq_some_iff.1 hnode).1 hbloom

/-- The states whose parents are still to be loaded wait in `pending`. -/
structure LoadInv (source : ObjectSource ι H) (P : ι → Bloom → Prop) (walk : LoadWalk ι H) :
    Prop where
  faithful : Faithful source P walk.nodes
  scheduled : ∀ v ∈ walk.scheduled, (walk.pending.lookup v).isSome ∨
    Settled source.parentGraph walk.nodes.mergeBaseGraph v
  pending : ∀ v, (walk.pending.lookup v).isSome → v ∈ walk.scheduled

/-- `rest` is the stack once the states `loaded` were loaded from its top. -/
structure LoadedFrom (source : ObjectSource ι H) (P : ι → Bloom → Prop) (walk : LoadWalk ι H)
    (loaded : List ι) (rest : List (ι × Bool)) (walk' : LoadWalk ι H) : Prop where
  rounds : Rounds (loadRound source) walk walk'
  stack : walk'.stack = rest
  inv : LoadInv source P walk'
  settled : ∀ v ∈ loaded, Settled source.parentGraph walk'.nodes.mergeBaseGraph v
  keeps : ∀ v, Settled source.parentGraph walk.nodes.mergeBaseGraph v →
    Settled source.parentGraph walk'.nodes.mergeBaseGraph v
  pending : ∀ v, walk'.pending.lookup v = walk.pending.lookup v

theorem LoadedFrom.all {walk : LoadWalk ι H}
    (hone : ∀ v ∈ loaded, ∀ walk₁ : LoadWalk ι H, ∀ rest₁, walk₁.stack = (v, false) :: rest₁ →
      LoadInv source P walk₁ → (∀ x, walk₁.pending.lookup x = walk.pending.lookup x) →
      ∃ walk₂, LoadedFrom source P walk₁ [v] rest₁ walk₂)
    (hstack : walk.stack = loaded.map (·, false) ++ rest) (hinv : LoadInv source P walk) :
    ∃ walk', LoadedFrom source P walk loaded rest walk' := by
  suffices h : ∀ walk₁ : LoadWalk ι H, walk₁.stack = loaded.map (·, false) ++ rest →
      LoadInv source P walk₁ → (∀ x, walk₁.pending.lookup x = walk.pending.lookup x) →
      ∃ walk', LoadedFrom source P walk₁ loaded rest walk' from h walk hstack hinv fun _ => rfl
  clear hstack hinv
  induction loaded with
  | nil => exact fun walk₁ hstack hinv _ => ⟨walk₁, .refl, hstack, hinv, nofun, fun _ h => h, fun _ => rfl⟩
  | cons v loaded ih =>
    intro walk₁ hstack hinv hpending
    obtain ⟨walk₂, h₂⟩ := hone v mem_cons_self walk₁ _ hstack hinv hpending
    obtain ⟨walk', h'⟩ := ih (fun w hw => hone w (mem_cons_of_mem v hw)) walk₂ h₂.stack h₂.inv
      fun x => (h₂.pending x).trans (hpending x)
    refine ⟨walk', h₂.rounds.trans h'.rounds, h'.stack, h'.inv, ?_, ?_, ?_⟩
    · intro w hw
      rcases mem_cons.1 hw with rfl | hw
      · exact h'.keeps w (h₂.settled w mem_cons_self)
      · exact h'.settled w hw
    · exact fun w hw => h'.keeps w (h₂.keeps w hw)
    · exact fun x => (h'.pending x).trans (h₂.pending x)

section Finish
variable {walk : LoadWalk ι H}

theorem finishState_lookup (walk : LoadWalk ι H) (v : ι) (data : CommitGraphStateData ι H) (w : ι) :
    (finishState walk v data).nodes.lookup w =
      if w = v then some (refreshedNode walk.nodes v data) else walk.nodes.lookup w := by
  unfold finishState
  dsimp only
  split
  · rename_i hsame
    split
    · rename_i heq
      exact heq ▸ hsame
    · rfl
  · exact Table.lookup_insert _ _ _ _

theorem finishState_pending : (finishState walk v data).pending = walk.pending.erase v := by
  unfold finishState
  dsimp only
  split <;> rfl

theorem finishState_stack : (finishState walk v data).stack = walk.stack := by
  unfold finishState
  dsimp only
  split <;> rfl

theorem finishState_scheduled : (finishState walk v data).scheduled = walk.scheduled := by
  unfold finishState
  dsimp only
  split <;> rfl

theorem Faithful.finish (walk : LoadWalk ι H) (h : Faithful source P walk.nodes) (hs : source.getState v = some s)
    (hrecords : Records s data) : Faithful source P (finishState walk v data).nodes := by
  unfold finishState
  dsimp only
  split
  · exact h
  · exact h.insert hs hrecords fun bits hbits => h.refreshed hbits

theorem finishState_settled (walk : LoadWalk ι H) (hg : source.parentGraph v = some data.parents)
    (hparents : ∀ p ∈ data.parents, Settled source.parentGraph walk.nodes.mergeBaseGraph p)
    (hw : w = v ∨ Settled source.parentGraph walk.nodes.mergeBaseGraph w) :
    Settled source.parentGraph (finishState walk v data).nodes.mergeBaseGraph w := by
  have hother : ∀ x, x ≠ v →
      (finishState walk v data).nodes.mergeBaseGraph.parents x =
        walk.nodes.mergeBaseGraph.parents x ∧
      (finishState walk v data).nodes.mergeBaseGraph.generation x =
        walk.nodes.mergeBaseGraph.generation x := by
    intro x hx
    have hlookup := finishState_lookup walk v data x
    rw [if_neg hx] at hlookup
    exact ⟨congrArg (Option.map CommitGraphNode.parents) hlookup,
      congrArg (Option.map CommitGraphNode.generation) hlookup⟩
  have hself := finishState_lookup walk v data v
  rw [if_pos rfl] at hself
  have hentered : (finishState walk v data).nodes.mergeBaseGraph.parents v =
        source.parentGraph v ∧ source.parentGraph.IsGeneration v
          ((finishState walk v data).nodes.mergeBaseGraph.rank v) := by
    constructor
    · rw [hg]
      exact congrArg (Option.map CommitGraphNode.parents) hself
    · rw [MergeBaseGraph.rank_of_some (congrArg (Option.map CommitGraphNode.generation) hself)]
      exact isGeneration_nextGeneration hg fun p hp => (hparents p hp).generation
  have hkeeps : ∀ x, Settled source.parentGraph walk.nodes.mergeBaseGraph x →
      Settled source.parentGraph (finishState walk v data).nodes.mergeBaseGraph x :=
    fun x hx => hx.mono hother hentered
  rcases hw with rfl | hw
  · exact settled_of_parents hg hentered fun p hp => hkeeps p (hparents p hp)
  · exact hkeeps w hw

end Finish

section Rounds
variable {walk walk' : LoadWalk ι H}

theorem loadRound_scheduled (hstack : walk.stack = (v, false) :: rest) (hv : v ∈ walk.scheduled) :
    loadRound source walk = .next { walk with stack := rest } := by
  rw [loadRound, hstack]
  exact if_pos hv

theorem loadRound_unavailable (hstack : walk.stack = (v, false) :: rest) (hv : v ∉ walk.scheduled)
    (hdata : knownData source walk.nodes v = none) : loadRound source walk =
      .next { walk with stack := rest, scheduled := v :: walk.scheduled } := by
  rw [loadRound, hstack]
  simp only [if_neg hv, hdata]

def pushParents (walk : LoadWalk ι H) (rest : List (ι × Bool)) (v : ι)
    (data : CommitGraphStateData ι H) : LoadWalk ι H :=
  { walk with
    stack := data.parents.map (·, false) ++ (v, true) :: rest
    scheduled := v :: walk.scheduled
    pending := walk.pending.insert v data }

theorem loadRound_push (hstack : walk.stack = (v, false) :: rest) (hv : v ∉ walk.scheduled)
    (hdata : knownData source walk.nodes v = some data) :
    loadRound source walk = .next (pushParents walk rest v data) := by
  rw [loadRound, hstack]
  simp only [if_neg hv, hdata]
  rfl

theorem loadRound_finish (hstack : walk.stack = (v, true) :: rest)
    (hdata : walk.pending.lookup v = some data) : loadRound source walk =
      .next (finishState { walk with stack := rest } v data) := by
  rw [loadRound, hstack]
  simp only [hdata]

omit [DecidableEq H] in
theorem LoadInv.push (hinv : LoadInv source P walk) (rest : List (ι × Bool)) (v : ι)
    (data : CommitGraphStateData ι H) : LoadInv source P (pushParents walk rest v data) := by
  refine ⟨hinv.faithful, fun w hw => ?_, fun w hw => ?_⟩
  · by_cases heq : w = v
    · subst heq
      exact .inl (isSome_of_eq_some (Table.lookup_insert_self _ _ _))
    · rw [pushParents, Table.lookup_insert_ne heq]
      exact hinv.scheduled w ((mem_cons.1 hw).resolve_left heq)
  · by_cases heq : w = v
    · exact heq ▸ mem_cons_self
    · rw [pushParents, Table.lookup_insert_ne heq] at hw
      exact mem_cons_of_mem v (hinv.pending w hw)

theorem LoadedFrom.finish (hinv : LoadInv source P walk) (hstack : walk.stack = (v, false) :: rest)
    (hv : v ∉ walk.scheduled) (hdata : knownData source walk.nodes v = some data)
    (h : LoadedFrom source P (pushParents walk rest v data) data.parents ((v, true) :: rest) walk') :
    LoadedFrom source P walk [v] rest (finishState { walk' with stack := rest } v data) := by
  obtain ⟨⟨s, hs, hrecords⟩, hg⟩ := hinv.faithful.knownData_some hdata
  have hpushed : walk'.pending.lookup v = some data := by
    rw [h.pending]
    exact Table.lookup_insert_self _ _ _
  have hsettled : ∀ w, w = v ∨ Settled source.parentGraph walk'.nodes.mergeBaseGraph w →
      Settled source.parentGraph
        (finishState { walk' with stack := rest } v data).nodes.mergeBaseGraph w :=
    fun w hw => finishState_settled { walk' with stack := rest } hg h.settled hw
  have hrounds : Rounds (loadRound source) walk
      (finishState { walk' with stack := rest } v data) :=
    (Rounds.head (loadRound_push hstack hv hdata) h.rounds).tail (loadRound_finish h.stack hpushed)
  refine ⟨hrounds, finishState_stack, ⟨?_, ?_, ?_⟩, ?_, ?_, ?_⟩
  · exact Faithful.finish { walk' with stack := rest } h.inv.faithful hs hrecords
  · intro w hw
    rw [finishState_scheduled] at hw
    by_cases heq : w = v
    · exact .inr (hsettled w (.inl heq))
    · rw [finishState_pending, Table.lookup_erase_ne heq]
      exact (h.inv.scheduled w hw).imp_right fun hw => hsettled w (.inr hw)
  · intro w hw
    rw [finishState_scheduled]
    rw [finishState_pending, Table.lookup_erase] at hw
    split at hw
    · cases hw
    · exact h.inv.pending w hw
  · exact fun w hw => hsettled w (.inl (mem_singleton.1 hw))
  · exact fun w hw => hsettled w (.inr (h.keeps w hw))
  · intro w
    rw [finishState_pending]
    by_cases heq : w = v
    · subst heq
      rw [Table.lookup_erase_self]
      cases hnone : walk.pending.lookup w with
      | none => rfl
      | some data' => exact absurd (hinv.pending w (isSome_of_eq_some hnone)) hv
    · rw [Table.lookup_erase_ne heq, h.pending]
      exact Table.lookup_insert_ne heq

end Rounds

/-- The induction is on the history: the parents of a state are loaded before it. -/
theorem loadedFrom_state (hacyclic : source.parentGraph.Acyclic) (v : ι) :
    ∀ (walk : LoadWalk ι H) (rest : List (ι × Bool)), walk.stack = (v, false) :: rest →
      LoadInv source P walk →
      (∀ x, (walk.pending.lookup x).isSome → Relation.TransGen source.parentGraph.Step x v) →
      ∃ walk', LoadedFrom source P walk [v] rest walk' := by
  induction v using (source.wellFounded hacyclic).induction with
  | _ v ih =>
    intro walk rest hstack hinv hpending
    by_cases hscheduled : v ∈ walk.scheduled
    · have hsettled : Settled source.parentGraph walk.nodes.mergeBaseGraph v :=
        (hinv.scheduled v hscheduled).resolve_left fun h => hacyclic v (hpending v h)
      refine ⟨_, .single (loadRound_scheduled hstack hscheduled), rfl,
        ⟨hinv.faithful, hinv.scheduled, hinv.pending⟩, ?_, fun _ h => h, fun _ => rfl⟩
      exact fun w hw => mem_singleton.1 hw ▸ hsettled
    cases hdata : knownData source walk.nodes v with
    | none =>
      have hsettled : Settled source.parentGraph walk.nodes.mergeBaseGraph v :=
        hinv.faithful.unavailable (knownData_none hdata)
      refine ⟨_, .single (loadRound_unavailable hstack hscheduled hdata), rfl,
        ⟨hinv.faithful, ?_, ?_⟩, ?_, fun _ h => h, fun _ => rfl⟩
      · intro w hw
        rcases mem_cons.1 hw with rfl | hw
        · exact .inr hsettled
        · exact hinv.scheduled w hw
      · exact fun w hw => mem_cons_of_mem v (hinv.pending w hw)
      · exact fun w hw => mem_singleton.1 hw ▸ hsettled
    | some data =>
      have hg := (hinv.faithful.knownData_some hdata).2
      have hparents : ∀ p ∈ data.parents, ∀ (walk₁ : LoadWalk ι H) (rest₁ : List (ι × Bool)),
          walk₁.stack = (p, false) :: rest₁ → LoadInv source P walk₁ →
          (∀ x, walk₁.pending.lookup x = (pushParents walk rest v data).pending.lookup x) →
          ∃ walk₂, LoadedFrom source P walk₁ [p] rest₁ walk₂ := by
        intro p hp walk₁ rest₁ hstack₁ hinv₁ hsame
        have hstep : source.parentGraph.Step v p := ⟨_, hg, hp⟩
        refine ih p hstep walk₁ rest₁ hstack₁ hinv₁ fun x hx => ?_
        rw [hsame, pushParents, Table.lookup_insert] at hx
        split at hx
        · rename_i heq
          exact heq ▸ .single hstep
        · exact (hpending x hx).tail hstep
      obtain ⟨walk', h⟩ := LoadedFrom.all hparents rfl (hinv.push rest v data)
      exact ⟨_, h.finish hinv hstack hscheduled hdata⟩

theorem ensureLoadedInMemory_settles (hacyclic : source.parentGraph.Acyclic)
    {index : CommitGraphIndex ι H} (hindex : Faithful source P index.nodes) (v : ι) :
    ∃ index', Returns (fun fuel => index.ensureLoadedInMemory source fuel v) index' ∧
      index'.cache = index.cache ∧ Faithful source P index'.nodes ∧
      Settled source.parentGraph index'.nodes.mergeBaseGraph v ∧
      ∀ w, Settled source.parentGraph index.nodes.mergeBaseGraph w →
        Settled source.parentGraph index'.nodes.mergeBaseGraph w := by
  let walk : LoadWalk ι H := ⟨[(v, false)], [], .empty, index.nodes, index.persistenceDirty⟩
  obtain ⟨walk', h⟩ := loadedFrom_state hacyclic v walk [] rfl
    ⟨hindex, nofun, nofun⟩ nofun
  have hdone : loadRound source walk' = .done (walk'.nodes, walk'.persistenceDirty) := by
    rw [loadRound, h.stack]
  have hreturns := (Rounds.returns h.rounds (returns_done hdone)).map
    fun loaded => { index with nodes := loaded.1, persistenceDirty := loaded.2 }
  exact ⟨_, hreturns, rfl, h.inv.faithful, h.settled v mem_cons_self, h.keeps⟩

omit [LinearOrder ι] [DecidableEq H] in
theorem persistIfDirty_nodes (index : CommitGraphIndex ι H) (written : Bool) :
    (index.persistIfDirty written).nodes = index.nodes := by
  unfold CommitGraphIndex.persistIfDirty
  split
  · split <;> rfl
  · rfl

theorem ensureLoaded_settles (hacyclic : source.parentGraph.Acyclic)
    {index : CommitGraphIndex ι H} (hindex : Faithful source P index.nodes) (written : Bool) (v : ι) :
    ∃ index', Returns (fun fuel => index.ensureLoaded source fuel written v) index' ∧
      Faithful source P index'.nodes ∧
      Settled source.parentGraph index'.nodes.mergeBaseGraph v ∧
      ∀ w, Settled source.parentGraph index.nodes.mergeBaseGraph w →
        Settled source.parentGraph index'.nodes.mergeBaseGraph w := by
  obtain ⟨loaded, hload, _, hfaithful, hsettled, hkeeps⟩ :=
    ensureLoadedInMemory_settles hacyclic hindex v
  rw [← persistIfDirty_nodes loaded written] at hfaithful hsettled hkeeps
  exact ⟨_, hload.map (CommitGraphIndex.persistIfDirty written), hfaithful, hsettled, hkeeps⟩

end Load

end Heddle
