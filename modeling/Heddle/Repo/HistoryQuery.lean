import Heddle.Repo.HistoryWalk

namespace Heddle
open Heddle.Lib Option

variable [LinearOrder ι] [DecidableEq H] {keyedHash : Bytes → Bytes → ContentHash}
  {source : ObjectSource ι H} {index : CommitGraphIndex ι H} {query : HistoryQuery ι}

section View

omit [DecidableEq H] in
theorem knownData_insert (nodes : CommitGraphNodes ι H) (v : ι) (node : CommitGraphNode ι H) (w : ι) :
    knownData source (nodes.insert v node) w =
      if w = v then some node.stateData else knownData source nodes w := by
  unfold knownData
  rw [Table.lookup_insert]
  by_cases hw : w = v
  · rw [if_pos hw, if_pos hw]
    rfl
  · rw [if_neg hw, if_neg hw]

theorem loaded_knownData (hload : index.ensureLoadedInMemory source fuel v = some index') (w : ι) :
    knownData source index'.nodes w = knownData source index.nodes w := by
  apply loaded_inv (Q := fun nodes => ∀ w, knownData source nodes w = knownData source index.nodes w)
    (R := fun w data => knownData source index.nodes w = some data) _ _ (fun _ => rfl) hload w
  · exact fun _ w data hnodes hdata => (hnodes w).symm.trans hdata
  · intro walk current data hnodes hdata w
    unfold finishState
    dsimp only
    split
    · exact hnodes w
    · rw [knownData_insert]
      split
      · rename_i heq
        exact heq ▸ hdata.symm
      · exact hnodes w

end View

/-- The graph of a history query: the whole ancestry is loaded, `opened` were its nodes before. -/
structure HistoryInv (keyedHash : Bytes → Bytes → ContentHash) (source : ObjectSource ι H)
    (opened : CommitGraphNodes ι H) (start : ι) (index : CommitGraphIndex ι H) : Prop where
  faithful : FaithfulIndex keyedHash source index
  loaded : ∀ v, source.parentGraph.Reaches start v → ∃ node, index.nodes.lookup v = some node
  view : ∀ v, knownData source index.nodes v = knownData source opened v

def AgentShown (source : ObjectSource ι H) (opened : CommitGraphNodes ι H) (query : HistoryQuery ι)
    (s : HistoryState ι H) : Prop :=
  ∀ data, knownData source opened s.stateId = some data → query.agentMatches data.agentModel = true

def CachedShown (source : ObjectSource ι H) (opened : CommitGraphNodes ι H) (query : HistoryQuery ι)
    (s : HistoryState ι H) : Prop :=
  AgentShown source opened query s ∧ PathsShown source query.changedPaths s

namespace HistoryInv
variable {opened : CommitGraphNodes ι H}

theorem populated (h : HistoryInv keyedHash source opened start index)
    (hcomplete : CompleteFrom source start) (hv : source.parentGraph.Reaches start v) :
    ∃ index' bits, Returns
        (fun fuel => index.ensureBloomPopulatedFromLoaded source keyedHash fuel v) (.ok index') ∧
      HistoryInv keyedHash source opened start index' ∧ index'.nodeBloom v = some bits := by
  unfold CommitGraphIndex.ensureBloomPopulatedFromLoaded
  cases hbloom : index.nodeBloom v with
  | some bits => exact ⟨index, bits, returns_some _, h, hbloom⟩
  | none =>
    obtain ⟨node, hnode⟩ := h.loaded v hv
    obtain ⟨s, hs, hrecords⟩ := h.faithful.nodes.state hnode
    obtain ⟨paths, ⟨diff⟩⟩ :=
      exists_stateDiff (fun w hw => hcomplete w (hv.trans hw)) hs
    have hparents : node.parents = s.parents := hrecords.parents
    have htree : node.treeHash = s.tree := hrecords.treeHash
    have hset : ∀ bits, BloomOf keyedHash source v bits →
        HistoryInv keyedHash source opened start (index.setBloom v node bits) := by
      intro bits hbits
      refine ⟨h.faithful.setBloom hnode hbits, fun w hw => ?_, fun w => ?_⟩
      · by_cases heq : w = v
        · subst heq
          exact ⟨_, Table.lookup_insert_self _ _ _⟩
        · obtain ⟨node', hnode'⟩ := h.loaded w hw
          exact ⟨node', (Table.lookup_insert_ne heq).trans hnode'⟩
      · refine (knownData_insert _ _ _ w).trans ?_
        split
        · rename_i heq
          rw [← h.view, heq, knownData, hnode]
          rfl
        · exact h.view w
    obtain ⟨bits, hreturns⟩ : ∃ bits, Returns
        (fun fuel => CommitGraphIndex.diffBloom source keyedHash fuel diff.base s.tree) (.ok bits) :=
      ⟨_, diff.bloom_returns⟩
    have hdiff := hreturns.map fun result =>
      (result.mapError (GraphError.source (ι := ι))).map (index.setBloom v node)
    obtain ⟨n, hn⟩ := hreturns
    have hbits : BloomOf keyedHash source v bits := ⟨s, _, n, hs, diff.parentTree, hn n le_rfl⟩
    refine ⟨index.setBloom v node bits, bits, ?_, hset bits hbits, ?_⟩
    · simp only [isSome_none, Bool.false_eq_true, if_false, hnode]
      have hbase := diff.parentTree
      unfold parentTreeHash at hbase
      rw [hparents, htree]
      cases hp : s.parents.head? with
      | none =>
        rw [hp] at hbase
        obtain hnone := Except.ok.inj hbase
        rw [← hnone] at hdiff
        exact hdiff
      | some p =>
        obtain ⟨parentNode, hparentNode⟩ := h.loaded p (hv.tail (step_head hs hp))
        obtain ⟨parent, hparent, hparentRecords⟩ := h.faithful.nodes.state hparentNode
        have hparentTree : parentNode.treeHash = parent.tree := hparentRecords.treeHash
        rw [hp] at hbase
        simp only [hparent] at hbase
        simp only [hparentNode, hparentTree]
        rw [← Except.ok.inj hbase] at hdiff
        exact hdiff
    · rw [CommitGraphIndex.nodeBloom, CommitGraphIndex.setBloom, Table.lookup_insert_self]
      rfl

open Classical in
theorem round (h : HistoryInv keyedHash source opened start index)
    (hcomplete : CompleteFrom source start) (hv : source.parentGraph.Reaches start v)
    (hs : source.getState v = some s)
    (hgo : ¬ (query.limit ≤ candidates.length ∨ query.stopAt = some v)) :
    ∃ index', HistoryInv keyedHash source opened start index' ∧ ∃ n, ∀ fuel, n ≤ fuel →
      historyRound source keyedHash fuel query ⟨index, some v, candidates⟩ =
        .next ⟨index', s.parents.head?,
          if CachedShown source opened query s then candidates ++ [s.stateId] else candidates⟩ := by
  obtain ⟨node, hnode⟩ := h.loaded v hv
  obtain ⟨s', hs', hrecords⟩ := h.faithful.nodes.state hnode
  obtain rfl := some.inj (hs'.symm.trans hs)
  have hid := source.getState_stateId hs
  have hparents : node.parents = s'.parents := hrecords.parents
  have hagent : AgentShown source opened query s' ↔ query.agentMatches node.agentModel = true := by
    have hview : knownData source opened s'.stateId = some node.stateData := by
      rw [hid, ← h.view, knownData, hnode]
      rfl
    constructor
    · exact fun hall => hall _ hview
    · intro hmatch data hdata
      obtain rfl := some.inj (hview.symm.trans hdata)
      exact hmatch
  have hround : ∀ fuel, historyRound source keyedHash fuel query ⟨index, some v, candidates⟩ =
      if query.agentMatches node.agentModel then
        filterByPaths source keyedHash fuel query ⟨index, s'.parents.head?, candidates⟩ v
      else .next ⟨index, s'.parents.head?, candidates⟩ := by
    intro fuel
    unfold historyRound
    simp only [if_neg hgo, hnode, hparents]
  simp only [hround]
  unfold CachedShown
  rw [hagent]
  by_cases hmatch : query.agentMatches node.agentModel = true
  · simp only [hmatch, if_true, true_and]
    unfold filterByPaths
    by_cases hpaths : query.changedPaths = []
    · simp only [if_pos hpaths]
      refine ⟨index, h, 0, fun _ _ => ?_⟩
      rw [if_pos (.inl hpaths), hid]
    · simp only [if_neg hpaths]
      have hpaths : query.changedPaths ≠ [] := hpaths
      obtain ⟨index', bits, ⟨n, hn⟩, hinv, hbits⟩ := h.populated hcomplete hv
      obtain ⟨paths, ⟨diff⟩⟩ := exists_stateDiff (fun w hw => hcomplete w (hv.trans hw)) hs
      obtain ⟨m, hm⟩ := diff.matches_returns hpaths
      refine ⟨index', hinv, max m n, fun fuel hfuel => ?_⟩
      have hpopulate : index.ensureBloomPopulatedFromLoaded source keyedHash fuel v =
          some (.ok index') := hn fuel ((Nat.le_max_right m n).trans hfuel)
      have hmatches : stateMatchesChangedPaths source fuel s' query.changedPaths =
          some (.ok (decide (PathsShown source query.changedPaths s'))) :=
        hm fuel ((Nat.le_max_left m n).trans hfuel)
      simp only [hpopulate, hbits, any_some, hs, hmatches]
      by_cases hshown : PathsShown source query.changedPaths s'
      · have hbloom : query.changedPaths.bloomMaybeMatches keyedHash bits = true := by
          obtain ⟨node', hnode', hbloom⟩ := bind_eq_some_iff.1 hbits
          exact diff.maybeMatches hs (hinv.faithful.nodes.bloom hnode' hbloom) hpaths hshown
        simp only [hbloom, hshown, decide_true, Bool.not_true, Bool.false_eq_true, if_false, if_true,
          hid]
      · simp only [hshown, decide_false, if_false]
        split <;> rfl
  · simp only [hmatch, if_false, false_and, Bool.false_eq_true]
    exact ⟨index, h, 0, fun _ _ => rfl⟩

/-- The walk keeps the candidates it has, and of the chain what the graph shows. -/
theorem run (query : HistoryQuery ι) (hcomplete : CompleteFrom source start)
    (hchain : FirstParents source current chain) (index : CommitGraphIndex ι H) (candidates : List ι)
    (hinv : HistoryInv keyedHash source opened start index)
    (hreach : ∀ v ∈ current, source.parentGraph.Reaches start v) :
    ∃ index', ReturnsNested (fun fuel => historyRound source keyedHash fuel query)
      ⟨index, current, candidates⟩
      (some (.ok (query.walked (CachedShown source opened query) candidates chain), index')) := by
  induction hchain generalizing index candidates with
  | done => exact ⟨index, returnsNested_done fun _ => rfl⟩
  | @step v s rest hs _ ih =>
    have hv := hreach v rfl
    have hid := source.getState_stateId hs
    by_cases hgo : query.limit ≤ candidates.length ∨ query.stopAt = some v
    · rw [HistoryQuery.walked, if_pos (hid.symm ▸ hgo)]
      exact ⟨index, returnsNested_done fun _ => if_pos hgo⟩
    · obtain ⟨index₁, hinv₁, hround⟩ := hinv.round hcomplete hv hs hgo
      obtain ⟨index', hrun⟩ := ih index₁ _ hinv₁ fun p hp => hv.tail (step_head hs hp)
      rw [HistoryQuery.walked, if_neg (hid.symm ▸ hgo)]
      exact ⟨index', returnsNested_next hround hrun⟩

end HistoryInv

section Query

omit [DecidableEq H] in
theorem HistoryQuery.select_stopped (hs : s.stateId = v)
    (hstop : query.limit = 0 ∨ query.stopAt = some v) : query.select keep (s :: rest) = [] := by
  unfold select
  rcases hstop with hlimit | hstop
  · rw [hlimit, List.take_zero]
  · rw [List.takeWhile_cons_of_neg (by simpa [hs] using hstop), List.filter_nil, List.take_nil]

omit [DecidableEq H] in
theorem HistoryQuery.select_subset (query : HistoryQuery ι) (keep : HistoryState ι H → Prop) :
    query.select keep chain ⊆ chain := by
  classical
  unfold select
  exact fun s hs => List.takeWhile_subset _ (List.mem_filter.1 (List.mem_of_mem_take hs)).1

omit [DecidableEq H] in
theorem HistoryQuery.select_empty : query.select keep [] = [] := by
  rw [select, List.takeWhile_nil, List.filter_nil, List.take_nil]

theorem queryHistoryWithCache_returns [Zero H] (query : HistoryQuery ι)
    (hacyclic : source.parentGraph.Acyclic)
    (hcache : ∀ nodes, cache.load = some nodes → Faithful source (BloomOf keyedHash source) nodes)
    (hcomplete : ∀ start ∈ query.start, CompleteFrom source start)
    (hchain : FirstParents source query.start chain) (readable written : Bool) :
    ∃ cache', Returns
      (fun fuel => queryHistoryWithCache source keyedHash fuel query readable written cache)
      (.ok (query.select
        (CachedShown source (CommitGraphIndex.withCache cache readable).nodes query) chain), cache') := by
  let opened := CommitGraphIndex.withCache cache readable
  have hopened : FaithfulIndex keyedHash source opened := .withCache hcache readable
  unfold queryHistoryWithCache
  generalize hcurrent : query.start = current at hchain hcomplete
  cases hchain with
  | done =>
    rw [query.select_empty]
    exact ⟨_, returns_some _⟩
  | @step start s rest hs hrest =>
    have hid := source.getState_stateId hs
    have hchain : FirstParents source (some start) (s :: rest) := .step hs hrest
    have hcomplete := hcomplete start rfl
    by_cases hstop : query.limit = 0 ∨ query.stopAt = some start
    · rw [query.select_stopped hid hstop]
      simp only [if_pos hstop]
      exact ⟨_, returns_some _⟩
    · simp only [if_neg hstop]
      obtain ⟨index, ⟨k, hload⟩, hsame, hfaithful, hsettled, _⟩ :=
        ensureLoadedInMemory_settles hacyclic hopened.nodes start
      have hinv : HistoryInv keyedHash source opened.nodes start index := by
        refine ⟨hopened.loadedInMemory (hload k le_rfl), fun v hv => ?_,
          loaded_knownData (hload k le_rfl)⟩
        obtain ⟨t, ht, _⟩ := hcomplete v hv
        have hparents := (hsettled.reaches hv).parents
        rw [ObjectSource.parentGraph, ht] at hparents
        obtain ⟨node, hnode, _⟩ := map_eq_some_iff.1 hparents
        exact ⟨node, hnode⟩
      obtain ⟨index', hrun⟩ := HistoryInv.run query hcomplete hchain index [] hinv
        fun v hv => mem_some.1 hv ▸ .refl
      obtain ⟨n, hrun⟩ := hrun.returns
      refine ⟨(index'.persistIfDirty written).cache, max k n, fun fuel hfuel => ?_⟩
      have hloaded : opened.ensureLoadedInMemory source fuel start = some index :=
        hload fuel ((Nat.le_max_left k n).trans hfuel)
      have hwalked := hrun fuel ((Nat.le_max_right k n).trans hfuel)
      dsimp only at hwalked
      change (opened.ensureLoadedInMemory source fuel start).bind _ = _
      rw [hloaded, bind_some, hwalked, HistoryQuery.walked_nil]
      have hstates := hchain.states (query.select_subset (CachedShown source opened.nodes query))
      simp only [join_some, map_some, Except.map, hstates]
      rfl

def SourceShown (source : ObjectSource ι H) (query : HistoryQuery ι) (s : HistoryState ι H) : Prop :=
  query.agentMatches s.agentModel = true ∧ PathsShown source query.changedPaths s

open Classical in
theorem historyAsyncRound_next (hs : source.getState v = some s) (hcomplete : CompleteFrom source v)
    (hgo : ¬ (query.limit ≤ candidates.length ∨ query.stopAt = some v)) : ∃ n, ∀ fuel, n ≤ fuel →
      historyAsyncRound source fuel query (some v, candidates) = .next (s.parents.head?,
        if SourceShown source query s then candidates ++ [s.stateId] else candidates) := by
  have hid := source.getState_stateId hs
  unfold historyAsyncRound SourceShown
  simp only [if_neg hgo, hs]
  by_cases hmatch : query.agentMatches s.agentModel = true
  · simp only [hmatch, if_true, true_and]
    by_cases hpaths : query.changedPaths = []
    · simp only [if_pos hpaths]
      refine ⟨0, fun _ _ => ?_⟩
      rw [if_pos (.inl hpaths), hid]
    · simp only [if_neg hpaths]
      have hpaths : query.changedPaths ≠ [] := hpaths
      obtain ⟨paths, ⟨diff⟩⟩ := exists_stateDiff hcomplete hs
      obtain ⟨m, hm⟩ := diff.matches_returns hpaths
      refine ⟨m, fun fuel hfuel => ?_⟩
      have hmatches : stateMatchesChangedPathsAsync source fuel s query.changedPaths =
          some (.ok (decide (PathsShown source query.changedPaths s))) := hm fuel hfuel
      simp only [hmatches]
      by_cases hshown : PathsShown source query.changedPaths s
      · simp only [hshown, decide_true, if_true, hid]
      · simp only [hshown, decide_false, if_false]
  · simp only [hmatch, if_false, false_and, Bool.false_eq_true, implies_true]
    exact ⟨0, trivial⟩

theorem historyAsync_run (query : HistoryQuery ι) (hchain : FirstParents source current chain)
    (hcomplete : ∀ v ∈ current, CompleteFrom source v) (candidates : List ι) :
    ReturnsNested (fun fuel => historyAsyncRound source fuel query) (current, candidates)
      (some (.ok (query.walked (SourceShown source query) candidates chain))) := by
  induction hchain generalizing candidates with
  | done => exact returnsNested_done fun _ => rfl
  | @step v s rest hs _ ih =>
    have hid := source.getState_stateId hs
    by_cases hgo : query.limit ≤ candidates.length ∨ query.stopAt = some v
    · rw [HistoryQuery.walked, if_pos (hid.symm ▸ hgo)]
      exact returnsNested_done fun _ => if_pos hgo
    · rw [HistoryQuery.walked, if_neg (hid.symm ▸ hgo)]
      apply returnsNested_next (historyAsyncRound_next hs (hcomplete v rfl) hgo)
      exact ih (fun p hp w hw => hcomplete v rfl w (hw.head (step_head hs hp))) _

theorem queryHistoryAsync_returns (hcomplete : ∀ start ∈ query.start, CompleteFrom source start)
    (hchain : FirstParents source query.start chain) :
    Returns (fun fuel => queryHistoryAsync source fuel query)
      (.ok (query.select (SourceShown source query) chain)) := by
  have hwalk := (historyAsync_run query hchain hcomplete []).returns
  have hstates := hchain.states (query.select_subset (SourceShown source query))
  rw [HistoryQuery.walked_nil] at hwalk
  obtain ⟨n, hwalk⟩ := hwalk
  refine ⟨n, fun fuel hfuel => ?_⟩
  have hrun : runLoop (historyAsyncRound source fuel query) fuel (query.start, []) = _ :=
    hwalk fuel hfuel
  change ((runLoop (historyAsyncRound source fuel query) fuel (query.start, [])).join.map _) = _
  rw [hrun]
  simp only [join_some, map_some, Except.map, hstates]

/-- The model that the opened cache has of a state, if it has the state, matches as well. -/
def ModelKept (index : CommitGraphIndex ι H) (query : HistoryQuery ι) (s : HistoryState ι H) : Prop :=
  ∀ node, index.nodes.lookup s.stateId = some node → query.agentMatches node.agentModel = true

omit [LinearOrder ι] [DecidableEq H] in
theorem agentMatches_of_records (h : Records s data)
    (hmatch : query.agentMatches data.agentModel = true) :
    query.agentMatches s.agentModel = true := by
  rcases h.agentModel with hmodel | hmodel
  · rwa [hmodel] at hmatch
  · rw [hmodel] at hmatch
    unfold HistoryQuery.agentMatches at hmatch ⊢
    rw [all_eq_true] at hmatch ⊢
    intro filter hfilter
    have hany := hmatch filter hfilter
    rw [any_eq_true] at hany ⊢
    obtain ⟨model, hkept, hinfix⟩ := hany
    exact ⟨model, (filter_eq_some_iff.1 hkept).1, hinfix⟩

omit [DecidableEq H] in
theorem cachedShown_iff (hfaithful : Faithful source P nodes)
    (hs : source.getState s.stateId = some s) :
    CachedShown source nodes query s ↔ SourceShown source query s ∧
      ∀ node, nodes.lookup s.stateId = some node → query.agentMatches node.agentModel = true := by
  unfold CachedShown SourceShown AgentShown
  have hsource : knownData source nodes s.stateId = none → False := by
    intro hnone
    have hunavailable := knownData_none hnone
    rw [ObjectSource.parentGraph, hs] at hunavailable
    cases hunavailable
  constructor
  · rintro ⟨hagent, hpaths⟩
    obtain ⟨data, hdata⟩ := ne_none_iff_exists'.1 hsource
    obtain ⟨⟨t, ht, hrecords⟩, _⟩ := hfaithful.knownData_some hdata
    obtain rfl := some.inj (ht.symm.trans hs)
    refine ⟨⟨agentMatches_of_records hrecords (hagent data hdata), hpaths⟩, fun node hnode => ?_⟩
    apply hagent node.stateData
    rw [knownData, hnode]
    rfl
  · rintro ⟨⟨hmatch, hpaths⟩, hkept⟩
    refine ⟨fun data hdata => ?_, hpaths⟩
    unfold knownData at hdata
    split at hdata
    · rename_i node hnode
      exact some.inj hdata ▸ hkept node hnode
    · obtain ⟨t, ht, rfl⟩ := map_eq_some_iff.1 hdata
      obtain rfl := some.inj (ht.symm.trans hs)
      exact hmatch

omit [DecidableEq H] in
theorem PathsShown.changed (h : PathsShown source filters s) : PathsChanged source filters s :=
  h.imp_right fun ⟨names, hleaf, hmatch, _⟩ => ⟨names, hleaf, hmatch⟩

omit [DecidableEq H] in
theorem HistoryQuery.select_congr (h : ∀ s ∈ chain, keep s ↔ keep' s) :
    query.select keep chain = query.select keep' chain := by
  classical
  unfold select
  congr 1
  apply List.filter_congr
  intro s hs
  exact decide_eq_decide.2 (h s (List.takeWhile_subset _ hs))

/-- The walks over a warm graph, over a fresh one and over the source all return the wanted states
exactly when each of these is shown: some leaf of a filter's paths changed that is not beneath a path
that changes its kind, and the cache has kept the state's model. -/
theorem queryHistory_complete_iff [Zero H] (hacyclic : source.parentGraph.Acyclic)
    (hwarm : Warm keyedHash source index)
    (hcomplete : ∀ start ∈ query.start, CompleteFrom source start) (readable written : Bool) :
    ∃ chain cached uncached async cache', FirstParents source query.start chain ∧
      Returns (fun fuel =>
        queryHistoryWithCache source keyedHash fuel query readable written index.cache)
        (.ok cached, cache') ∧
      Returns (fun fuel => queryHistoryFromSource source keyedHash fuel query) (.ok uncached) ∧
      Returns (fun fuel => queryHistoryAsync source fuel query) (.ok async) ∧
      ((cached = query.select (query.Wanted source) chain ∧
          uncached = query.select (query.Wanted source) chain ∧
          async = query.select (query.Wanted source) chain) ↔
        ∀ s ∈ query.select (query.Wanted source) chain,
          PathsShown source query.changedPaths s ∧
          ModelKept (.withCache index.cache readable) query s) := by
  have hcached := hwarm.faithful.cached
  obtain ⟨chain, hchain⟩ : ∃ chain, FirstParents source query.start chain := by
    cases hstart : query.start with
    | none => exact ⟨[], .done⟩
    | some start => exact exists_firstParents hacyclic start (hcomplete start hstart)
  obtain ⟨cache', hwith⟩ := queryHistoryWithCache_returns query hacyclic hcached hcomplete
    hchain readable written
  have hempty : ∀ nodes, (CommitGraphCache.null : CommitGraphCache ι H).load = some nodes →
      Faithful source (BloomOf keyedHash source) nodes :=
    fun nodes h => absurd h (some_ne_none nodes).symm
  obtain ⟨_, hnull⟩ := queryHistoryWithCache_returns query hacyclic hempty hcomplete hchain true true
  have hopened : FaithfulIndex keyedHash source (.withCache index.cache readable) :=
    .withCache hcached readable
  have hkeepCached : ∀ s ∈ chain,
      CachedShown source (CommitGraphIndex.withCache index.cache readable).nodes query s ↔
        SourceShown source query s ∧ ModelKept (.withCache index.cache readable) query s :=
    fun s hs => cachedShown_iff hopened.nodes (hchain.getState s hs)
  have hkeepNull : ∀ s ∈ chain,
      CachedShown source (CommitGraphIndex.withCache .null true).nodes query s ↔
        SourceShown source query s := by
    intro s hs
    have hempty : Faithful source (BloomOf keyedHash source)
        (CommitGraphIndex.withCache (.null : CommitGraphCache ι H) true).nodes := faithful_empty
    rw [cachedShown_iff hempty (hchain.getState s hs)]
    exact and_iff_left fun node hnode => absurd hnode (some_ne_none node).symm
  rw [query.select_congr hkeepCached] at hwith
  rw [query.select_congr hkeepNull] at hnull
  refine ⟨chain, _, _, _, cache', hchain, hwith, hnull.map Prod.fst,
    queryHistoryAsync_returns hcomplete hchain, ?_⟩
  have hwanted : ∀ s, SourceShown source query s → query.Wanted source s :=
    fun s hs => ⟨hs.1, hs.2.changed⟩
  have hshown : ∀ s, SourceShown source query s ∧ ModelKept (.withCache index.cache readable) query s →
      query.Wanted source s := fun s hs => hwanted s hs.1
  rw [query.select_eq_iff hshown, query.select_eq_iff hwanted]
  constructor
  · rintro ⟨hall, _, _⟩ s hs
    exact ⟨(hall s hs).1.2, (hall s hs).2⟩
  · intro hall
    have hsource : ∀ s ∈ query.select (query.Wanted source) chain, SourceShown source query s := by
      intro s hs
      have hkeep : query.Wanted source s := by
        classical
        unfold HistoryQuery.select at hs
        exact of_decide_eq_true (List.mem_filter.1 (List.mem_of_mem_take hs)).2
      exact ⟨hkeep.1, (hall s hs).1⟩
    exact ⟨fun s hs => ⟨hsource s hs, (hall s hs).2⟩, hsource, hsource⟩

section Example

def twoStates (oldTree newTree : Nat) : ObjectSource Nat Nat :=
  ⟨[⟨1, [], oldTree, 0, none⟩, ⟨2, [1], newTree, 0, none⟩], smallTrees⟩

theorem twoStates_getState (h : (twoStates old new).getState v = some s) :
    (v = 1 ∧ s = ⟨1, [], old, 0, none⟩) ∨ (v = 2 ∧ s = ⟨2, [1], new, 0, none⟩) := by
  have hv := (twoStates old new).getState_stateId h
  have hmem := List.mem_of_find?_eq_some h
  rcases List.mem_cons.1 hmem with rfl | hmem
  · exact .inl ⟨hv.symm, rfl⟩
  · obtain rfl := List.mem_singleton.1 hmem
    exact .inr ⟨hv.symm, rfl⟩

theorem twoStates_acyclic : (twoStates old new).parentGraph.Acyclic := by
  apply ParentGraph.acyclic_of_lt
  rintro v p ⟨parents, hparents, hp⟩
  obtain ⟨s, hs, rfl⟩ := map_eq_some_iff.1 hparents
  rcases twoStates_getState hs with ⟨rfl, rfl⟩ | ⟨rfl, rfl⟩
  · cases hp
  · obtain rfl := List.mem_singleton.1 hp
    decide

theorem twoStates_complete (hold : Present smallTrees old) (hnew : Present smallTrees new) :
    CompleteFrom (twoStates old new) 2 := by
  intro v hv
  have hcases : v = 1 ∨ v = 2 := by
    induction hv with
    | refl => exact .inr rfl
    | tail _ hs ih =>
      obtain ⟨parents, hparents, hp⟩ := hs
      obtain ⟨s, hs, rfl⟩ := map_eq_some_iff.1 hparents
      rcases twoStates_getState hs with ⟨rfl, rfl⟩ | ⟨rfl, rfl⟩
      · cases hp
      · exact .inl (List.mem_singleton.1 hp)
  rcases hcases with rfl | rfl
  · exact ⟨⟨1, [], old, 0, none⟩, rfl, hold⟩
  · exact ⟨⟨2, [1], new, 0, none⟩, rfl, hnew⟩

def pathQuery (filter : String) : HistoryQuery Nat where
  start := some 2
  changedPaths := [⟨filter⟩]

def zeroKeyedHash : Bytes → Bytes → ContentHash := fun _ _ => ⟨Vector.replicate 32 0⟩

theorem pathQuery_complete (hold : Present smallTrees old) (hnew : Present smallTrees new) :
    ∀ start ∈ (pathQuery filter).start, CompleteFrom (twoStates old new) start := by
  intro start hstart
  obtain rfl : 2 = start := mem_some.1 hstart
  exact twoStates_complete hold hnew

theorem queryHistory_complete_iff_edit : ∃ chain cached uncached async cache',
    FirstParents (twoStates 1 2) (some 2) chain ∧
    Returns (fun fuel => queryHistoryWithCache (twoStates 1 2) zeroKeyedHash fuel (pathQuery "a")
      true true (.fs none)) (.ok cached, cache') ∧
    Returns (fun fuel => queryHistoryFromSource (twoStates 1 2) zeroKeyedHash fuel (pathQuery "a"))
      (.ok uncached) ∧
    Returns (fun fuel => queryHistoryAsync (twoStates 1 2) fuel (pathQuery "a")) (.ok async) ∧
    ((cached = (pathQuery "a").select ((pathQuery "a").Wanted (twoStates 1 2)) chain ∧
        uncached = (pathQuery "a").select ((pathQuery "a").Wanted (twoStates 1 2)) chain ∧
        async = (pathQuery "a").select ((pathQuery "a").Wanted (twoStates 1 2)) chain) ↔
      ∀ s ∈ (pathQuery "a").select ((pathQuery "a").Wanted (twoStates 1 2)) chain,
        PathsShown (twoStates 1 2) (pathQuery "a").changedPaths s ∧
        ModelKept (.withCache (.fs none) true) (pathQuery "a") s) := by
  have hwarm : Warm zeroKeyedHash (twoStates 1 2) (.withCache (.fs none) true) := .created
  have hcomplete : ∀ start ∈ (pathQuery "a").start, CompleteFrom (twoStates 1 2) start :=
    pathQuery_complete (smallTrees_present (by omega)) (smallTrees_present (by omega))
  exact queryHistory_complete_iff twoStates_acyclic hwarm hcomplete true true

theorem leafAt_oneEntry (root : Nat) (hget : smallTrees root = some (oneEntry name target)) (names : List String) :
    leafAt smallTrees (some (.tree root)) names =
      match names with
      | [] => none
      | head :: rest => if head = name then leafAt smallTrees (some target) rest else none := by
  cases names with
  | nil => rfl
  | cons head rest =>
    have hbelow : entriesBelow smallTrees (some (.tree root)) =
        some [{ name := name, target := target }] := by
      rw [entriesBelow, hget]
      rfl
    rw [leafAt_cons hbelow, targetOf, List.find?_cons]
    by_cases hname : head = name
    · simp [hname]
    · simpa [hname, Ne.symm hname] using leafAt_none rest

/-- Of the leaves that differ between the file `a` and the directory `a` only `a` is shown. -/
theorem not_pathsShown_below : ¬ PathsShown (twoStates 1 3) [⟨"a/x"⟩] ⟨2, [1], 3, 0, none⟩ := by
  rintro (hnil | ⟨names, ⟨kind, hleaf⟩, hmatch, hunder⟩)
  · cases hnil
  have hleaf : (leafAt smallTrees (some (.tree 1)) names).isSome ∨
      (leafAt smallTrees (some (.tree 3)) names).isSome := by
    cases kind with
    | added => exact .inr hleaf.2
    | deleted => exact .inl hleaf.1
    | modified =>
      obtain ⟨f, t, hf, _⟩ := hleaf
      exact .inl (isSome_of_eq_some hf)
    | unchanged => exact hleaf.elim
  have hnames : ∃ rest, names = "a" :: rest := by
    cases names with
    | nil => rcases hleaf with hleaf | hleaf <;> cases hleaf
    | cons head rest =>
      rw [leafAt_oneEntry 1 rfl, leafAt_oneEntry 3 rfl] at hleaf
      refine ⟨rest, congrArg (· :: rest) ?_⟩
      by_contra hne
      rcases hleaf with hleaf | hleaf <;> simp [hne] at hleaf
  obtain ⟨rest, rfl⟩ := hnames
  cases rest with
  | nil => exact absurd hmatch (by decide)
  | cons head rest =>
    exact hunder ⟨["a"], head :: rest, rfl, List.cons_ne_nil _ _,
      .blob 10 false, .tree 4, rfl, rfl, Bool.false_ne_true⟩

theorem wanted_below :
    (pathQuery "a/x").Wanted (twoStates 1 3) ⟨2, [1], 3, 0, none⟩ := by
  refine ⟨rfl, .inr ⟨["a", "x"], ⟨.added, ?_⟩, by decide⟩⟩
  exact ⟨rfl, rfl⟩

/-- A file `a` becomes a directory that holds `x`: history asked about `a/x` leaves the state out. -/
theorem queryHistory_misses : ¬ ∃ chain cached cache',
    FirstParents (twoStates 1 3) (some 2) chain ∧
    Returns (fun fuel => queryHistoryWithCache (twoStates 1 3) zeroKeyedHash fuel (pathQuery "a/x")
      true true (.fs none)) (.ok cached, cache') ∧
    cached = (pathQuery "a/x").select ((pathQuery "a/x").Wanted (twoStates 1 3)) chain := by
  rintro ⟨chain, cached, cache', hchain, hreturns, hall⟩
  have hempty : ∀ nodes, (CommitGraphCache.fs none : CommitGraphCache Nat Nat).load = some nodes →
      Faithful (twoStates 1 3) (BloomOf zeroKeyedHash (twoStates 1 3)) nodes :=
    fun nodes h => absurd h (some_ne_none nodes).symm
  obtain ⟨_, hshown⟩ := queryHistoryWithCache_returns (pathQuery "a/x") twoStates_acyclic hempty
    (pathQuery_complete (smallTrees_present (by omega)) (smallTrees_present (by omega)))
    hchain true true
  obtain ⟨hsame, _⟩ := Prod.mk.inj (hreturns.unique hshown)
  have hsame := (Except.ok.inj hsame).symm.trans hall
  cases hchain with
  | @step _ s rest hs _ =>
    rcases twoStates_getState hs with ⟨hv, _⟩ | ⟨_, rfl⟩
    · cases hv
    · have hmem : (⟨2, [1], 3, 0, none⟩ : HistoryState Nat Nat) ∈
          (pathQuery "a/x").select ((pathQuery "a/x").Wanted (twoStates 1 3))
            (⟨2, [1], 3, 0, none⟩ :: rest) := by
        classical
        unfold HistoryQuery.select
        rw [List.takeWhile_cons_of_pos (by decide), List.filter_cons_of_pos (by simpa using wanted_below)]
        exact List.mem_cons_self
      rw [← hsame] at hmem
      classical
      unfold HistoryQuery.select at hmem
      have hkeep := of_decide_eq_true (List.mem_filter.1 (List.mem_of_mem_take hmem)).2
      exact not_pathsShown_below hkeep.2

end Example

end Query

end Heddle
