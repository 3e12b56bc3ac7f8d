import Heddle.Repo.AsyncLoading
import Heddle.Repo.MergeBaseSearch
import Heddle.Repo.AncestorSearch

namespace Heddle
open Heddle.Lib Option

section Growth
variable {getTree getTree' : H → Option (Tree H)}

theorem requireEntries_grown (hgrown : ∀ hash tree, getTree hash = some tree → getTree' hash = some tree)
    (h : requireEntries getTree root = .ok entries) : requireEntries getTree' root = .ok entries := by
  cases root with
  | none => exact h
  | some hash =>
    change (requireTree getTree hash).map Tree.entries = .ok entries at h
    change (requireTree getTree' hash).map Tree.entries = .ok entries
    unfold requireTree at h ⊢
    cases htree : getTree hash with
    | none =>
      rw [htree] at h
      cases h
    | some tree =>
      rw [htree] at h
      rw [hgrown hash tree htree]
      exact h

variable [DecidableEq H] {visitor : V → FileChange → V × Option B}

theorem diffTreesVisit_grown (hgrown : ∀ hash tree, getTree hash = some tree → getTree' hash = some tree)
    (h : diffTreesVisit getTree visitor fuel fromHash toHash start = some (.ok result)) :
    diffTreesVisit getTree' visitor fuel fromHash toHash start = some (.ok result) := by
  have hloop : ∀ n walk, runLoop (diffRound getTree visitor) n walk = some (.ok result) →
      runLoop (diffRound getTree' visitor) n walk = some (.ok result) := by
    intro n
    induction n with
    | zero => exact fun _ hrun => hrun
    | succ n ih =>
      intro walk hrun
      have hsame : (∃ error, diffRound getTree visitor walk = .done (.error error)) ∨
          diffRound getTree' visitor walk = diffRound getTree visitor walk := by
        unfold diffRound
        split
        · exact .inr rfl
        · split
          · exact .inr rfl
          · rename_i fromRoot toRoot name frame' _
            cases hfrom : requireEntries getTree fromRoot with
            | error error => exact .inl ⟨error, rfl⟩
            | ok fromRest =>
              cases hto : requireEntries getTree toRoot with
              | error error => exact .inl ⟨error, rfl⟩
              | ok toRest =>
                rw [requireEntries_grown hgrown hfrom, requireEntries_grown hgrown hto]
                exact .inr rfl
          · exact .inr rfl
      rcases hsame with ⟨error, herror⟩ | hsame
      · rw [runLoop_done herror] at hrun
        cases hrun
      · cases hround : diffRound getTree visitor walk with
        | next walk' =>
          rw [runLoop_next hround] at hrun
          rw [runLoop_next (hsame.trans hround)]
          exact ih walk' hrun
        | done result' =>
          rw [runLoop_done hround] at hrun
          rw [runLoop_done (hsame.trans hround)]
          exact hrun
  unfold diffTreesVisit at h ⊢
  cases hfrom : requireEntries getTree fromHash with
  | error error =>
    rw [hfrom] at h
    cases h
  | ok fromRest =>
    rw [hfrom] at h
    rw [requireEntries_grown hgrown hfrom]
    dsimp only at h ⊢
    split
    · rename_i hequal
      rwa [if_pos hequal] at h
    · rename_i hdiffer
      rw [if_neg hdiffer] at h
      cases hto : requireEntries getTree (some toHash) with
      | error error =>
        rw [hto] at h
        cases h
      | ok toRest =>
        rw [hto] at h
        rw [requireEntries_grown hgrown hto]
        exact hloop _ _ h

end Growth

section Warm
variable [LinearOrder ι] [DecidableEq H]

structure ObjectSource.Extends (source source' : ObjectSource ι H) : Prop where
  state : source.getState v = some s → source'.getState v = some s
  tree : ∀ hash tree, source.getTree hash = some tree → source'.getTree hash = some tree

/-- The graphs that queries leave behind, in the same process or opened again from the cache; the
source may have grown in the meantime. -/
inductive Warm [Zero H] (keyedHash : Bytes → Bytes → ContentHash) :
    ObjectSource ι H → CommitGraphIndex ι H → Prop
  | created : Warm keyedHash source (.withCache (.fs none) readable)
  | createdNull : Warm keyedHash source (.withCache .null readable)
  | reopened : Warm keyedHash source index → Warm keyedHash source (.withCache index.cache readable)
  | grown : Warm keyedHash source index → source.Extends source' → Warm keyedHash source' index
  | isAncestor : Warm keyedHash source index →
      index.isAncestor source fuel written ancestor descendant = some (found, index') →
      Warm keyedHash source index'
  | findMergeBase : Warm keyedHash source index →
      index.findMergeBase source fuel writtenA writtenB stateA stateB = some (base, index') →
      Warm keyedHash source index'
  | ensureLoaded : Warm keyedHash source index →
      index.ensureLoaded source fuel written v = some index' → Warm keyedHash source index'
  | ensureBloomPopulated : Warm keyedHash source index →
      index.ensureBloomPopulated source keyedHash fuel written v = some (result, index') →
      Warm keyedHash source index'
  | queryHistory : Warm keyedHash source index →
      queryHistoryWithCache source keyedHash fuel query readable written index.cache =
        some (states, cache) →
      Warm keyedHash source (.withCache cache reopened)

variable {keyedHash : Bytes → Bytes → ContentHash} {source source' : ObjectSource ι H}
  {index index' : CommitGraphIndex ι H}

def BloomOf (keyedHash : Bytes → Bytes → ContentHash) (source : ObjectSource ι H) (v : ι)
    (bits : Bloom) : Prop :=
  ∃ s base fuel, source.getState v = some s ∧ parentTreeHash source s = .ok base ∧
    CommitGraphIndex.diffBloom source keyedHash fuel base s.tree = some (.ok bits)

theorem BloomOf.grown (h : BloomOf keyedHash source v bits) (hgrown : source.Extends source') :
    BloomOf keyedHash source' v bits := by
  obtain ⟨s, base, fuel, hs, hbase, hdiff⟩ := h
  refine ⟨s, base, fuel, hgrown.state hs, ?_, ?_⟩
  · unfold parentTreeHash at hbase ⊢
    split
    · rename_i hnone
      rw [hnone] at hbase
      exact hbase
    · rename_i parent hparent
      rw [hparent] at hbase
      cases hstate : source.getState parent with
      | none =>
        simp only [hstate] at hbase
        cases hbase
      | some parentState =>
        simp only [hstate] at hbase
        simp only [hgrown.state hstate]
        exact hbase
  · obtain ⟨result, hresult, hbits⟩ := map_eq_some_iff.1 hdiff
    cases result with
    | error error => cases hbits
    | ok seen =>
      have hgrows := diffTreesVisit_grown hgrown.tree hresult
      exact map_eq_some_iff.2 ⟨_, hgrows, hbits⟩

section Faithful
variable {P P' : ι → Bloom → Prop}

omit [DecidableEq H] in
theorem faithful_empty : Faithful source P .empty :=
  ⟨fun h => absurd h (some_ne_none _).symm, fun h => absurd h (some_ne_none _).symm⟩

omit [DecidableEq H] in
theorem Faithful.grown (h : Faithful source P nodes) (hgrown : source.Extends source')
    (hP : ∀ v bits, P v bits → P' v bits) : Faithful source' P' nodes := by
  constructor
  · intro v node hnode
    obtain ⟨s, hs, hrecords⟩ := h.state hnode
    exact ⟨s, hgrown.state hs, hrecords⟩
  · exact fun hnode hbits => hP _ _ (h.bloom hnode hbits)

omit [DecidableEq H] in
theorem Faithful.retain (h : Faithful source P nodes) (keep : ι → CommitGraphNode ι H → Bool) :
    Faithful source P (nodes.retain keep) := by
  have hkept : ∀ v node, (nodes.retain keep).lookup v = some node → nodes.lookup v = some node := by
    intro v node hnode
    rw [Table.lookup_retain] at hnode
    exact (filter_eq_some_iff.1 hnode).1
  exact ⟨fun hnode => h.state (hkept _ _ hnode), fun hnode => h.bloom (hkept _ _ hnode)⟩

omit [DecidableEq H] in
theorem Faithful.reloaded (h : Faithful source P nodes) :
    Faithful source P (nodes.mapValues CommitGraphNode.reloaded) := by
  constructor
  · intro v node hnode
    rw [Table.lookup_mapValues] at hnode
    obtain ⟨saved, hsaved, rfl⟩ := map_eq_some_iff.1 hnode
    obtain ⟨s, hs, hrecords⟩ := h.state hsaved
    refine ⟨s, hs, hrecords.parents, hrecords.treeHash, hrecords.createdAtSecs, .inr ?_⟩
    change saved.agentModel.filter _ = _
    rcases hrecords.agentModel with hmodel | hmodel
    · exact congrArg (Option.filter _) hmodel
    · have hfilter := congrArg (Option.filter (· ≠ "")) hmodel
      rw [filter_filter] at hfilter
      simp only [Bool.and_self] at hfilter
      exact hfilter
  · intro v node bits hnode hbits
    rw [Table.lookup_mapValues] at hnode
    obtain ⟨saved, hsaved, rfl⟩ := map_eq_some_iff.1 hnode
    exact h.bloom hsaved hbits

/-- What holds of the nodes holds of them when more is loaded: `R` is said of what is pending. -/
theorem loaded_inv {Q : CommitGraphNodes ι H → Prop} {R : ι → CommitGraphStateData ι H → Prop}
    (hread : ∀ nodes w data, Q nodes → knownData source nodes w = some data → R w data)
    (hfinish : ∀ walk w data, Q walk.nodes → R w data → Q (finishState walk w data).nodes)
    (h : Q index.nodes) (hload : index.ensureLoadedInMemory source fuel v = some index') :
    Q index'.nodes := by
  obtain ⟨⟨nodes, dirty⟩, hrun, rfl⟩ := map_eq_some_iff.1 hload
  let I : LoadWalk ι H → Prop := fun walk => Q walk.nodes ∧
    ∀ w data, walk.pending.lookup w = some data → R w data
  have hnext : ∀ walk walk', I walk → loadRound source walk = .next walk' → I walk' := by
    rintro walk walk' ⟨hnodes, hpending⟩ hround
    unfold loadRound at hround
    split at hround
    · cases hround
    · split at hround
      · obtain rfl := (Round.next.inj hround).symm
        exact ⟨hnodes, hpending⟩
      · rename_i current stack _ _ data hdata
        obtain rfl := (Round.next.inj hround).symm
        refine ⟨hfinish { walk with stack := stack } _ _ hnodes (hpending current data hdata), ?_⟩
        intro w data' hw
        rw [finishState_pending, Table.lookup_erase] at hw
        split at hw
        · cases hw
        · exact hpending w data' hw
    · split at hround
      · obtain rfl := (Round.next.inj hround).symm
        exact ⟨hnodes, hpending⟩
      · split at hround
        · obtain rfl := (Round.next.inj hround).symm
          exact ⟨hnodes, hpending⟩
        · rename_i data hdata
          obtain rfl := (Round.next.inj hround).symm
          refine ⟨hnodes, fun w data' hw => ?_⟩
          dsimp only at hw
          rw [Table.lookup_insert] at hw
          split at hw
          · rename_i heq
            obtain rfl := some.inj hw
            exact heq ▸ hread _ _ _ hnodes hdata
          · exact hpending w data' hw
  have hdone : ∀ walk result, I walk → loadRound source walk = .done result → Q result.1 := by
    rintro walk result ⟨hnodes, _⟩ hround
    unfold loadRound at hround
    split at hround
    · exact Round.done.inj hround ▸ hnodes
    · split at hround <;> cases hround
    · split at hround
      · cases hround
      · split at hround <;> cases hround
  have hstart : I ⟨[(v, false)], [], .empty, index.nodes, index.persistenceDirty⟩ :=
    ⟨h, fun _ data hw => absurd hw (some_ne_none data).symm⟩
  exact runLoop_partial (Q := fun result => Q result.1) hnext hdone hstart hrun

theorem Faithful.loaded (h : Faithful source P index.nodes)
    (hload : index.ensureLoadedInMemory source fuel v = some index') :
    Faithful source P index'.nodes ∧ index'.cache = index.cache := by
  constructor
  · apply loaded_inv (R := fun w data => ∃ s, source.getState w = some s ∧ Records s data) _ _ h hload
    · exact fun _ _ _ hnodes hdata => (hnodes.knownData_some hdata).1
    · intro walk w data hnodes ⟨s, hs, hrecords⟩
      exact Faithful.finish walk hnodes hs hrecords
  · obtain ⟨_, _, rfl⟩ := map_eq_some_iff.1 hload
    rfl

end Faithful

/-- The nodes of the graph and of its cache hold what the source holds. -/
structure FaithfulIndex (keyedHash : Bytes → Bytes → ContentHash) (source : ObjectSource ι H)
    (index : CommitGraphIndex ι H) : Prop where
  nodes : Faithful source (BloomOf keyedHash source) index.nodes
  cached : ∀ nodes, index.cache.load = some nodes → Faithful source (BloomOf keyedHash source) nodes

namespace FaithfulIndex

theorem withCache [Zero H]
    (h : ∀ nodes, cache.load = some nodes → Faithful source (BloomOf keyedHash source) nodes)
    (readable : Bool) : FaithfulIndex keyedHash source (.withCache cache readable) := by
  unfold CommitGraphIndex.withCache
  split
  · split
    · rename_i loaded hload
      exact ⟨(h loaded hload).retain fun _ node => !node.isLegacyUnresolvedPlaceholder, h⟩
    · exact ⟨faithful_empty, h⟩
  · exact ⟨faithful_empty, h⟩

section
variable (h : FaithfulIndex keyedHash source index)
include h

theorem persist (written : Bool) :
    FaithfulIndex keyedHash source (index.persistIfDirty written) := by
  unfold CommitGraphIndex.persistIfDirty
  split
  · split
    · rename_i cache hsave
      refine ⟨h.nodes, fun nodes hnodes => ?_⟩
      unfold CommitGraphCache.save at hsave
      split at hsave
      · split at hsave
        · obtain rfl := some.inj hsave
          obtain rfl := some.inj hnodes
          exact h.nodes.reloaded
        · cases hsave
      · obtain rfl := some.inj hsave
        cases hnodes
    · exact h
  · exact h

theorem loadedInMemory (hload : index.ensureLoadedInMemory source fuel v = some index') :
    FaithfulIndex keyedHash source index' := by
  obtain ⟨hnodes, hcache⟩ := h.nodes.loaded hload
  exact ⟨hnodes, hcache ▸ h.cached⟩

theorem loaded (hload : index.ensureLoaded source fuel written v = some index') :
    FaithfulIndex keyedHash source index' := by
  obtain ⟨index₁, hindex₁, rfl⟩ := map_eq_some_iff.1 hload
  exact (h.loadedInMemory hindex₁).persist written

theorem setBloom (hnode : index.nodes.lookup v = some node)
    (hbits : BloomOf keyedHash source v bits) :
    FaithfulIndex keyedHash source (index.setBloom v node bits) := by
  obtain ⟨s, hs, hrecords⟩ := h.nodes.state hnode
  refine ⟨h.nodes.insert hs ⟨hrecords.parents, hrecords.treeHash, hrecords.createdAtSecs,
    hrecords.agentModel⟩ fun bits' hbits' => ?_, h.cached⟩
  exact some.inj hbits' ▸ hbits

theorem bloomPopulated
    (hpopulate : index.ensureBloomPopulatedFromLoaded source keyedHash fuel v = some (.ok index')) :
    FaithfulIndex keyedHash source index' := by
  unfold CommitGraphIndex.ensureBloomPopulatedFromLoaded at hpopulate
  split at hpopulate
  · obtain rfl := Except.ok.inj (some.inj hpopulate)
    exact h
  · split at hpopulate
    · cases some.inj hpopulate
    · rename_i node hnode
      obtain ⟨s, hs, hrecords⟩ := h.nodes.state hnode
      have hparents : node.parents = s.parents := hrecords.parents
      have htree : node.treeHash = s.tree := hrecords.treeHash
      have hset : ∀ base, parentTreeHash source s = .ok base →
          (CommitGraphIndex.diffBloom source keyedHash fuel base node.treeHash).map
            (fun result => (result.mapError (GraphError.source (ι := ι))).map (index.setBloom v node)) =
              some (.ok index') →
          FaithfulIndex keyedHash source index' := by
        intro base hbase hdiff
        obtain ⟨result, hresult, hindex⟩ := map_eq_some_iff.1 hdiff
        cases result with
        | error error => cases hindex
        | ok bits =>
          obtain rfl := Except.ok.inj hindex
          exact h.setBloom hnode ⟨s, base, fuel, hs, hbase, htree ▸ hresult⟩
      split at hpopulate
      · rename_i hroot
        refine hset none ?_ hpopulate
        rw [parentTreeHash, ← hparents, hroot]
      · rename_i parent hparent
        split at hpopulate
        · cases some.inj hpopulate
        · rename_i parentNode hparentNode
          obtain ⟨t, ht, htrecords⟩ := h.nodes.state hparentNode
          refine hset (some parentNode.treeHash) ?_ hpopulate
          have hparentTree : parentNode.treeHash = t.tree := htrecords.treeHash
          rw [parentTreeHash, ← hparents, hparent, hparentTree]
          simp only [ht]

end

theorem filteredByPaths (walk : HistoryWalk ι H)
    (h : FaithfulIndex keyedHash source walk.index) (fuel : Nat) (query : HistoryQuery ι) (v : ι) :
    (∀ walk', filterByPaths source keyedHash fuel query walk v = .next walk' →
      FaithfulIndex keyedHash source walk'.index) ∧
    ∀ result, filterByPaths source keyedHash fuel query walk v = .done (some result) →
      FaithfulIndex keyedHash source result.2 := by
  unfold filterByPaths
  split
  · refine ⟨fun walk' hround => ?_, nofun⟩
    exact Round.next.inj hround ▸ h
  · split
    · exact ⟨nofun, nofun⟩
    · refine ⟨nofun, fun result hround => ?_⟩
      exact some.inj (Round.done.inj hround) ▸ h
    · rename_i index' hindex'
      have h' := h.bloomPopulated hindex'
      split
      · refine ⟨fun walk' hround => ?_, nofun⟩
        exact Round.next.inj hround ▸ h'
      · split
        · refine ⟨nofun, fun result hround => ?_⟩
          exact some.inj (Round.done.inj hround) ▸ h'
        · split
          · exact ⟨nofun, nofun⟩
          · refine ⟨nofun, fun result hround => ?_⟩
            exact some.inj (Round.done.inj hround) ▸ h'
          · refine ⟨fun walk' hround => ?_, nofun⟩
            exact Round.next.inj hround ▸ h'
          · refine ⟨fun walk' hround => ?_, nofun⟩
            exact Round.next.inj hround ▸ h'

theorem historyRun {walk : HistoryWalk ι H} (h : FaithfulIndex keyedHash source walk.index)
    (hrun : runLoop (historyRound source keyedHash fuel query) rounds walk = some (some result)) :
    FaithfulIndex keyedHash source result.2 := by
  let Q : Option (HistoryEnd ι H) → Prop := fun ended =>
    ∀ result, ended = some result → FaithfulIndex keyedHash source result.2
  have hround : ∀ walk : HistoryWalk ι H, FaithfulIndex keyedHash source walk.index →
      (∀ walk', historyRound source keyedHash fuel query walk = .next walk' →
        FaithfulIndex keyedHash source walk'.index) ∧
      ∀ ended, historyRound source keyedHash fuel query walk = .done ended → Q ended := by
    intro walk h
    have hstop : ∀ ended, (Round.done (some (.ok walk.candidates, walk.index)) :
        Round (HistoryWalk ι H) (Option (HistoryEnd ι H))) = .done ended → Q ended := by
      intro ended hround result hresult
      rw [← Round.done.inj hround] at hresult
      exact some.inj hresult ▸ h
    unfold historyRound
    split
    · exact ⟨fun _ hround => (by cases hround), hstop⟩
    · split
      · exact ⟨fun _ hround => (by cases hround), hstop⟩
      · split
        · exact ⟨fun _ hround => (by cases hround), hstop⟩
        · dsimp only
          split
          · rename_i v _ _ _ node _ _
            obtain ⟨hnext, hdone⟩ :=
              filteredByPaths { walk with current := node.parents.head? } h fuel query v
            refine ⟨hnext, fun ended hround result hresult => ?_⟩
            exact hdone result (hresult ▸ hround)
          · refine ⟨fun walk' hround => ?_, fun _ hround => by cases hround⟩
            exact Round.next.inj hround ▸ h
  exact runLoop_partial (Q := Q) (fun walk walk' h => (hround walk h).1 walk')
    (fun walk ended h => (hround walk h).2 ended) h hrun result rfl

theorem queried [Zero H] (h : FaithfulIndex keyedHash source index)
    (hquery : queryHistoryWithCache source keyedHash fuel query readable written index.cache =
      some (states, cache)) :
    ∀ nodes, cache.load = some nodes → Faithful source (BloomOf keyedHash source) nodes := by
  have hopened := withCache h.cached readable
  unfold queryHistoryWithCache at hquery
  dsimp only at hquery
  split at hquery
  · obtain ⟨_, rfl⟩ := Prod.mk.inj (some.inj hquery)
    exact hopened.cached
  · split at hquery
    · obtain ⟨_, rfl⟩ := Prod.mk.inj (some.inj hquery)
      exact hopened.cached
    · obtain ⟨loaded, hload, hwalk⟩ := bind_eq_some_iff.1 hquery
      obtain ⟨⟨candidates, walked⟩, hrun, hresult⟩ := map_eq_some_iff.1 hwalk
      obtain ⟨_, rfl⟩ := Prod.mk.inj hresult
      have hwalked := historyRun (hopened.loadedInMemory hload) (join_eq_some_iff.1 hrun)
      exact (hwalked.persist written).cached

end FaithfulIndex

/-- Whatever was asked before, the graph and its cache hold what the source holds. -/
theorem Warm.faithful [Zero H] (h : Warm keyedHash source index) :
    FaithfulIndex keyedHash source index := by
  induction h with
  | created =>
    apply FaithfulIndex.withCache
    exact fun nodes h => absurd h (some_ne_none nodes).symm
  | createdNull =>
    apply FaithfulIndex.withCache
    exact fun nodes h => absurd h (some_ne_none nodes).symm
  | reopened _ ih => exact .withCache ih.cached _
  | grown _ hgrown ih =>
    have hbloom : ∀ v bits, BloomOf keyedHash _ v bits → BloomOf keyedHash _ v bits :=
      fun v bits hbits => hbits.grown hgrown
    exact ⟨ih.nodes.grown hgrown hbloom, fun nodes hnodes => (ih.cached nodes hnodes).grown hgrown hbloom⟩
  | isAncestor _ hrun ih =>
    unfold CommitGraphIndex.isAncestor at hrun
    split at hrun
    · obtain ⟨_, rfl⟩ := Prod.mk.inj (some.inj hrun)
      exact ih
    · obtain ⟨loaded, hload, hsearch⟩ := bind_eq_some_iff.1 hrun
      have hloaded := ih.loaded hload
      split at hsearch
      · obtain ⟨_, rfl⟩ := Prod.mk.inj (some.inj hsearch)
        exact hloaded
      · obtain ⟨found, _, hresult⟩ := map_eq_some_iff.1 hsearch
        obtain ⟨_, rfl⟩ := Prod.mk.inj hresult
        exact hloaded
  | findMergeBase _ hrun ih =>
    obtain ⟨loadedA, hloadA, hrun⟩ := bind_eq_some_iff.1 hrun
    obtain ⟨loadedB, hloadB, hrun⟩ := bind_eq_some_iff.1 hrun
    obtain ⟨search, _, hresult⟩ := map_eq_some_iff.1 hrun
    obtain ⟨_, rfl⟩ := Prod.mk.inj hresult
    exact (ih.loaded hloadA).loaded hloadB
  | ensureLoaded _ hload ih => exact ih.loaded hload
  | ensureBloomPopulated _ hrun ih =>
    unfold CommitGraphIndex.ensureBloomPopulated at hrun
    split at hrun
    · obtain ⟨_, rfl⟩ := Prod.mk.inj (some.inj hrun)
      exact ih
    · obtain ⟨loaded, hload, hrun⟩ := bind_eq_some_iff.1 hrun
      have hloaded := ih.loadedInMemory hload
      obtain ⟨result, hpopulate, hresult⟩ := map_eq_some_iff.1 hrun
      cases result with
      | ok populated =>
        obtain ⟨_, rfl⟩ := Prod.mk.inj hresult
        exact (hloaded.bloomPopulated hpopulate).persist _
      | error error =>
        obtain ⟨_, rfl⟩ := Prod.mk.inj hresult
        exact hloaded
  | queryHistory _ hrun ih => exact .withCache (ih.queried hrun) _

end Warm

variable [LinearOrder ι] [DecidableEq H] {source : ObjectSource ι H} {P : ι → Bloom → Prop}
  {index index' : CommitGraphIndex ι H}

omit [DecidableEq H] in
theorem ObjectSource.mem_parents (source : ObjectSource ι H) (v p : ι)
    (hs : source.parentGraph.Step v p) : p ∈ source.states.flatMap HistoryState.parents := by
  obtain ⟨parents, hparents, hp⟩ := hs
  obtain ⟨s, hs, rfl⟩ := map_eq_some_iff.1 hparents
  exact List.mem_flatMap.2 ⟨s, List.mem_of_find?_eq_some hs, hp⟩

theorem findMergeBase_returns (hacyclic : source.parentGraph.Acyclic)
    (hindex : Faithful source P index.nodes) (writtenA writtenB : Bool) (stateA stateB : ι) :
    ∃ base index' generation,
      Returns (fun fuel => index.findMergeBase source fuel writtenA writtenB stateA stateB)
        (base, index') ∧
      (∀ v, source.parentGraph.Reaches stateA v ∨ source.parentGraph.Reaches stateB v →
        source.parentGraph.IsGeneration v (generation v)) ∧
      source.parentGraph.IsMergeBase generation stateA stateB base := by
  obtain ⟨indexA, hloadA, hfaithfulA, hsettledA, _⟩ :=
    ensureLoaded_settles hacyclic hindex writtenA stateA
  obtain ⟨indexB, hloadB, _, hsettledB, hkeeps⟩ :=
    ensureLoaded_settles hacyclic hfaithfulA writtenB stateB
  have hsettledA := hkeeps stateA hsettledA
  obtain ⟨search, hsearch, hbase⟩ :=
    findMergeBaseInGraph_returns hsettledA hsettledB source.mem_parents
  refine ⟨search.mergeBase, indexB, indexB.nodes.mergeBaseGraph.rank, ?_, ?_, hbase⟩
  · exact hloadA.bind (hloadB.bind (hsearch.map fun search => (search.mergeBase, indexB)))
  · rintro v (hv | hv)
    · exact (hsettledA.reaches hv).generation
    · exact (hsettledB.reaches hv).generation

omit [DecidableEq H] in
theorem findMergeBaseAsync_returns (hacyclic : source.parentGraph.Acyclic) (stateA stateB : ι) :
    ∃ base generation, Returns (fun fuel => findMergeBaseAsync source fuel stateA stateB) base ∧
      (∀ v, source.parentGraph.Reaches stateA v →
        source.parentGraph.IsGeneration v (generation v)) ∧
      source.parentGraph.IsMergeBase generation stateA stateB base := by
  have hempty : NodesSettled source.parentGraph (.empty : AsyncCommitGraphNodes ι) :=
    fun _ h => absurd h Bool.false_ne_true
  obtain ⟨nodesA, hloadA, hnodesA, hsettledA, _⟩ := ensureLoadedAsync_settles hacyclic hempty stateA
  obtain ⟨nodesB, hloadB, _, hsettledB, hkeeps⟩ := ensureLoadedAsync_settles hacyclic hnodesA stateB
  have hsettledA := hkeeps stateA hsettledA
  obtain ⟨search, hsearch, hbase⟩ :=
    findMergeBaseInGraph_returns hsettledA hsettledB source.mem_parents
  refine ⟨search.mergeBase, (asyncMergeBaseGraph nodesB).rank, ?_, ?_, hbase⟩
  · exact hloadA.bind (hloadB.bind (hsearch.map MergeBaseSearch.mergeBase))
  · exact fun v hv => (hsettledA.reaches hv).generation

/-- On a warm graph the merge base is the greatest common ancestor, and ancestry is what the source
says; the walk without a graph finds the same merge base. -/
theorem mergeBase_ancestry_warm [Zero H] (hacyclic : source.parentGraph.Acyclic)
    (hwarm : Warm keyedHash source index) (stateA stateB : ι) (writtenA writtenB : Bool) :
    (∃ generation base index',
      (∀ v, source.parentGraph.Reaches stateA v ∨ source.parentGraph.Reaches stateB v →
        source.parentGraph.IsGeneration v (generation v)) ∧
      Returns (fun fuel => index.findMergeBase source fuel writtenA writtenB stateA stateB)
        (base, index') ∧
      Returns (fun fuel => findMergeBaseAsync source fuel stateA stateB) base ∧
      source.parentGraph.IsMergeBase generation stateA stateB base ∧
      ∀ c ∈ base, ∀ c', source.parentGraph.CommonAncestor stateA stateB c' →
        source.parentGraph.Reaches c' c → c' = c) ∧
    ∃ found index',
      Returns (fun fuel => index.isAncestor source fuel writtenA stateA stateB) (found, index') ∧
      (found = true ↔ source.parentGraph.IsAncestor stateA stateB) := by
  have hindex := hwarm.faithful.nodes
  obtain ⟨base, index', generation, hreturns, hgeneration, hbase⟩ :=
    findMergeBase_returns hacyclic hindex writtenA writtenB stateA stateB
  obtain ⟨baseAsync, generationAsync, hasync, hgenerationAsync, hbaseAsync⟩ :=
    findMergeBaseAsync_returns hacyclic stateA stateB
  have hsame : baseAsync = base := by
    apply (hbaseAsync.congr fun v hv => ?_).unique hbase
    exact (hgenerationAsync v hv).unique (hgeneration v (.inl hv))
  refine ⟨⟨generation, base, index', hgeneration, hreturns, hsame ▸ hasync, hbase, ?_⟩, ?_⟩
  · rintro c hc c' hc' hreach
    obtain rfl := mem_def.1 hc
    exact hbase.best (fun v hv => hgeneration v (.inl hv)) hc' hreach
  · exact CommitGraphIndex.isAncestor_returns hacyclic hindex writtenA stateA stateB

section Example

def chainState (v : Nat) (parents : List Nat) : HistoryState Nat Nat := ⟨v, parents, 1, 0, none⟩

def shallowChain : ObjectSource Nat Nat :=
  ⟨[chainState 1 [0], chainState 2 [1], chainState 3 [1]], fun _ => none⟩

def fullChain : ObjectSource Nat Nat :=
  ⟨[chainState 1 [0], chainState 2 [1], chainState 3 [1], chainState 0 []], fun _ => none⟩

def chainNode (parents : List Nat) (generation : Nat) : CommitGraphNode Nat Nat :=
  ⟨parents, generation, 1, 0, none, none⟩

def staleNodes : CommitGraphNodes Nat Nat :=
  ((Table.empty).insert 1 (chainNode [0] 0)).insert 2 (chainNode [1] 1)

def staleIndex : CommitGraphIndex Nat Nat := ⟨staleNodes, .fs (some staleNodes), false⟩

theorem staleIndex_warm (keyedHash : Bytes → Bytes → ContentHash) :
    Warm keyedHash shallowChain staleIndex := by
  have hcreated : Warm keyedHash shallowChain (.withCache (.fs none) true) := .created
  have hloaded : (CommitGraphIndex.withCache (.fs none) true).ensureLoaded shallowChain 20 true 2 =
      some staleIndex := rfl
  exact .ensureLoaded hcreated hloaded

theorem shallowChain_extends : shallowChain.Extends fullChain where
  state := by
    intro v s hs
    change (shallowChain.states ++ [chainState 0 []]).find? _ = some s
    rw [List.find?_append]
    exact or_of_isSome (isSome_of_eq_some hs) ▸ hs
  tree _ _ htree := absurd htree (some_ne_none _).symm

theorem fullChain_acyclic : fullChain.parentGraph.Acyclic := by
  apply ParentGraph.acyclic_of_lt
  rintro v p ⟨parents, hparents, hp⟩
  obtain ⟨s, hs, rfl⟩ := map_eq_some_iff.1 hparents
  have hv : s.stateId = v := of_decide_eq_true (List.find?_some hs :)
  have hmem : s = chainState 1 [0] ∨ s = chainState 2 [1] ∨ s = chainState 3 [1] ∨
      s = chainState 0 [] := by
    have hstates := List.mem_of_find?_eq_some hs
    simpa only [fullChain, List.mem_cons, List.not_mem_nil, or_false] using hstates
  rcases hmem with rfl | rfl | rfl | rfl <;> subst hv <;> simp [chainState] at hp ⊢ <;> omega

theorem mergeBase_ancestry_warm_stale :
    (∃ generation base index',
      Returns (fun fuel => staleIndex.findMergeBase fullChain fuel true true 2 3) (base, index') ∧
      Returns (fun fuel => findMergeBaseAsync fullChain fuel 2 3) base ∧
      fullChain.parentGraph.IsMergeBase generation 2 3 base) ∧
    ∃ found index', Returns (fun fuel => staleIndex.isAncestor fullChain fuel true 2 3)
      (found, index') ∧ (found = true ↔ fullChain.parentGraph.IsAncestor 2 3) := by
  have hwarm := Warm.grown (staleIndex_warm fun _ _ => ⟨Vector.replicate 32 0⟩) shallowChain_extends
  obtain ⟨⟨generation, base, index', _, hsync, hasync, hbase, _⟩, hancestor⟩ :=
    mergeBase_ancestry_warm fullChain_acyclic hwarm 2 3 true true
  exact ⟨⟨generation, base, index', hsync, hasync, hbase⟩, hancestor⟩

end Example

end Heddle
