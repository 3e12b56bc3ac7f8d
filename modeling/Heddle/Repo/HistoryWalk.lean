import Heddle.Repo.WarmGraph
import Heddle.Object.LeafDiff

namespace Heddle
open Heddle.Lib List

section Spec
variable [LinearOrder ι] (source : ObjectSource ι H)

inductive FirstParents : Option ι → List (HistoryState ι H) → Prop
  | done : FirstParents none []
  | step : source.getState v = some s → FirstParents s.parents.head? rest →
      FirstParents (some v) (s :: rest)

def CompleteFrom (start : ι) : Prop :=
  ∀ v, source.parentGraph.Reaches start v →
    ∃ s, source.getState v = some s ∧ Present source.getTree s.tree

def parentTarget (s : HistoryState ι H) : Option (TreeEntryTarget H) :=
  (s.parents.head?.bind source.getState).map fun parent => .tree parent.tree

/-- The leaves at a path differ from the first parent's tree. -/
def LeafChanged (s : HistoryState ι H) (names : List String) : Prop :=
  ∃ kind, LeafChange source.getTree (parentTarget source s) (some (.tree s.tree)) names kind

/-- Some path above is a leaf in one of the two trees and a directory in the other. -/
def UnderKindChange (s : HistoryState ι H) (names : List String) : Prop :=
  ∃ above below, names = above ++ below ∧ below ≠ [] ∧
    KindChange source.getTree (parentTarget source s) (some (.tree s.tree)) above

/-- A leaf at or beneath a filter's path changed. -/
def PathsChanged (filters : ChangedPathFilters) (s : HistoryState ι H) : Prop :=
  filters = [] ∨ ∃ names, LeafChanged source s names ∧ filters.isMatch (pathText "" names)

/-- Such a leaf changed that is not beneath a path that changes its kind. -/
def PathsShown (filters : ChangedPathFilters) (s : HistoryState ι H) : Prop :=
  filters = [] ∨ ∃ names, LeafChanged source s names ∧ filters.isMatch (pathText "" names) ∧
    ¬ UnderKindChange source s names

open Classical in
/-- The first states along the chain that are to be kept, before the bound. -/
noncomputable def HistoryQuery.select (query : HistoryQuery ι) (keep : HistoryState ι H → Prop)
    (chain : List (HistoryState ι H)) : List (HistoryState ι H) :=
  ((chain.takeWhile fun s => query.stopAt ≠ some s.stateId).filter fun s => keep s).take query.limit

def HistoryQuery.Wanted (query : HistoryQuery ι) (s : HistoryState ι H) : Prop :=
  query.agentMatches s.agentModel = true ∧ PathsChanged source query.changedPaths s

end Spec

section Select
variable [LinearOrder ι] {query : HistoryQuery ι} {keep keep' : HistoryState ι H → Prop}
  {chain : List (HistoryState ι H)}

/-- A walk that keeps less returns the same when it keeps all that is returned. -/
theorem HistoryQuery.select_eq_iff (hsub : ∀ s, keep' s → keep s) :
    query.select keep' chain = query.select keep chain ↔ ∀ s ∈ query.select keep chain, keep' s := by
  classical
  unfold select
  generalize hcut : chain.takeWhile (fun s => query.stopAt ≠ some s.stateId) = states
  clear hcut
  have htwice : ∀ states : List (HistoryState ι H),
      (states.filter fun s => keep s).filter (fun s => keep' s) = states.filter fun s => keep' s := by
    intro states
    rw [filter_filter]
    congr 1
    funext s
    by_cases hs : keep' s
    · simp [hs, hsub s hs]
    · simp [hs]
  rw [← htwice]
  generalize states.filter (fun s => keep s) = kept
  constructor
  · intro heq s hs
    rw [← heq] at hs
    exact of_decide_eq_true (mem_filter.1 (mem_of_mem_take hs)).2
  · intro hall
    have hsplit := take_append_drop query.limit kept
    have hhead : (kept.take query.limit).filter (fun s => keep' s) = kept.take query.limit :=
      filter_eq_self.2 fun s hs => decide_eq_true (hall s hs)
    conv_lhs => rw [← hsplit]
    rw [filter_append, hhead]
    by_cases hlength : kept.length ≤ query.limit
    · rw [take_of_length_le hlength, drop_of_length_le hlength, filter_nil,
        append_nil, take_of_length_le hlength]
    · rw [take_append_of_le_length (by rw [length_take]; omega), take_take,
        Nat.min_self]

open Classical in
/-- The walk along a chain: the states that are kept follow the candidates. -/
noncomputable def HistoryQuery.walked (query : HistoryQuery ι) (keep : HistoryState ι H → Prop) :
    List ι → List (HistoryState ι H) → List ι
  | candidates, [] => candidates
  | candidates, s :: rest =>
    if query.limit ≤ candidates.length ∨ query.stopAt = some s.stateId then candidates
    else query.walked keep (if keep s then candidates ++ [s.stateId] else candidates) rest

open Classical in
theorem HistoryQuery.walked_eq (candidates : List ι) :
    query.walked keep candidates chain = candidates ++
      (((chain.takeWhile fun s => query.stopAt ≠ some s.stateId).filter fun s => keep s).take
        (query.limit - candidates.length)).map HistoryState.stateId := by
  induction chain generalizing candidates with
  | nil => rw [walked, takeWhile_nil, filter_nil, take_nil, map_nil, append_nil]
  | cons s rest ih =>
    rw [walked]
    by_cases hlimit : query.limit ≤ candidates.length
    · rw [if_pos (.inl hlimit), Nat.sub_eq_zero_of_le hlimit, take_zero, map_nil,
        append_nil]
    by_cases hstop : query.stopAt = some s.stateId
    · rw [if_pos (.inr hstop), takeWhile_cons_of_neg (by simpa using hstop), filter_nil,
        take_nil, map_nil, append_nil]
    rw [if_neg (not_or.2 ⟨hlimit, hstop⟩), ih, takeWhile_cons_of_pos (by simpa using hstop)]
    by_cases hkeep : keep s
    · have hleft : query.limit - candidates.length =
          (query.limit - (candidates.length + 1)) + 1 := by omega
      rw [if_pos hkeep, filter_cons_of_pos (by simpa using hkeep), length_append,
        length_singleton, hleft, take_succ_cons, map_cons, append_assoc]
      rfl
    · rw [if_neg hkeep, filter_cons_of_neg (by simpa using hkeep)]

theorem HistoryQuery.walked_nil :
    query.walked keep [] chain = (query.select keep chain).map HistoryState.stateId :=
  query.walked_eq []

end Select

section Chain
variable [LinearOrder ι] {source : ObjectSource ι H}

theorem ObjectSource.getState_stateId (hs : source.getState v = some s) : s.stateId = v :=
  of_decide_eq_true (find?_some hs :)

theorem FirstParents.getState (h : FirstParents source current chain) :
    ∀ s ∈ chain, source.getState s.stateId = some s := by
  induction h with
  | done => exact nofun
  | step hs _ ih =>
    intro s hmem
    rcases mem_cons.1 hmem with rfl | hmem
    · rw [source.getState_stateId hs, hs]
    · exact ih s hmem

theorem FirstParents.states (h : FirstParents source current chain) (hsub : selected ⊆ chain) :
    (selected.map HistoryState.stateId).filterMap source.getState = selected := by
  induction selected with
  | nil => rfl
  | cons s selected ih =>
    obtain ⟨hs, hsub⟩ := cons_subset.1 hsub
    rw [map_cons, filterMap_cons, h.getState s hs, ih hsub]

theorem step_head (hs : source.getState v = some s) (hp : s.parents.head? = some p) :
    source.parentGraph.Step v p := by
  refine ⟨s.parents, ?_, mem_of_mem_head? hp⟩
  rw [ObjectSource.parentGraph, hs]
  rfl

theorem exists_firstParents (hacyclic : source.parentGraph.Acyclic) (v : ι)
    (hcomplete : CompleteFrom source v) : ∃ chain, FirstParents source (some v) chain := by
  induction v using (source.wellFounded hacyclic).induction with
  | _ v ih =>
    obtain ⟨s, hs, _⟩ := hcomplete v .refl
    cases hp : s.parents.head? with
    | none => exact ⟨[s], .step hs (hp ▸ .done)⟩
    | some p =>
      have hstep := step_head hs hp
      obtain ⟨chain, hchain⟩ := ih p hstep fun w hw => hcomplete w (hw.head hstep)
      exact ⟨s :: chain, .step hs (hp ▸ hchain)⟩

end Chain

section Diff
variable [LinearOrder ι] [DecidableEq H] {keyedHash : Bytes → Bytes → ContentHash}
  {source : ObjectSource ι H} {filters : ChangedPathFilters}

theorem feed_match (filters : ChangedPathFilters) (changes : List FileChange) :
    (feed (matchVisitor filters) () changes).2.isSome ↔ ∃ c ∈ changes, filters.isMatch c.path := by
  induction changes with
  | nil => exact ⟨nofun, fun ⟨_, hc, _⟩ => absurd hc not_mem_nil⟩
  | cons change changes ih =>
    rw [feed, matchVisitor]
    by_cases hmatch : filters.isMatch change.path
    · simp only [if_pos hmatch, Option.isSome_some, true_iff]
      exact ⟨change, mem_cons_self, hmatch⟩
    · simp only [if_neg hmatch, mem_cons, exists_eq_or_imp]
      rw [ih]
      exact (or_iff_right hmatch).symm

theorem feed_bloom (bits : Bloom) (changes : List FileChange) :
    feed (fun bloom change => (bloomInsert keyedHash bloom change.path, (none : Option Unit))) bits
      changes = (changes.foldl (fun bloom change => bloomInsert keyedHash bloom change.path) bits,
        none) := by
  induction changes generalizing bits with
  | nil => rfl
  | cons change changes ih => exact ih _

theorem within_foldl_insert (changes : List FileChange) (bits : Bloom) : bits.Within
    (changes.foldl (fun bloom change => bloomInsert keyedHash bloom change.path) bits) := by
  induction changes generalizing bits with
  | nil => exact .refl bits
  | cons change changes ih => exact (within_bloomInsert keyedHash bits change.path).trans (ih _)

theorem ChangedPathFilter.beneath {filter : ChangedPathFilter} (h : filter.isMatch candidate) :
    candidate = filter.path ∨ ∃ rest, candidate.toList = filter.path.toList ++ '/' :: rest := by
  rw [isMatch, Bool.or_eq_true, decide_eq_true_eq, isPrefixOf_iff_prefix] at h
  refine h.imp_right fun ⟨rest, hrest⟩ => ⟨rest, ?_⟩
  rw [← hrest, append_assoc]
  rfl

/-- A filter's path is found in the filter of a diff that shows a change at or beneath it. -/
theorem bloomMaybeMatches_of_match {changes : List FileChange} (bits : Bloom) (hc : c ∈ changes)
    (hmatch : filters.isMatch c.path) : filters.bloomMaybeMatches keyedHash
      (changes.foldl (fun bloom change => bloomInsert keyedHash bloom change.path) bits) := by
  obtain ⟨filter, hfilter, hpath⟩ := any_eq_true.1 hmatch
  refine any_eq_true.2 ⟨filter, hfilter, ?_⟩
  obtain ⟨before, after, rfl⟩ := append_of_mem hc
  rw [foldl_append, foldl_cons]
  exact bloomMaybeContains_mono keyedHash (within_foldl_insert after _)
    (bloomInsert_contains keyedHash _ (ChangedPathFilter.beneath hpath))

theorem diffTreesVisit_mono {getTree : H → Option (Tree H)}
    (h : diffTreesVisit getTree visitor fuel fromHash toHash start = some result)
    (hle : fuel ≤ fuel') :
    diffTreesVisit getTree visitor fuel' fromHash toHash start = some result := by
  unfold diffTreesVisit at h ⊢
  split
  · rename_i hfrom
    rwa [hfrom] at h
  · rename_i hfrom
    rw [hfrom] at h
    dsimp only at h
    split
    · rename_i hsame
      rwa [if_pos hsame] at h
    · rename_i hdiffer
      rw [if_neg hdiffer] at h
      split
      · rename_i hto
        rwa [hto] at h
      · rename_i hto
        rw [hto] at h
        exact runLoop_mono h hle

/-- The diff of a state against its first parent, both with all their trees. -/
structure StateDiff (source : ObjectSource ι H) (s : HistoryState ι H)
    (paths : List (List String × DiffKind)) where
  base : Option H
  parentTree : parentTreeHash source s = .ok base
  target : base.map TreeEntryTarget.tree = parentTarget source s
  visited : Visited source.getTree base s.tree paths
  presentBase : ∀ hash ∈ base, Present source.getTree hash
  present : Present source.getTree s.tree

theorem exists_stateDiff (hcomplete : CompleteFrom source v) (hs : source.getState v = some s) :
    ∃ paths, Nonempty (StateDiff source s paths) := by
  obtain ⟨s', hs', hpresent⟩ := hcomplete v .refl
  obtain rfl := Option.some.inj (hs'.symm.trans hs)
  have hbase : ∃ base, parentTreeHash source s' = .ok base ∧
      base.map TreeEntryTarget.tree = parentTarget source s' ∧
      ∀ hash ∈ base, Present source.getTree hash := by
    unfold parentTreeHash parentTarget
    cases hp : s'.parents.head? with
    | none => exact ⟨none, rfl, rfl, fun _ h => absurd h (Option.not_mem_none _)⟩
    | some p =>
      obtain ⟨parent, hparent, hpresent'⟩ := hcomplete p (.single (step_head hs hp))
      refine ⟨some parent.tree, ?_, ?_, ?_⟩
      · simp only [hparent]
      · rw [Option.bind_some, hparent]
        rfl
      · intro hash hh
        obtain rfl := Option.mem_some.1 hh
        exact hpresent'
  obtain ⟨base, hparent, htarget, hpresentBase⟩ := hbase
  obtain ⟨paths, hvisited⟩ := diffTreesVisit_visited hpresentBase hpresent
  exact ⟨paths, ⟨base, hparent, htarget, hvisited, hpresentBase, hpresent⟩⟩

namespace StateDiff
variable {s : HistoryState ι H} {paths : List (List String × DiffKind)} (diff : StateDiff source s paths)
include diff

/-- The paths shown are those whose leaves differ, but for what is beneath a change of kind. -/
theorem shown_iff (hfilters : filters ≠ []) : PathsShown source filters s ↔
    ∃ c ∈ paths.map pathChange, filters.isMatch c.path := by
  have hfrom := presentTarget_tree diff.presentBase
  have hto : PresentTarget source.getTree (some (.tree s.tree)) := by
    intro hash hh
    obtain rfl := Option.some.inj hh
    exact diff.present
  have hreported : ∀ names, (∃ kind, (names, kind) ∈ paths) ↔
      LeafChanged source s names ∧ ¬ UnderKindChange source s names := by
    intro names
    simp only [diff.visited.mem]
    rw [exists_entryChange_iff hfrom hto, diff.target]
    refine and_congr_right fun _ => ⟨?_, ?_⟩
    · rintro h ⟨above, below, heq, hne, hkind⟩
      exact h above below heq hne hkind
    · exact fun h above below heq hne hkind => h ⟨above, below, heq, hne, hkind⟩
  constructor
  · rintro (hnil | ⟨names, hleaf, hmatch, hunder⟩)
    · exact absurd hnil hfilters
    · obtain ⟨kind, hmem⟩ := (hreported names).2 ⟨hleaf, hunder⟩
      exact ⟨_, mem_map_of_mem hmem, hmatch⟩
  · rintro ⟨c, hc, hmatch⟩
    obtain ⟨⟨names, kind⟩, hmem, rfl⟩ := mem_map.1 hc
    obtain ⟨hleaf, hunder⟩ := (hreported names).1 ⟨kind, hmem⟩
    exact .inr ⟨names, hleaf, hmatch, hunder⟩

open Classical in
theorem matches_returns (hfilters : filters ≠ []) :
    Returns (fun fuel => stateMatchesChangedPaths source fuel s filters)
      (.ok (decide (PathsShown source filters s))) := by
  have hflow := feed_match filters (paths.map pathChange)
  rw [← diff.shown_iff hfilters] at hflow
  have hreturns := (diff.visited.returns Unit Unit (matchVisitor filters) ()).map
    fun result => (result.mapError (GraphError.source (ι := ι))).map fun flow => flow.2.isSome
  unfold stateMatchesChangedPaths
  simp only [diff.parentTree]
  have hanswer : (feed (matchVisitor filters) () (paths.map pathChange)).2.isSome =
      decide (PathsShown source filters s) := by
    rw [Bool.eq_iff_iff, decide_eq_true_iff]
    exact hflow
  rw [← hanswer]
  exact hreturns

theorem bloom_returns : Returns
    (fun fuel => CommitGraphIndex.diffBloom source keyedHash fuel diff.base s.tree)
    (.ok ((paths.map pathChange).foldl
      (fun bloom change => bloomInsert keyedHash bloom change.path) Bloom.zero)) := by
  have hreturns := (diff.visited.returns Bloom Unit
    (fun bloom change => (bloomInsert keyedHash bloom change.path, (none : Option Unit)))
    Bloom.zero).map fun result => result.map Prod.fst
  rw [feed_bloom] at hreturns
  exact hreturns

theorem maybeMatches (hs : source.getState v = some s) (hbits : BloomOf keyedHash source v bits)
    (hfilters : filters ≠ []) (hshown : PathsShown source filters s) :
    filters.bloomMaybeMatches keyedHash bits := by
  obtain ⟨s', base, fuel, hs', hbase, hdiff⟩ := hbits
  obtain rfl := Option.some.inj (hs'.symm.trans hs)
  obtain rfl := Except.ok.inj (hbase.symm.trans diff.parentTree)
  have hsame : bits = (paths.map pathChange).foldl
      (fun bloom change => bloomInsert keyedHash bloom change.path) Bloom.zero := by
    have hfixed : Returns
        (fun fuel => CommitGraphIndex.diffBloom source keyedHash fuel diff.base s'.tree) (.ok bits) := by
      refine ⟨fuel, fun fuel' hle => ?_⟩
      obtain ⟨result, hresult, hok⟩ := Option.map_eq_some_iff.1 hdiff
      exact Option.map_eq_some_iff.2 ⟨result, diffTreesVisit_mono hresult hle, hok⟩
    exact Except.ok.inj (hfixed.unique diff.bloom_returns)
  obtain ⟨c, hc, hmatch⟩ := (diff.shown_iff hfilters).1 hshown
  rw [hsame]
  exact bloomMaybeMatches_of_match _ hc hmatch

end StateDiff

end Diff

end Heddle
