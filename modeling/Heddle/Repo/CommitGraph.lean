import Heddle.Lib.Ancestry
import Heddle.Lib.Table
import Heddle.Object.TreeDiff
import Heddle.Repo.BloomFilter
import Mathlib.Data.Prod.Lex

namespace Heddle
open Heddle.Lib

attribute [local instance] lawfulBEq_of_linearOrder

structure HistoryState (ι H : Type) where
  stateId : ι
  parents : List ι
  tree : H
  createdAtSecs : Int
  agentModel : Option String
  deriving DecidableEq

structure ObjectSource (ι H : Type) where
  states : List (HistoryState ι H)
  getTree : H → Option (Tree H)

namespace ObjectSource
variable [DecidableEq ι]

def getState (source : ObjectSource ι H) (id : ι) : Option (HistoryState ι H) :=
  source.states.find? fun s => s.stateId = id

def parentGraph (source : ObjectSource ι H) : ParentGraph ι :=
  fun id => (source.getState id).map HistoryState.parents

end ObjectSource

inductive GraphError (ι H : Type) where
  | stateNotFound (id : ι)
  | source (error : SourceError H)
  deriving DecidableEq

structure CommitGraphNode (ι H : Type) where
  parents : List ι
  generation : Nat
  treeHash : H
  createdAtSecs : Int
  agentModel : Option String
  bloom : Option Bloom
  deriving DecidableEq

abbrev CommitGraphNodes (ι H : Type) := Table ι (CommitGraphNode ι H)

/-- Older caches held such a node for a parent that could not be read. -/
def CommitGraphNode.isLegacyUnresolvedPlaceholder [DecidableEq H] [Zero H]
    (node : CommitGraphNode ι H) : Bool :=
  node.parents.isEmpty && node.treeHash = 0 && node.createdAtSecs = 0 && node.agentModel.isNone

/-- What is read back of a saved node: the model's length is written first, and a length of zero
reads as no model. -/
def CommitGraphNode.reloaded (node : CommitGraphNode ι H) : CommitGraphNode ι H :=
  { node with agentModel := node.agentModel.filter (· ≠ "") }

def CommitGraphNode.serializable (node : CommitGraphNode ι H) : Bool :=
  node.generation < 2 ^ 64 && node.parents.length < 2 ^ 32 &&
    node.agentModel.all fun model => (utf8 model).length < 2 ^ 16

inductive CommitGraphCache (ι H : Type) where
  | fs (file : Option (CommitGraphNodes ι H))
  | null

namespace CommitGraphCache

def load : CommitGraphCache ι H → Option (CommitGraphNodes ι H)
  | .fs file => file
  | .null => none

/-- The file is replaced whole, or not at all when a node does not fit or it cannot be written. -/
def save (nodes : CommitGraphNodes ι H) (written : Bool) :
    CommitGraphCache ι H → Option (CommitGraphCache ι H)
  | .fs _ =>
    if nodes.entries.all (fun e => e.2.serializable) && written then
      some (.fs (some (nodes.mapValues CommitGraphNode.reloaded)))
    else none
  | .null => some .null

end CommitGraphCache

structure CommitGraphIndex (ι H : Type) where
  nodes : CommitGraphNodes ι H
  cache : CommitGraphCache ι H
  persistenceDirty : Bool

section MergeBase
variable [LinearOrder ι]

structure MergeBaseGraph (ι : Type) where
  generation : ι → Option Nat
  parents : ι → Option (List ι)

structure Paint where
  a : Bool
  b : Bool
  deriving DecidableEq

namespace Paint

def bare : Paint := ⟨false, false⟩

def onlyA : Paint := ⟨true, false⟩

def onlyB : Paint := ⟨false, true⟩

def both : Paint := ⟨true, true⟩

def union (p q : Paint) : Paint := ⟨p.a || q.a, p.b || q.b⟩

def without (p q : Paint) : Paint := ⟨p.a && !q.a, p.b && !q.b⟩

end Paint

/-- `queue` is the heap, greatest first. -/
structure PaintWalk (ι : Type) where
  queue : List (WithBot Nat ×ₗ ι)
  paint : ι → Paint
  propagated : ι → Paint
  best : Option (WithBot Nat × ι)
  ancestorsVisited : Nat

structure MergeBaseSearch (ι : Type) where
  mergeBase : Option ι
  ancestorsVisited : Nat

def MergeBaseGraph.rank (graph : MergeBaseGraph ι) (id : ι) : WithBot Nat :=
  (graph.generation id).elim ⊥ WithBot.some

def paintState (graph : MergeBaseGraph ι) (colors : Paint) (walk : PaintWalk ι) (id : ι) :
    PaintWalk ι :=
  let combined := (walk.paint id).union colors
  if combined = walk.paint id then walk
  else
    { walk with
      paint := Function.update walk.paint id combined
      queue := walk.queue.orderedInsert (· ≥ ·) (toLex (graph.rank id, id)) }

def betterBase (best : Option (WithBot Nat × ι)) (generation : WithBot Nat) (id : ι) :
    WithBot Nat × ι :=
  match best with
  | some (bestGeneration, bestId) =>
    if generation < bestGeneration ∨ (generation = bestGeneration ∧ bestId ≤ id) then
      (bestGeneration, bestId)
    else (generation, id)
  | none => (generation, id)

def PaintWalk.search (walk : PaintWalk ι) : MergeBaseSearch ι :=
  ⟨walk.best.map Prod.snd, walk.ancestorsVisited⟩

/-- A state is popped whose colours have not all been handed on. -/
def spreadPaint (graph : MergeBaseGraph ι) (walk : PaintWalk ι) (generation : WithBot Nat)
    (id : ι) : PaintWalk ι :=
  let colors := walk.paint id
  let walk := { walk with
    propagated := Function.update walk.propagated id colors
    ancestorsVisited := walk.ancestorsVisited + 1 }
  if colors = .both then { walk with best := some (betterBase walk.best generation id) }
  else if walk.best.isSome then walk
  else ((graph.parents id).getD []).foldl (paintState graph colors) walk

def paintRound (graph : MergeBaseGraph ι) (walk : PaintWalk ι) :
    Round (PaintWalk ι) (MergeBaseSearch ι) :=
  match walk.queue with
  | [] => .done walk.search
  | top :: queue =>
    if walk.best.any fun best => (ofLex top).1 < best.1 then .done walk.search
    else if (walk.paint (ofLex top).2).without (walk.propagated (ofLex top).2) = .bare then
      .next { walk with queue := queue }
    else .next (spreadPaint graph { walk with queue := queue } (ofLex top).1 (ofLex top).2)

def findMergeBaseInGraph (fuel : Nat) (graph : MergeBaseGraph ι) (stateA stateB : ι) :
    Option (MergeBaseSearch ι) :=
  let walk : PaintWalk ι := ⟨[], fun _ => .bare, fun _ => .bare, none, 0⟩
  let walk := paintState graph .onlyA walk stateA
  let walk := paintState graph .onlyB walk stateB
  runLoop (paintRound graph) fuel walk

end MergeBase

/-- One more than the greatest generation that is known of a parent. -/
def nextGeneration (generation : ι → Option Nat) (parents : List ι) : Nat :=
  ((parents.filterMap generation).max?).elim 0 (· + 1)

structure CommitGraphStateData (ι H : Type) where
  parents : List ι
  treeHash : H
  createdAtSecs : Int
  agentModel : Option String

def CommitGraphNodes.generation [DecidableEq ι] (nodes : CommitGraphNodes ι H) (id : ι) :
    Option Nat :=
  (nodes.lookup id).map CommitGraphNode.generation

def CommitGraphNodes.mergeBaseGraph [DecidableEq ι] (nodes : CommitGraphNodes ι H) :
    MergeBaseGraph ι where
  generation := nodes.generation
  parents id := (nodes.lookup id).map CommitGraphNode.parents

section Load
variable [LinearOrder ι] [DecidableEq H] (source : ObjectSource ι H)

def loadStateData (id : ι) : Option (CommitGraphStateData ι H) :=
  (source.getState id).map fun s => ⟨s.parents, s.tree, s.createdAtSecs, s.agentModel⟩

/-- The data of a state as the graph has it, else as the source has it. -/
def knownData (nodes : CommitGraphNodes ι H) (id : ι) : Option (CommitGraphStateData ι H) :=
  match nodes.lookup id with
  | some node => some ⟨node.parents, node.treeHash, node.createdAtSecs, node.agentModel⟩
  | none => loadStateData source id

/-- The stack, its top first: a state is `true` when its parents were pushed after it. -/
structure LoadWalk (ι H : Type) where
  stack : List (ι × Bool)
  scheduled : List ι
  pending : Table ι (CommitGraphStateData ι H)
  nodes : CommitGraphNodes ι H
  persistenceDirty : Bool

def refreshedNode (nodes : CommitGraphNodes ι H) (id : ι) (data : CommitGraphStateData ι H) :
    CommitGraphNode ι H where
  parents := data.parents
  generation := nextGeneration nodes.generation data.parents
  treeHash := data.treeHash
  createdAtSecs := data.createdAtSecs
  agentModel := data.agentModel
  bloom := ((nodes.lookup id).filter fun node =>
    node.parents = data.parents && node.treeHash = data.treeHash).bind CommitGraphNode.bloom

def finishState (walk : LoadWalk ι H) (id : ι) (data : CommitGraphStateData ι H) :
    LoadWalk ι H :=
  let node := refreshedNode walk.nodes id data
  let walk := { walk with pending := walk.pending.erase id }
  if walk.nodes.lookup id = some node then walk
  else { walk with nodes := walk.nodes.insert id node, persistenceDirty := true }

def loadRound (walk : LoadWalk ι H) : Round (LoadWalk ι H) (CommitGraphNodes ι H × Bool) :=
  match walk.stack with
  | [] => .done (walk.nodes, walk.persistenceDirty)
  | (current, true) :: stack =>
    match walk.pending.lookup current with
    | none => .next { walk with stack := stack }
    | some data => .next (finishState { walk with stack := stack } current data)
  | (current, false) :: stack =>
    if current ∈ walk.scheduled then .next { walk with stack := stack }
    else
      match knownData source walk.nodes current with
      -- a parent that cannot be read is left out, so that it is looked for again later
      | none => .next { walk with stack := stack, scheduled := current :: walk.scheduled }
      | some data =>
        .next { walk with
          stack := data.parents.map (·, false) ++ (current, true) :: stack
          scheduled := current :: walk.scheduled
          pending := walk.pending.insert current data }

end Load

namespace CommitGraphIndex
variable [LinearOrder ι] [DecidableEq H] (source : ObjectSource ι H)

/-- Opens the graph on what the cache loads; a cache that cannot be read counts as empty. -/
def withCache [Zero H] (cache : CommitGraphCache ι H) (readable : Bool) : CommitGraphIndex ι H :=
  if readable then
    match cache.load with
    | some loaded =>
      let nodes := loaded.retain fun _ node => !node.isLegacyUnresolvedPlaceholder
      ⟨nodes, cache, nodes.entries.length ≠ loaded.entries.length⟩
    | none => ⟨.empty, cache, false⟩
  else ⟨.empty, cache, true⟩

def generation (index : CommitGraphIndex ι H) (id : ι) : Option Nat := index.nodes.generation id

def persistIfDirty (written : Bool) (index : CommitGraphIndex ι H) : CommitGraphIndex ι H :=
  if index.persistenceDirty then
    match index.cache.save index.nodes written with
    | some cache => { index with cache := cache, persistenceDirty := false }
    | none => index
  else index

def ensureLoadedInMemory (fuel : Nat) (index : CommitGraphIndex ι H) (id : ι) :
    Option (CommitGraphIndex ι H) :=
  (runLoop (loadRound source) fuel ⟨[(id, false)], [], .empty, index.nodes, index.persistenceDirty⟩).map
    fun loaded => { index with nodes := loaded.1, persistenceDirty := loaded.2 }

def ensureLoaded (fuel : Nat) (written : Bool) (index : CommitGraphIndex ι H) (id : ι) :
    Option (CommitGraphIndex ι H) :=
  (ensureLoadedInMemory source fuel index id).map (persistIfDirty written)

def ancestorRound (index : CommitGraphIndex ι H) (ancestor : ι) (ancestorGeneration : Nat)
    (walk : List ι × List ι) : Round (List ι × List ι) Bool :=
  match walk.1 with
  | [] => .done false
  | id :: stack =>
    if id ∈ walk.2 then .next (stack, walk.2)
    else if id = ancestor then .done true
    else
      match index.nodes.lookup id with
      | none => .next (stack, id :: walk.2)
      | some node =>
        let reachable := node.parents.filter fun parent =>
          (index.generation parent).any (ancestorGeneration ≤ ·)
        .next (reachable.reverse ++ stack, id :: walk.2)

def isAncestor (fuel : Nat) (written : Bool) (index : CommitGraphIndex ι H)
    (ancestor descendant : ι) : Option (Bool × CommitGraphIndex ι H) :=
  if ancestor = descendant then some (true, index)
  else
    (ensureLoaded source fuel written index descendant).bind fun index =>
      match index.generation ancestor with
      | none => some (false, index)
      | some ancestorGeneration =>
        (runLoop (ancestorRound index ancestor ancestorGeneration) fuel ([descendant], [])).map
          (·, index)

def findMergeBase (fuel : Nat) (writtenA writtenB : Bool) (index : CommitGraphIndex ι H)
    (stateA stateB : ι) : Option (Option ι × CommitGraphIndex ι H) :=
  (ensureLoaded source fuel writtenA index stateA).bind fun index =>
    (ensureLoaded source fuel writtenB index stateB).bind fun index =>
      (findMergeBaseInGraph fuel index.nodes.mergeBaseGraph stateA stateB).map fun search =>
        (search.mergeBase, index)

def nodeBloom (index : CommitGraphIndex ι H) (id : ι) : Option Bloom :=
  (index.nodes.lookup id).bind CommitGraphNode.bloom

def setBloom (index : CommitGraphIndex ι H) (id : ι) (node : CommitGraphNode ι H)
    (bloom : Bloom) : CommitGraphIndex ι H :=
  { index with
    nodes := index.nodes.insert id { node with bloom := some bloom }
    persistenceDirty := true }

variable (keyedHash : Bytes → Bytes → ContentHash)

def diffBloom (fuel : Nat) (parentTree : Option H) (stateTree : H) :
    Option (Except (SourceError H) Bloom) :=
  (diffTreesVisit source.getTree
    (fun bloom change => (bloomInsert keyedHash bloom change.path, (none : Option Unit)))
    fuel parentTree stateTree Bloom.zero).map fun result => result.map Prod.fst

def ensureBloomPopulatedFromLoaded (fuel : Nat) (index : CommitGraphIndex ι H) (id : ι) :
    Option (Except (GraphError ι H) (CommitGraphIndex ι H)) :=
  if (index.nodeBloom id).isSome then some (.ok index)
  else
    match index.nodes.lookup id with
    | none => some (.error (.stateNotFound id))
    | some node =>
      match node.parents.head? with
      | none =>
        (diffBloom source keyedHash fuel none node.treeHash).map fun result =>
          (result.mapError .source).map (index.setBloom id node)
      | some parent =>
        match index.nodes.lookup parent with
        | none => some (.error (.stateNotFound parent))
        | some parentNode =>
          (diffBloom source keyedHash fuel (some parentNode.treeHash) node.treeHash).map
            fun result => (result.mapError .source).map (index.setBloom id node)

/-- On an error the graph keeps what was loaded, and the cache is not written. -/
def ensureBloomPopulated (fuel : Nat) (written : Bool) (index : CommitGraphIndex ι H) (id : ι) :
    Option (Except (GraphError ι H) Unit × CommitGraphIndex ι H) :=
  if (index.nodeBloom id).isSome then some (.ok (), index)
  else
    (ensureLoadedInMemory source fuel index id).bind fun index =>
      (ensureBloomPopulatedFromLoaded source keyedHash fuel index id).map fun
        | .ok index => (.ok (), index.persistIfDirty written)
        | .error error => (.error error, index)

end CommitGraphIndex

section Async
variable [LinearOrder ι] (source : ObjectSource ι H)

structure AsyncCommitGraphNode (ι : Type) where
  parents : List ι
  generation : Nat

abbrev AsyncCommitGraphNodes (ι : Type) := Table ι (AsyncCommitGraphNode ι)

def generationAsync (nodes : AsyncCommitGraphNodes ι) (id : ι) : Option Nat :=
  (nodes.lookup id).map AsyncCommitGraphNode.generation

def asyncMergeBaseGraph (nodes : AsyncCommitGraphNodes ι) : MergeBaseGraph ι where
  generation := generationAsync nodes
  parents id := (nodes.lookup id).map AsyncCommitGraphNode.parents

def loadStateParentsAsync (id : ι) : Option (List ι) :=
  (source.getState id).map HistoryState.parents

structure AsyncLoadWalk (ι : Type) where
  stack : List ι
  expanded : List ι
  nodes : AsyncCommitGraphNodes ι

def loadAsyncRound (walk : AsyncLoadWalk ι) :
    Round (AsyncLoadWalk ι) (AsyncCommitGraphNodes ι) :=
  match walk.stack with
  | [] => .done walk.nodes
  | current :: stack =>
    if (walk.nodes.lookup current).isSome then .next { walk with stack := stack }
    else if current ∉ walk.expanded then
      match loadStateParentsAsync source current with
      | none => .next { walk with expanded := current :: walk.expanded }
      | some parents =>
        .next { walk with
          stack := (parents.filter fun p => (walk.nodes.lookup p).isNone).reverse ++ current :: stack
          expanded := current :: walk.expanded }
    else
      match loadStateParentsAsync source current with
      | none => .next { walk with stack := stack }
      | some parents =>
        .next { walk with
          stack := stack
          nodes := walk.nodes.insert current
            ⟨parents, nextGeneration (generationAsync walk.nodes) parents⟩ }

def ensureLoadedAsync (fuel : Nat) (nodes : AsyncCommitGraphNodes ι) (id : ι) :
    Option (AsyncCommitGraphNodes ι) :=
  runLoop (loadAsyncRound source) fuel ⟨[id], [], nodes⟩

def findMergeBaseAsync (fuel : Nat) (stateA stateB : ι) : Option (Option ι) :=
  (ensureLoadedAsync source fuel .empty stateA).bind fun nodes =>
    (ensureLoadedAsync source fuel nodes stateB).bind fun nodes =>
      (findMergeBaseInGraph fuel (asyncMergeBaseGraph nodes) stateA stateB).map
        MergeBaseSearch.mergeBase

end Async

section Filters

structure ChangedPathFilter where
  path : String
  deriving DecidableEq

def ChangedPathFilter.isMatch (filter : ChangedPathFilter) (candidate : String) : Bool :=
  candidate = filter.path || (filter.path.toList ++ ['/']).isPrefixOf candidate.toList

abbrev ChangedPathFilters := List ChangedPathFilter

def ChangedPathFilters.isMatch (filters : ChangedPathFilters) (candidate : String) : Bool :=
  filters.any fun filter => filter.isMatch candidate

def ChangedPathFilters.bloomMaybeMatches (keyedHash : Bytes → Bytes → ContentHash)
    (filters : ChangedPathFilters) (bloom : Bloom) : Bool :=
  filters.any fun filter => bloomMaybeContains keyedHash bloom filter.path

end Filters

/-- `stopAt` ends the walk before that state. -/
structure HistoryQuery (ι : Type) where
  start : Option ι
  limit : Nat := 20
  agentModelSubstring : Option String := none
  changedPaths : ChangedPathFilters := []
  stopAt : Option ι := none

/-- No model contains a filter that is not set; a state without a model matches none. -/
def HistoryQuery.agentMatches (query : HistoryQuery ι) (agentModel : Option String) : Bool :=
  query.agentModelSubstring.all fun filter =>
    agentModel.any fun model => decide (filter.toList <:+: model.toList)

section Query
variable [LinearOrder ι] [DecidableEq H] (source : ObjectSource ι H)

def parentTreeHash (state : HistoryState ι H) : Except (GraphError ι H) (Option H) :=
  match state.parents.head? with
  | none => .ok none
  | some parent =>
    match source.getState parent with
    | none => .error (.stateNotFound parent)
    | some parentState => .ok (some parentState.tree)

def matchVisitor (filters : ChangedPathFilters) (_ : Unit) (change : FileChange) :
    Unit × Option Unit :=
  ((), if filters.isMatch change.path then some () else none)

def stateMatchesChangedPaths (fuel : Nat) (state : HistoryState ι H) (filters : ChangedPathFilters) :
    Option (Except (GraphError ι H) Bool) :=
  match parentTreeHash source state with
  | .error error => some (.error error)
  | .ok baseTree =>
    (diffTreesVisit source.getTree (matchVisitor filters) fuel baseTree state.tree ()).map
      fun result => (result.mapError .source).map fun flow => flow.2.isSome

def stateMatchesChangedPathsAsync (fuel : Nat) (state : HistoryState ι H)
    (filters : ChangedPathFilters) : Option (Except (GraphError ι H) Bool) :=
  match parentTreeHash source state with
  | .error error => some (.error error)
  | .ok baseTree =>
    (diffTreesVisitAsync source.getTree (matchVisitor filters) fuel baseTree state.tree ()).map
      fun result => (result.mapError .source).map fun flow => flow.2.isSome

structure HistoryWalk (ι H : Type) where
  index : CommitGraphIndex ι H
  current : Option ι
  candidates : List ι

abbrev HistoryEnd (ι H : Type) :=
  Except (GraphError ι H) (List ι) × CommitGraphIndex ι H

variable (keyedHash : Bytes → Bytes → ContentHash) (fuel : Nat) (query : HistoryQuery ι)

/-- What becomes of a state whose agent matches. The result is `none` when a diff did not end. -/
def filterByPaths (walk : HistoryWalk ι H) (id : ι) :
    Round (HistoryWalk ι H) (Option (HistoryEnd ι H)) :=
  if query.changedPaths = [] then .next { walk with candidates := walk.candidates ++ [id] }
  else
    match walk.index.ensureBloomPopulatedFromLoaded source keyedHash fuel id with
    | none => .done none
    | some (.error error) => .done (some (.error error, walk.index))
    | some (.ok index) =>
      if (index.nodeBloom id).any fun bloom => !query.changedPaths.bloomMaybeMatches keyedHash bloom
      then .next { walk with index := index }
      else
        match source.getState id with
        | none => .done (some (.ok walk.candidates, index))
        | some state =>
          match stateMatchesChangedPaths source fuel state query.changedPaths with
          | none => .done none
          | some (.error error) => .done (some (.error error, index))
          | some (.ok false) => .next { walk with index := index }
          | some (.ok true) =>
            .next { walk with index := index, candidates := walk.candidates ++ [id] }

def historyRound (walk : HistoryWalk ι H) :
    Round (HistoryWalk ι H) (Option (HistoryEnd ι H)) :=
  match walk.current with
  | none => .done (some (.ok walk.candidates, walk.index))
  | some id =>
    if query.limit ≤ walk.candidates.length ∨ query.stopAt = some id then
      .done (some (.ok walk.candidates, walk.index))
    else
      match walk.index.nodes.lookup id with
      | none => .done (some (.ok walk.candidates, walk.index))
      | some node =>
        let walk := { walk with current := node.parents.head? }
        if query.agentMatches node.agentModel then
          filterByPaths source keyedHash fuel query walk id
        else .next walk

def queryHistoryWithCache [Zero H] (readable written : Bool) (cache : CommitGraphCache ι H) :
    Option (Except (GraphError ι H) (List (HistoryState ι H)) × CommitGraphCache ι H) :=
  let index := CommitGraphIndex.withCache cache readable
  match query.start with
  | none => some (.ok [], index.cache)
  | some start =>
    if query.limit = 0 ∨ query.stopAt = some start then some (.ok [], index.cache)
    else
      (index.ensureLoadedInMemory source fuel start).bind fun index =>
        (runLoop (historyRound source keyedHash fuel query) fuel ⟨index, some start, []⟩).join.map
          fun (candidates, index) =>
            (candidates.map fun ids => ids.filterMap source.getState,
              (index.persistIfDirty written).cache)

def queryHistoryFromSource [Zero H] :
    Option (Except (GraphError ι H) (List (HistoryState ι H))) :=
  (queryHistoryWithCache source keyedHash fuel query true true .null).map Prod.fst

/-- One round of the walk over an asynchronous source. -/
def historyAsyncRound (walk : Option ι × List ι) :
    Round (Option ι × List ι) (Option (Except (GraphError ι H) (List ι))) :=
  match walk.1 with
  | none => .done (some (.ok walk.2))
  | some id =>
    if query.limit ≤ walk.2.length ∨ query.stopAt = some id then .done (some (.ok walk.2))
    else
      match source.getState id with
      | none => .done (some (.ok walk.2))
      | some state =>
        if query.agentMatches state.agentModel then
          if query.changedPaths = [] then .next (state.parents.head?, walk.2 ++ [id])
          else
            match stateMatchesChangedPathsAsync source fuel state query.changedPaths with
            | none => .done none
            | some (.error error) => .done (some (.error error))
            | some (.ok false) => .next (state.parents.head?, walk.2)
            | some (.ok true) => .next (state.parents.head?, walk.2 ++ [id])
        else .next (state.parents.head?, walk.2)

def queryHistoryAsync : Option (Except (GraphError ι H) (List (HistoryState ι H))) :=
  (runLoop (historyAsyncRound source fuel query) fuel (query.start, [])).join.map
    fun candidates => candidates.map fun ids => ids.filterMap source.getState

end Query

end Heddle
