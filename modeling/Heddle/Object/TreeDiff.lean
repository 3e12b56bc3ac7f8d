import Heddle.Lib.WhileLoop
import Heddle.Object.Tree

namespace Heddle
open Heddle.Lib

inductive DiffKind where
  | added
  | modified
  | deleted
  | unchanged
  deriving DecidableEq

structure FileChange where
  path : String
  kind : DiffKind
  deriving DecidableEq

inductive SourceError (H : Type) where
  | missingObject (objectType : String) (id : H)
  deriving DecidableEq

/-- A directory that is being compared: its entries that are still to come on either side. -/
structure DiffFrame (H : Type) where
  fromRest : List (TreeEntry H)
  toRest : List (TreeEntry H)
  pathPrefix : String
  deriving DecidableEq

inductive DiffStep (H : Type) where
  | emit (change : FileChange)
  | descend (fromHash toHash : Option H) (name : String)
  | done
  deriving DecidableEq

def childPath (pathPrefix name : String) : String :=
  if pathPrefix.isEmpty then name else pathPrefix ++ "/" ++ name

def fromOnlyStep (pathPrefix : String) (entry : TreeEntry H) : DiffStep H :=
  match entry.treeHash with
  | some fromHash => .descend (some fromHash) none entry.name
  | none => .emit ⟨childPath pathPrefix entry.name, .deleted⟩

def toOnlyStep (pathPrefix : String) (entry : TreeEntry H) : DiffStep H :=
  match entry.treeHash with
  | some toHash => .descend none (some toHash) entry.name
  | none => .emit ⟨childPath pathPrefix entry.name, .added⟩

def bothStep (pathPrefix : String) (fromEntry toEntry : TreeEntry H) : DiffStep H :=
  match fromEntry.treeHash, toEntry.treeHash with
  | some fromHash, some toHash => .descend (some fromHash) (some toHash) toEntry.name
  | _, _ => .emit ⟨childPath pathPrefix toEntry.name, .modified⟩

def mergeFrom [DecidableEq H] (pathPrefix : String) :
    List (TreeEntry H) → List (TreeEntry H) →
      DiffStep H × List (TreeEntry H) × List (TreeEntry H)
  | [], [] => (.done, [], [])
  | f :: fs, [] => (fromOnlyStep pathPrefix f, fs, [])
  | [], t :: ts => (toOnlyStep pathPrefix t, [], ts)
  | f :: fs, t :: ts =>
    if f.name < t.name then (fromOnlyStep pathPrefix f, fs, t :: ts)
    else if t.name < f.name then (toOnlyStep pathPrefix t, f :: fs, ts)
    else if f.target = t.target then mergeFrom pathPrefix fs ts
    else (bothStep pathPrefix f t, fs, ts)

def advanceMerge [DecidableEq H] (frame : DiffFrame H) : DiffStep H × DiffFrame H :=
  let (step, fromRest, toRest) := mergeFrom frame.pathPrefix frame.fromRest frame.toRest
  (step, { frame with fromRest := fromRest, toRest := toRest })

section Walk
variable (getTree : H → Option (Tree H))

def requireTree (hash : H) : Except (SourceError H) (Tree H) :=
  match getTree hash with
  | some tree => .ok tree
  | none => .error (.missingObject "tree" hash)

def requireEntries : Option H → Except (SourceError H) (List (TreeEntry H))
  | none => .ok []
  | some hash => (requireTree getTree hash).map Tree.entries

structure DiffWalk (H V : Type) where
  stack : List (DiffFrame H)
  seen : V

variable [DecidableEq H] (visitor : V → FileChange → V × Option B)

/-- One round of the walk. The visitor breaks by returning a value. -/
def diffRound (walk : DiffWalk H V) :
    Round (DiffWalk H V) (Except (SourceError H) (V × Option B)) :=
  match walk.stack with
  | [] => .done (.ok (walk.seen, none))
  | frame :: rest =>
    match advanceMerge frame with
    | (.emit change, frame') =>
      match visitor walk.seen change with
      | (seen, some b) => .done (.ok (seen, some b))
      | (seen, none) => .next ⟨frame' :: rest, seen⟩
    | (.descend fromHash toHash name, frame') =>
      match requireEntries getTree fromHash, requireEntries getTree toHash with
      | .error e, _ => .done (.error e)
      | .ok _, .error e => .done (.error e)
      | .ok fromRest, .ok toRest =>
        .next ⟨⟨fromRest, toRest, childPath frame'.pathPrefix name⟩ :: frame' :: rest, walk.seen⟩
    | (.done, _) => .next ⟨rest, walk.seen⟩

def diffTreesVisit (fuel : Nat) (fromHash : Option H) (toHash : H) (start : V) :
    Option (Except (SourceError H) (V × Option B)) :=
  match requireEntries getTree fromHash with
  | .error e => some (.error e)
  | .ok fromRest =>
    if fromHash = some toHash then some (.ok (start, none))
    else
      match requireEntries getTree (some toHash) with
      | .error e => some (.error e)
      | .ok toRest =>
        runLoop (diffRound getTree visitor) fuel ⟨[⟨fromRest, toRest, ""⟩], start⟩

/-- The walk over an asynchronous source: its reads are awaited one after another. -/
def diffTreesVisitAsync (fuel : Nat) (fromHash : Option H) (toHash : H) (start : V) :
    Option (Except (SourceError H) (V × Option B)) :=
  match requireEntries getTree fromHash with
  | .error e => some (.error e)
  | .ok fromRest =>
    if fromHash = some toHash then some (.ok (start, none))
    else
      match requireEntries getTree (some toHash) with
      | .error e => some (.error e)
      | .ok toRest =>
        runLoop (diffRound getTree visitor) fuel ⟨[⟨fromRest, toRest, ""⟩], start⟩

end Walk

/-- Shows a visitor the changes one after another, until it breaks. -/
def feed (visitor : V → FileChange → V × Option B) : V → List FileChange → V × Option B
  | seen, [] => (seen, none)
  | seen, change :: changes =>
    match visitor seen change with
    | (seen, some b) => (seen, some b)
    | (seen, none) => feed visitor seen changes

section Leaves
variable (getTree : H → Option (Tree H))

inductive Present : H → Prop
  | intro {hash : H} : getTree hash = some tree → tree.validate = .ok () →
      (∀ e ∈ tree.entries, ∀ sub, e.treeHash = some sub → Present sub) → Present hash

def subtreeOf : TreeEntryTarget H → Option H
  | .tree hash => some hash
  | _ => none

def targetOf (entries : List (TreeEntry H)) (name : String) : Option (TreeEntryTarget H) :=
  (entries.find? fun e => e.name = name).map TreeEntry.target

/-- The entries below a target; a leaf has none, and nothing has the empty list. -/
def entriesBelow : Option (TreeEntryTarget H) → Option (List (TreeEntry H))
  | none => some []
  | some (.tree hash) => (getTree hash).map Tree.entries
  | some _ => none

/-- The target that stands at a path, given by its names. -/
def entryAt : Option (TreeEntryTarget H) → List String → Option (TreeEntryTarget H)
  | target, [] => target
  | target, name :: names =>
    (entriesBelow getTree target).bind fun entries => entryAt (targetOf entries name) names

def leafAt (target : Option (TreeEntryTarget H)) (names : List String) :
    Option (TreeEntryTarget H) :=
  (entryAt getTree target names).filter fun t => (subtreeOf t).isNone

/-- How the leaf maps of two targets differ at a path. -/
def LeafChange (fromTarget toTarget : Option (TreeEntryTarget H)) (names : List String) :
    DiffKind → Prop
  | .added => leafAt getTree fromTarget names = none ∧ (leafAt getTree toTarget names).isSome
  | .deleted => (leafAt getTree fromTarget names).isSome ∧ leafAt getTree toTarget names = none
  | .modified => ∃ f t, leafAt getTree fromTarget names = some f ∧
      leafAt getTree toTarget names = some t ∧ f ≠ t
  | .unchanged => False

/-- A path that is a leaf on one side and a directory on the other. -/
def KindChange (fromTarget toTarget : Option (TreeEntryTarget H)) (names : List String) : Prop :=
  ∃ f t, entryAt getTree fromTarget names = some f ∧ entryAt getTree toTarget names = some t ∧
    (subtreeOf f).isSome ≠ (subtreeOf t).isSome

def pathText (pathPrefix : String) (names : List String) : String := names.foldl childPath pathPrefix

def pathChange (change : List String × DiffKind) : FileChange := ⟨pathText "" change.1, change.2⟩

/-- The changes are the differences of the two leaf maps, each once, in depth-first entry order. -/
def IsLeafDiff (fromTarget toTarget : Option (TreeEntryTarget H)) (changes : List FileChange) :
    Prop :=
  ∃ paths : List (List String × DiffKind), changes = paths.map pathChange ∧
    paths.Pairwise (fun a b => a.1 < b.1) ∧
    ∀ names kind, (names, kind) ∈ paths ↔ LeafChange getTree fromTarget toTarget names kind

end Leaves

end Heddle
