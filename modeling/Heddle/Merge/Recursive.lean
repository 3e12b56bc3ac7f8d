import Heddle.Merge.WithRenames

namespace Heddle.Merge
open Heddle.Lib

section Recursive
variable (env : MergeEnv H)

def requireSubtree (hash : H) (label : String) : Except Failure (Tree H) := do
  match ← env.getTree hash with
  | some tree => return tree
  | none => .error (.repositoryIntegrity {
      error := "merge input subtree " ++ env.hashText hash ++ " for " ++ label ++
        " is missing from the object store; aborting to avoid silently merging against an empty " ++
        "subtree"
      unsafeCondition := "merge input " ++ label ++ " references missing subtree " ++
        env.hashText hash ++ " in the object store"
      wouldChange := "the recursive merge would use an empty subtree and could silently delete " ++
        "every tracked file below that path"
      preserved := "HEAD, refs, and worktree were left unchanged; any merge scratch objects " ++
        "written before this refusal are unreachable until a successful capture" })

def conflictEntryContent (entry : TreeEntry H) : Except Failure Bytes :=
  match entry.target with
  | .tree hash => do
    let tree ← requireSubtree env hash ("conflict-entry subtree " ++ entry.name.quote)
    let names := (tree.entries.map TreeEntry.name).insertionSort (· ≤ ·)
    if names.isEmpty then return utf8 "<empty directory>"
    else return utf8 ("<directory>\n" ++ "\n".intercalate names)
  | .blob hash _ => env.loadBlob hash entry.name
  | .symlink hash => env.loadBlob hash entry.name
  | .gitlink target =>
    return utf8 ("Heddle Gitlink placeholder\nTarget: " ++ env.gitObjectText target ++ "\n")
  | .spoollink _ _ => return []

def generateConflictContent (ourEntry theirEntry : TreeEntry H) : Except Failure Bytes := do
  let ourContent ← conflictEntryContent env ourEntry
  let theirContent ← conflictEntryContent env theirEntry
  return formatConflictContent ourContent theirContent env.labels

abbrev Pushed (H : Type) := List (TreeEntry H) × List String

def conflictEntry (ourEntry theirEntry : TreeEntry H) (conflictPath : String) :
    Except Failure (Pushed H) := do
  let content ← generateConflictContent env ourEntry theirEntry
  let hash ← env.putBlob content
  let entry ← entryOr (TreeEntry.file ourEntry.name hash
    (unionExecutable (ourEntry.isBlob && ourEntry.isExecutable)
      (theirEntry.isBlob && theirEntry.isExecutable)))
  return ([entry], [conflictPath])

def mergeDeleteChangedEntry [DecidableEq H] (baseEntry keptEntry : TreeEntry H)
    (conflictPath : String) : Except Failure (Pushed H) :=
  if keptEntry.sameMeaning baseEntry then .ok ([], [])
  else do
    let keptContent ← conflictEntryContent env keptEntry
    let hash ← env.putBlob (formatConflictContent keptContent [] env.labels)
    let entry ← entryOr (TreeEntry.file keptEntry.name hash
      (keptEntry.isBlob && keptEntry.isExecutable))
    return ([entry], [conflictPath])

abbrev TreeMerge (H : Type) :=
  Tree H → Tree H → Tree H → String → Except Failure (Tree H × List String)

def mergeSubtrees (recurse : TreeMerge H) (baseSubtree : Tree H) (name : String)
    (ourHash theirHash : H) (path : String) : Except Failure (Pushed H) := do
  let ourSubtree ← requireSubtree env ourHash ("our subtree at " ++ path.quote ++ "/" ++ name)
  let theirSubtree ← requireSubtree env theirHash ("their subtree at " ++ path.quote ++ "/" ++ name)
  let (mergedSubtree, conflicts) ← recurse baseSubtree ourSubtree theirSubtree path
  let mergedHash ← env.putTree mergedSubtree
  let entry ← entryOr (TreeEntry.directory name mergedHash)
  return ([entry], conflicts)

def mergeAddedEntries [DecidableEq H] (recurse : TreeMerge H) (ourEntry theirEntry : TreeEntry H)
    (conflictPath : String) : Except Failure (Pushed H) :=
  if ourEntry.sameMeaning theirEntry then .ok ([ourEntry], [])
  else
    match ourEntry.target, theirEntry.target with
    | .tree ourHash, .tree theirHash =>
      mergeSubtrees env recurse Tree.new ourEntry.name ourHash theirHash conflictPath
    | _, _ => conflictEntry env ourEntry theirEntry conflictPath

def mergeModeContentOrthogonalChange [DecidableEq H] (baseEntry ourEntry theirEntry : TreeEntry H) :
    Option (TreeEntry H) :=
  if ¬ baseEntry.isBlob ∨ ¬ ourEntry.isBlob ∨ ¬ theirEntry.isBlob then none
  else if ourEntry.name ≠ theirEntry.name ∨ ourEntry.name ≠ baseEntry.name then none
  else if ourEntry.blobHash = baseEntry.blobHash ∧ theirEntry.mode = baseEntry.mode then
    (theirEntry.withMode ourEntry.mode).toOption
  else if theirEntry.blobHash = baseEntry.blobHash ∧ ourEntry.mode = baseEntry.mode then
    (ourEntry.withMode theirEntry.mode).toOption
  else none

def mergeChangedEntries [DecidableEq H] (recurse : TreeMerge H)
    (baseEntry ourEntry theirEntry : TreeEntry H) (conflictPath : String) :
    Except Failure (Pushed H) :=
  if ourEntry.sameMeaning theirEntry then .ok ([ourEntry], [])
  else if ourEntry.sameMeaning baseEntry then .ok ([theirEntry], [])
  else if theirEntry.sameMeaning baseEntry then .ok ([ourEntry], [])
  else
    match mergeModeContentOrthogonalChange baseEntry ourEntry theirEntry with
    | some entry => .ok ([entry], [])
    | none =>
      match baseEntry.target, ourEntry.target, theirEntry.target with
      | .tree baseHash, .tree ourHash, .tree theirHash => do
        let baseSubtree ← requireSubtree env baseHash ("base subtree at " ++ conflictPath.quote)
        mergeSubtrees env recurse baseSubtree ourEntry.name ourHash theirHash conflictPath
      | _, .tree ourHash, .tree theirHash =>
        mergeSubtrees env recurse Tree.new ourEntry.name ourHash theirHash conflictPath
      | .blob baseHash _, .blob ourHash _, .blob theirHash _ => do
        let (mergedHash, pushed) ← threeWayContentMerge env baseHash ourHash theirHash conflictPath
        let entry ← entryOr (TreeEntry.file ourEntry.name mergedHash
          (unionExecutable ourEntry.isExecutable theirEntry.isExecutable))
        return ([entry], pushed)
      | _, _, _ => conflictEntry env ourEntry theirEntry conflictPath

/-- The entries of a tree by name; a name that occurs twice stands for its last entry. -/
def entryMap (tree : Tree H) : AList (fun _ : String => TreeEntry H) :=
  tree.entries.foldl (fun m entry => m.insert entry.name entry) ∅

theorem entryMap_lookup (h : (tree.entries.map TreeEntry.name).Nodup) :
    (entryMap tree).lookup name = some entry ↔ entry ∈ tree.entries ∧ entry.name = name := by
  have hlookup : (entryMap tree).lookup name =
      lastSome (fun e => if e.name = name then some e else none) tree.entries := by
    refine (lookup_foldl_insert TreeEntry.name (fun e => e) ∅ tree.entries name).trans ?_
    rw [AList.lookup_empty, Option.or_none]
  rw [hlookup]
  constructor
  · intro hlast
    obtain ⟨x, hx, hif⟩ := exists_of_lastSome hlast
    split at hif
    · cases hif
      exact ⟨hx, by assumption⟩
    · cases hif
  · rintro ⟨hmem, rfl⟩
    refine lastSome_eq_some hmem (if_pos rfl) fun other hother e he => ?_
    split at he
    · cases he
      exact List.inj_on_of_nodup_map h hother hmem (by assumption)
    · cases he

def mergeEntry [DecidableEq H] (recurse : TreeMerge H)
    (base our their : Option (TreeEntry H)) (conflictPath : String) : Except Failure (Pushed H) :=
  match base, our, their with
  | none, none, some their => .ok ([their], [])
  | none, some our, none => .ok ([our], [])
  | some base, none, some their => mergeDeleteChangedEntry env base their conflictPath
  | some base, some our, none => mergeDeleteChangedEntry env base our conflictPath
  | none, some our, some their => mergeAddedEntries env recurse our their conflictPath
  | some base, some our, some their => mergeChangedEntries env recurse base our their conflictPath
  | some _, none, none => .ok ([], [])
  | none, none, none => .ok ([], [])

def allNames (baseTree ourTree theirTree : Tree H) : List String :=
  ((entryMap baseTree).keys ++ (entryMap ourTree).keys ++ (entryMap theirTree).keys).dedup

/-- `fuel` bounds the nesting of the stored trees. -/
def threeWayMergeRecursive [DecidableEq H] (order : IterationOrder) : Nat → TreeMerge H
  | 0, _, _, _, _ => .error (.message "tree nesting is deeper than the recursion limit")
  | fuel + 1, baseTree, ourTree, theirTree, parent => do
    let pushed ← (order.visit (allNames baseTree ourTree theirTree)).mapM (fun name =>
      mergeEntry env (threeWayMergeRecursive order fuel) ((entryMap baseTree).lookup name)
        ((entryMap ourTree).lookup name) ((entryMap theirTree).lookup name) (joinPath parent name))
    return (Tree.fromEntries (pushed.flatMap Prod.fst), pushed.flatMap Prod.snd)

def mergeWithoutRenames [DecidableEq H] (fuel : Nat) (order : IterationOrder)
    (baseTree ourTree theirTree : Tree H) : Except Failure (Tree H × List String) :=
  threeWayMergeRecursive env order fuel baseTree ourTree theirTree ""

end Recursive

end Heddle.Merge
