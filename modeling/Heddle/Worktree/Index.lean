import Heddle.Lib.Replay
import Heddle.Object.Encoding
import Mathlib.Data.String.Basic

namespace Heddle.Worktree
open Heddle.Lib

inductive IndexEntryKind where
  | file
  | symlink
  deriving DecidableEq

namespace IndexEntryKind

def fromU8 (v : UInt8) : IndexEntryKind :=
  match v.toNat with
  | 0 => .file
  | 1 => .symlink
  | _ => .file

def toU8 : IndexEntryKind → UInt8
  | .file => 0
  | .symlink => 1

theorem fromU8_toU8 (kind : IndexEntryKind) : fromU8 kind.toU8 = kind := by
  cases kind with
  | file => rfl
  | symlink => rfl

end IndexEntryKind

structure DirectoryCacheEntry where
  mtimeSec : Int64
  mtimeNsec : UInt32
  childCount : UInt32
  childDigest : ContentHash
  cleanTreeHash : Option ContentHash
  deriving DecidableEq

structure UntrackedDirectoryCacheEntry where
  mtimeSec : Int64
  mtimeNsec : UInt32
  childCount : UInt32
  childDigest : ContentHash
  ignoreFingerprint : ContentHash
  addedPaths : List String
  deriving DecidableEq

structure IndexEntry where
  hash : ContentHash
  size : UInt64
  modifiedSec : Int64
  modifiedNsec : UInt32
  executable : Bool
  kind : IndexEntryKind
  deriving DecidableEq

inductive JournalOp where
  | upsertFile (path : String) (entry : IndexEntry)
  | removeFile (path : String)
  | upsertDirectory (path : String) (entry : DirectoryCacheEntry)
  | removeDirectory (path : String)
  | upsertUntrackedDirectory (path : String) (entry : UntrackedDirectoryCacheEntry)
  | removeUntrackedDirectory (path : String)
  | upsertGitlink (path target : String)
  | removeGitlink (path : String)

@[ext] structure IndexMaps where
  entries : SortedMap String IndexEntry := .empty
  directories : SortedMap String DirectoryCacheEntry := .empty
  untrackedDirectories : SortedMap String UntrackedDirectoryCacheEntry := .empty
  gitlinks : SortedMap String String := .empty

def IndexMaps.applyOp (maps : IndexMaps) : JournalOp → IndexMaps
  | .upsertFile path entry => { maps with entries := maps.entries.put path (some entry) }
  | .removeFile path => { maps with entries := maps.entries.put path none }
  | .upsertDirectory path entry => { maps with directories := maps.directories.put path (some entry) }
  | .removeDirectory path => { maps with directories := maps.directories.put path none }
  | .upsertUntrackedDirectory path entry =>
    { maps with untrackedDirectories := maps.untrackedDirectories.put path (some entry) }
  | .removeUntrackedDirectory path =>
    { maps with untrackedDirectories := maps.untrackedDirectories.put path none }
  | .upsertGitlink path target => { maps with gitlinks := maps.gitlinks.put path (some target) }
  | .removeGitlink path => { maps with gitlinks := maps.gitlinks.put path none }

def IndexMaps.applyOps (maps : IndexMaps) (ops : List JournalOp) : IndexMaps :=
  ops.foldl IndexMaps.applyOp maps

structure WorktreeIndex extends IndexMaps where
  gitlinksTree : Option ContentHash := none
  cleanTrees : SortedMap String (Tree ContentHash) := .empty
  dirty : Bool := false
  pendingOps : List JournalOp := []
  lastJournalReplayMs : Nat := 0
  hotLoaded : Bool := false

def isDescendantPath (candidate path : String) : Bool :=
  (candidate.toList.dropPrefix? path.toList).any fun suffix => suffix.head? = some '/'

def descendantRangeStart (path : String) : String :=
  if path = "" then "" else path ++ "/"

def rangeWhile (m : SortedMap String ν) (start : String) (p : String → Bool) : List String :=
  ((m.entries.map Prod.fst).filter (start ≤ ·)).takeWhile p

def removePrefixedRange (m : SortedMap String ν) (pathPrefix : String) :
    List String × SortedMap String ν :=
  let keys := rangeWhile m pathPrefix fun candidate => pathPrefix.toList.isPrefixOf candidate.toList
  (keys, m.replay (keys.map fun key => (key, none)))

def removeDirectoryRange (m : SortedMap String ν) (path : String) :
    List String × SortedMap String ν :=
  if path = "" then (m.entries.map Prod.fst, .empty)
  else
    let keys := rangeWhile m path fun candidate => candidate = path || isDescendantPath candidate path
    (keys, m.replay (keys.map fun key => (key, none)))

namespace WorktreeIndex

def new : WorktreeIndex := {}

def insert (index : WorktreeIndex) (path : String) (entry : IndexEntry) : WorktreeIndex :=
  if index.entries.get path ≠ some entry then
    { index with
      entries := index.entries.put path (some entry)
      pendingOps := index.pendingOps ++ [.upsertFile path entry]
      dirty := true }
  else index

def insertSeeded (index : WorktreeIndex) (path : String) (entry : IndexEntry) : WorktreeIndex :=
  { index with entries := index.entries.put path (some entry) }

def remove (index : WorktreeIndex) (path : String) : WorktreeIndex :=
  if (index.entries.get path).isSome then
    { index with
      entries := index.entries.put path none
      pendingOps := index.pendingOps ++ [.removeFile path]
      dirty := true }
  else index

def removeMatchingPaths (index : WorktreeIndex) (path : String) (removeFileAtPath : Bool) :
    WorktreeIndex :=
  let fileThere := removeFileAtPath && (index.entries.get path).isSome
  let entries := if fileThere then index.entries.put path none else index.entries
  let fileOps := if fileThere then [.removeFile path] else []
  let (fileKeys, entries) := removePrefixedRange entries (descendantRangeStart path)
  let (directoryKeys, directories) := removeDirectoryRange index.directories path
  let (untrackedKeys, untrackedDirectories) := removeDirectoryRange index.untrackedDirectories path
  let ops := fileOps ++ fileKeys.map .removeFile ++ directoryKeys.map .removeDirectory ++
    untrackedKeys.map .removeUntrackedDirectory
  { index with
    entries
    directories
    untrackedDirectories
    pendingOps := index.pendingOps ++ ops
    dirty := index.dirty || !ops.isEmpty }

def removeDescendants (index : WorktreeIndex) (path : String) : WorktreeIndex :=
  index.removeMatchingPaths path false

def removePathAndDescendants (index : WorktreeIndex) (path : String) : WorktreeIndex :=
  index.removeMatchingPaths path true

def insertDirectory (index : WorktreeIndex) (path : String) (entry : DirectoryCacheEntry) :
    WorktreeIndex :=
  if index.directories.get path ≠ some entry then
    { index with
      directories := index.directories.put path (some entry)
      pendingOps := index.pendingOps ++ [.upsertDirectory path entry]
      dirty := true }
  else index

def insertSeededDirectory (index : WorktreeIndex) (path : String) (entry : DirectoryCacheEntry) :
    WorktreeIndex :=
  { index with directories := index.directories.put path (some entry) }

def removeDirectory (index : WorktreeIndex) (path : String) : WorktreeIndex :=
  if (index.directories.get path).isSome then
    { index with
      directories := index.directories.put path none
      pendingOps := index.pendingOps ++ [.removeDirectory path]
      dirty := true }
  else index

def insertUntrackedDirectory (index : WorktreeIndex) (path : String)
    (entry : UntrackedDirectoryCacheEntry) : WorktreeIndex :=
  if index.untrackedDirectories.get path ≠ some entry then
    { index with
      untrackedDirectories := index.untrackedDirectories.put path (some entry)
      pendingOps := index.pendingOps ++ [.upsertUntrackedDirectory path entry]
      dirty := true }
  else index

def removeUntrackedDirectory (index : WorktreeIndex) (path : String) : WorktreeIndex :=
  if (index.untrackedDirectories.get path).isSome then
    { index with
      untrackedDirectories := index.untrackedDirectories.put path none
      pendingOps := index.pendingOps ++ [.removeUntrackedDirectory path]
      dirty := true }
  else index

def removeUntrackedDirectoryDescendants (index : WorktreeIndex) (path : String) : WorktreeIndex :=
  let (keys, untrackedDirectories) := removeDirectoryRange index.untrackedDirectories path
  { index with
    untrackedDirectories
    pendingOps := index.pendingOps ++ keys.map .removeUntrackedDirectory
    dirty := index.dirty || !keys.isEmpty }

def setGitlinksTree (index : WorktreeIndex) (tree : ContentHash) : WorktreeIndex :=
  { index with gitlinksTree := some tree }

def insertCleanTree (index : WorktreeIndex) (path : String) (tree : Tree ContentHash) :
    WorktreeIndex :=
  { index with cleanTrees := index.cleanTrees.put path (some tree) }

def insertGitlink (index : WorktreeIndex) (path target : String) : WorktreeIndex :=
  if index.gitlinks.get path ≠ some target then
    { index with
      gitlinks := index.gitlinks.put path (some target)
      pendingOps := index.pendingOps ++ [.upsertGitlink path target]
      dirty := true }
  else index

def removeGitlinksAtOrBelow (index : WorktreeIndex) (path : String) : WorktreeIndex :=
  let own := if (index.gitlinks.get path).isSome then [path] else []
  let (below, gitlinks) :=
    removePrefixedRange (index.gitlinks.put path none) (descendantRangeStart path)
  let keys := own ++ below
  { index with
    gitlinks
    pendingOps := index.pendingOps ++ keys.map .removeGitlink
    dirty := index.dirty || !keys.isEmpty }

def clearGitlinks (index : WorktreeIndex) : WorktreeIndex :=
  let keys := index.gitlinks.entries.map Prod.fst
  { index with
    gitlinks := index.gitlinks.replay (keys.map fun key => (key, none))
    pendingOps := index.pendingOps ++ keys.map .removeGitlink
    dirty := index.dirty || !keys.isEmpty }

def markClean (index : WorktreeIndex) : WorktreeIndex :=
  { index with dirty := false, pendingOps := [] }

end WorktreeIndex

inductive Edit where
  | insert (path : String) (entry : IndexEntry)
  | remove (path : String)
  | removeDescendants (path : String)
  | removePathAndDescendants (path : String)
  | insertDirectory (path : String) (entry : DirectoryCacheEntry)
  | removeDirectory (path : String)
  | insertUntrackedDirectory (path : String) (entry : UntrackedDirectoryCacheEntry)
  | removeUntrackedDirectory (path : String)
  | removeUntrackedDirectoryDescendants (path : String)
  | setGitlinksTree (tree : ContentHash)
  | insertCleanTree (path : String) (tree : Tree ContentHash)
  | insertGitlink (path target : String)
  | removeGitlinksAtOrBelow (path : String)
  | clearGitlinks

def WorktreeIndex.edit (index : WorktreeIndex) : Edit → WorktreeIndex
  | .insert path entry => index.insert path entry
  | .remove path => index.remove path
  | .removeDescendants path => index.removeDescendants path
  | .removePathAndDescendants path => index.removePathAndDescendants path
  | .insertDirectory path entry => index.insertDirectory path entry
  | .removeDirectory path => index.removeDirectory path
  | .insertUntrackedDirectory path entry => index.insertUntrackedDirectory path entry
  | .removeUntrackedDirectory path => index.removeUntrackedDirectory path
  | .removeUntrackedDirectoryDescendants path => index.removeUntrackedDirectoryDescendants path
  | .setGitlinksTree tree => index.setGitlinksTree tree
  | .insertCleanTree path tree => index.insertCleanTree path tree
  | .insertGitlink path target => index.insertGitlink path target
  | .removeGitlinksAtOrBelow path => index.removeGitlinksAtOrBelow path
  | .clearGitlinks => index.clearGitlinks

end Heddle.Worktree
