import Heddle.Worktree.Index

namespace Heddle.Worktree
open Heddle.Lib List

section Operations

def JournalOp.fileEdit : JournalOp → Option (String × Option IndexEntry)
  | .upsertFile path entry => some (path, some entry)
  | .removeFile path => some (path, none)
  | _ => none

def JournalOp.directoryEdit : JournalOp → Option (String × Option DirectoryCacheEntry)
  | .upsertDirectory path entry => some (path, some entry)
  | .removeDirectory path => some (path, none)
  | _ => none

def JournalOp.untrackedEdit : JournalOp → Option (String × Option UntrackedDirectoryCacheEntry)
  | .upsertUntrackedDirectory path entry => some (path, some entry)
  | .removeUntrackedDirectory path => some (path, none)
  | _ => none

def JournalOp.gitlinkEdit : JournalOp → Option (String × Option String)
  | .upsertGitlink path target => some (path, some target)
  | .removeGitlink path => some (path, none)
  | _ => none

variable {maps : IndexMaps}

theorem applyOps_eq (maps : IndexMaps) (ops : List JournalOp) : maps.applyOps ops =
    ⟨maps.entries.replay (ops.filterMap JournalOp.fileEdit),
      maps.directories.replay (ops.filterMap JournalOp.directoryEdit),
      maps.untrackedDirectories.replay (ops.filterMap JournalOp.untrackedEdit),
      maps.gitlinks.replay (ops.filterMap JournalOp.gitlinkEdit)⟩ := by
  induction ops generalizing maps with
  | nil => rfl
  | cons op ops ih =>
    change (maps.applyOp op).applyOps ops = _
    rw [ih]
    cases op with
    | upsertFile path entry => rfl
    | removeFile path => rfl
    | upsertDirectory path entry => rfl
    | removeDirectory path => rfl
    | upsertUntrackedDirectory path entry => rfl
    | removeUntrackedDirectory path => rfl
    | upsertGitlink path target => rfl
    | removeGitlink path => rfl

@[simp] theorem applyOps_nil (maps : IndexMaps) : maps.applyOps [] = maps := rfl

theorem applyOps_append (maps : IndexMaps) (first second : List JournalOp) :
    maps.applyOps (first ++ second) = (maps.applyOps first).applyOps second :=
  foldl_append

theorem applyOps_applyOps (maps : IndexMaps) (ops : List JournalOp) :
    (maps.applyOps ops).applyOps ops = maps.applyOps ops := by
  rw [applyOps_eq (maps.applyOps ops), applyOps_eq maps]
  simp only [SortedMap.replay_replay]

end Operations

section Ranges

theorem mem_keys {m : SortedMap String ν} :
    key ∈ m.entries.map Prod.fst ↔ ∃ value, m.get key = some value := by
  constructor
  · intro h
    obtain ⟨entry, hentry, rfl⟩ := mem_map.1 h
    exact ⟨entry.2, SortedMap.get_eq_some.2 hentry⟩
  · rintro ⟨value, hvalue⟩
    exact mem_map.2 ⟨(key, value), SortedMap.get_eq_some.1 hvalue, rfl⟩

theorem replay_clear (m : SortedMap String ν) :
    m.replay ((m.entries.map Prod.fst).map fun key => (key, none)) = .empty := by
  apply SortedMap.ext_get
  intro key
  rw [SortedMap.get_replay, SortedMap.lastEdit_removals, SortedMap.get_empty]
  split
  · rfl
  · rename_i habsent
    cases hget : m.get key with
    | none => rfl
    | some value => exact absurd (mem_keys.2 ⟨value, hget⟩) habsent

theorem removeDirectoryRange_snd (m : SortedMap String ν) (path : String) :
    (removeDirectoryRange m path).2 =
      m.replay ((removeDirectoryRange m path).1.map fun key => (key, none)) := by
  unfold removeDirectoryRange
  split
  · exact (replay_clear m).symm
  · rfl

section
variable (maps : IndexMaps) (keys : List String)

theorem applyOps_removeFile :
    maps.applyOps (keys.map .removeFile) =
      { maps with entries := maps.entries.replay (keys.map fun key => (key, none)) } := by
  induction keys generalizing maps with
  | nil => rfl
  | cons key keys ih => exact ih _

theorem applyOps_removeDirectory :
    maps.applyOps (keys.map .removeDirectory) =
      { maps with directories := maps.directories.replay (keys.map fun key => (key, none)) } := by
  induction keys generalizing maps with
  | nil => rfl
  | cons key keys ih => exact ih _

theorem applyOps_removeUntrackedDirectory :
    maps.applyOps (keys.map .removeUntrackedDirectory) =
      { maps with untrackedDirectories := maps.untrackedDirectories.replay (keys.map fun key => (key, none)) } := by
  induction keys generalizing maps with
  | nil => rfl
  | cons key keys ih => exact ih _

theorem applyOps_removeGitlink :
    maps.applyOps (keys.map .removeGitlink) =
      { maps with gitlinks := maps.gitlinks.replay (keys.map fun key => (key, none)) } := by
  induction keys generalizing maps with
  | nil => rfl
  | cons key keys ih => exact ih _

end

end Ranges

/-- The second index is the first one with some more operations, applied and pending. -/
def Journaled (index index' : WorktreeIndex) : Prop :=
  ∃ ops, index'.pendingOps = index.pendingOps ++ ops ∧
    index'.toIndexMaps = index.toIndexMaps.applyOps ops ∧ index'.hotLoaded = index.hotLoaded

section Edits
variable (index : WorktreeIndex)

section
variable (path : String)

theorem insert_journaled (entry : IndexEntry) :
    Journaled index (index.insert path entry) := by
  unfold WorktreeIndex.insert
  split
  · exact ⟨[.upsertFile path entry], rfl, rfl, rfl⟩
  · exact ⟨[], (append_nil _).symm, rfl, rfl⟩

theorem remove_journaled : Journaled index (index.remove path) := by
  unfold WorktreeIndex.remove
  split
  · exact ⟨[.removeFile path], rfl, rfl, rfl⟩
  · exact ⟨[], (append_nil _).symm, rfl, rfl⟩

theorem insertDirectory_journaled (entry : DirectoryCacheEntry) :
    Journaled index (index.insertDirectory path entry) := by
  unfold WorktreeIndex.insertDirectory
  split
  · exact ⟨[.upsertDirectory path entry], rfl, rfl, rfl⟩
  · exact ⟨[], (append_nil _).symm, rfl, rfl⟩

theorem removeDirectory_journaled :
    Journaled index (index.removeDirectory path) := by
  unfold WorktreeIndex.removeDirectory
  split
  · exact ⟨[.removeDirectory path], rfl, rfl, rfl⟩
  · exact ⟨[], (append_nil _).symm, rfl, rfl⟩

theorem insertUntrackedDirectory_journaled (entry : UntrackedDirectoryCacheEntry) :
    Journaled index (index.insertUntrackedDirectory path entry) := by
  unfold WorktreeIndex.insertUntrackedDirectory
  split
  · exact ⟨[.upsertUntrackedDirectory path entry], rfl, rfl, rfl⟩
  · exact ⟨[], (append_nil _).symm, rfl, rfl⟩

theorem removeUntrackedDirectory_journaled :
    Journaled index (index.removeUntrackedDirectory path) := by
  unfold WorktreeIndex.removeUntrackedDirectory
  split
  · exact ⟨[.removeUntrackedDirectory path], rfl, rfl, rfl⟩
  · exact ⟨[], (append_nil _).symm, rfl, rfl⟩

end

theorem insertGitlink_journaled (path target : String) :
    Journaled index (index.insertGitlink path target) := by
  unfold WorktreeIndex.insertGitlink
  split
  · exact ⟨[.upsertGitlink path target], rfl, rfl, rfl⟩
  · exact ⟨[], (append_nil _).symm, rfl, rfl⟩

theorem removeMatchingPaths_journaled (path : String) (removeFileAtPath : Bool) :
    Journaled index (index.removeMatchingPaths path removeFileAtPath) := by
  unfold WorktreeIndex.removeMatchingPaths
  refine ⟨_, rfl, ?_, rfl⟩
  simp only [applyOps_append, applyOps_removeFile, applyOps_removeDirectory,
    applyOps_removeUntrackedDirectory, removeDirectoryRange_snd]
  by_cases hthere : (removeFileAtPath && (index.entries.get path).isSome) = true
  · simp only [if_pos hthere]
    rfl
  · simp only [if_neg hthere]
    rfl

theorem removeUntrackedDirectoryDescendants_journaled (path : String) :
    Journaled index (index.removeUntrackedDirectoryDescendants path) := by
  unfold WorktreeIndex.removeUntrackedDirectoryDescendants
  refine ⟨_, rfl, ?_, rfl⟩
  rw [applyOps_removeUntrackedDirectory, ← removeDirectoryRange_snd]

theorem removeGitlinksAtOrBelow_journaled (path : String) :
    Journaled index (index.removeGitlinksAtOrBelow path) := by
  unfold WorktreeIndex.removeGitlinksAtOrBelow
  refine ⟨_, rfl, ?_, rfl⟩
  rw [applyOps_removeGitlink, map_append, SortedMap.replay_append]
  cases hget : index.gitlinks.get path with
  | some target => rfl
  | none =>
    have hput : index.gitlinks.put path none = index.gitlinks := by
      apply SortedMap.ext_get
      intro key
      rw [SortedMap.get_put]
      split
      · rename_i hkey
        rw [hkey, hget]
      · rfl
    rw [hput]
    rfl

theorem clearGitlinks_journaled : Journaled index index.clearGitlinks := by
  unfold WorktreeIndex.clearGitlinks
  refine ⟨_, rfl, ?_, rfl⟩
  rw [applyOps_removeGitlink]

/-- Every edit is what the journal will say it was. -/
theorem edit_journaled (edit : Edit) : Journaled index (index.edit edit) := by
  cases edit with
  | insert path entry => exact insert_journaled index path entry
  | remove path => exact remove_journaled index path
  | removeDescendants path => exact removeMatchingPaths_journaled index path false
  | removePathAndDescendants path => exact removeMatchingPaths_journaled index path true
  | insertDirectory path entry => exact insertDirectory_journaled index path entry
  | removeDirectory path => exact removeDirectory_journaled index path
  | insertUntrackedDirectory path entry => exact insertUntrackedDirectory_journaled index path entry
  | removeUntrackedDirectory path => exact removeUntrackedDirectory_journaled index path
  | removeUntrackedDirectoryDescendants path =>
    exact removeUntrackedDirectoryDescendants_journaled index path
  | setGitlinksTree tree => exact ⟨[], (append_nil _).symm, rfl, rfl⟩
  | insertCleanTree path tree => exact ⟨[], (append_nil _).symm, rfl, rfl⟩
  | insertGitlink path target => exact insertGitlink_journaled index path target
  | removeGitlinksAtOrBelow path => exact removeGitlinksAtOrBelow_journaled index path
  | clearGitlinks => exact clearGitlinks_journaled index

end Edits

end Heddle.Worktree
