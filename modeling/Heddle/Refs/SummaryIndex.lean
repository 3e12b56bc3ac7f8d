import Heddle.Refs.Store
import Heddle.Lib.SortedList

namespace Heddle.Refs
open Heddle.Lib

inductive SummaryDelta where
  | set (key : RefKey) (stateId : StateId)
  | delete (key : RefKey)
  deriving DecidableEq

def RefSummarySource.ofPacked (packed : PackedRefs) (key : RefKey) : RefSummarySource :=
  if (packed.get key).isSome then .looseAndPacked else .loose

def upsertEntry (entries : List RefSummaryEntry) (name : String) (stateId : StateId)
    (source : RefSummarySource) : List RefSummaryEntry :=
  upsertBy RefSummaryEntry.name name (fun _ => ⟨name, stateId, source⟩) entries

def upsertRemoteThread (remotes : List RemoteSummaryEntry) (remote name : String)
    (stateId : StateId) : List RemoteSummaryEntry :=
  upsertBy RemoteSummaryEntry.name remote (fun found =>
    ⟨remote, upsertBy RemoteThreadSummaryEntry.name name (fun _ => ⟨name, stateId⟩)
      (found.elim [] RemoteSummaryEntry.threads)⟩) remotes

def retainRemoteThreads (remotes : List RemoteSummaryEntry) (remote name : String) :
    List RemoteSummaryEntry :=
  remotes.map (fun entry =>
    if entry.name = remote then
      { entry with threads := entry.threads.filter (fun thread => thread.name ≠ name) }
    else entry)

def RefSummaryIndex.applyDelta (packed : PackedRefs) (summary : RefSummaryIndex) :
    SummaryDelta → RefSummaryIndex
  | .set (.thread name) stateId =>
    let source := .ofPacked packed (.thread name)
    { summary with threads := upsertEntry summary.threads name stateId source }
  | .set (.marker name) stateId =>
    let source := .ofPacked packed (.marker name)
    { summary with markers := upsertEntry summary.markers name stateId source }
  | .set (.remoteThread remote name) stateId =>
    { summary with remotes := upsertRemoteThread summary.remotes remote name stateId }
  | .delete (.thread name) =>
    { summary with threads := summary.threads.filter (fun entry => entry.name ≠ name) }
  | .delete (.marker name) =>
    { summary with markers := summary.markers.filter (fun entry => entry.name ≠ name) }
  | .delete (.remoteThread remote name) =>
    { summary with remotes := retainRemoteThreads summary.remotes remote name }

def RefSummaryIndex.threadNames (summary : RefSummaryIndex) : List String :=
  summary.threads.map RefSummaryEntry.name

def RefSummaryIndex.markerNames (summary : RefSummaryIndex) : List String :=
  summary.markers.map RefSummaryEntry.name

def RefSummaryIndex.remoteNames (summary : RefSummaryIndex) : List String :=
  summary.remotes.map RemoteSummaryEntry.name

def RefSummaryIndex.remoteThreadNames (summary : RefSummaryIndex) (remote : String) :
    List String :=
  (lookupBy RemoteSummaryEntry.name remote summary.remotes).elim []
    (fun entry => entry.threads.map RemoteThreadSummaryEntry.name)

section Storage
variable (names : RefNames) (store : RefStore)

def threadDirName : RefKey → Option String
  | .thread name => some name
  | _ => none

def markerDirName : RefKey → Option String
  | .marker name => some name
  | _ => none

def remoteDirName : RefKey → Option String
  | .remoteThread remote _ => some remote
  | _ => none

def remoteThreadDirName (remote : String) : RefKey → Option String
  | .remoteThread remote' name => if remote' = remote then some name else none
  | _ => none

def listRefsRecursive (dirName : RefKey → Option String) : List String :=
  sortBy id (store.entries.keys.filterMap dirName).dedup

def scanLoose (toKey : String → RefKey) (dirNames : List String) :
    Except RefError (List (String × StateId)) := do
  let found ← dirNames.mapM (fun name => do
    let _ ← refPath names (toKey name)
    let id ← readStateIdAt names store (toKey name)
    return id.map (fun id => (name, id)))
  return found.reduceOption

def scanLooseThreads : Except RefError (List (String × StateId)) :=
  scanLoose names store .thread (listRefsRecursive store threadDirName)

def scanLooseMarkers : Except RefError (List (String × StateId)) :=
  scanLoose names store .marker (listRefsRecursive store markerDirName)

def packedOnly (loose : List (String × StateId)) (packed : AList (fun _ : String => StateId)) :
    List (Sigma fun _ : String => StateId) :=
  packed.entries.filter (fun entry => entry.1 ∉ loose.map Prod.fst)

def listFromStorage (loose : List (String × StateId)) (packed : AList (fun _ : String => StateId)) :
    List String :=
  sortBy id (loose.map Prod.fst ++ (packedOnly loose packed).map Sigma.fst)

def listThreadsFromStorage : Except RefError (List String) := do
  let loose ← scanLooseThreads names store
  return listFromStorage loose store.packedRefs.threads

def listMarkersFromStorage : Except RefError (List String) := do
  let loose ← scanLooseMarkers names store
  return listFromStorage loose store.packedRefs.markers

def listRemotesFromStorage : List String := listRefsRecursive store remoteDirName

def listRemoteThreadsFromStorage (remote : String) : Except RefError (List String) := do
  requireName names.requireUserRefName remote
  return listRefsRecursive store (remoteThreadDirName remote)

def scanRemoteThreads (remote : String) : Except RefError (List (String × StateId)) := do
  let dirNames ← listRemoteThreadsFromStorage names store remote
  scanLoose names store (.remoteThread remote) dirNames

def summaryEntries (toKey : String → RefKey) (loose : List (String × StateId))
    (packed : AList (fun _ : String => StateId)) : List RefSummaryEntry :=
  sortBy RefSummaryEntry.name
    (loose.map (fun ref => ⟨ref.1, ref.2, .ofPacked store.packedRefs (toKey ref.1)⟩) ++
      (packedOnly loose packed).map (fun entry => ⟨entry.1, entry.2, .packed⟩))

def buildRefSummaryIndexFromStorage : Except RefError RefSummaryIndex := do
  let looseThreads ← scanLooseThreads names store
  let looseMarkers ← scanLooseMarkers names store
  let remotes ← (listRemotesFromStorage store).mapM (fun remote => do
    let threads ← scanRemoteThreads names store remote
    return ⟨remote, threads.map (fun thread => ⟨thread.1, thread.2⟩)⟩)
  return {
    threads := summaryEntries store .thread looseThreads store.packedRefs.threads
    markers := summaryEntries store .marker looseMarkers store.packedRefs.markers
    remotes }

def rebuildRefSummaryIndex (writeFails : Bool) : RefStore :=
  match buildRefSummaryIndexFromStorage names store with
  | .ok summary => { store with summary := if writeFails then none else some summary }
  | .error _ => { store with summary := none }

def updateRefSummaryIndexWithDeltas (writeFails : Bool) (deltas : List SummaryDelta) : RefStore :=
  match store.summary with
  | none => rebuildRefSummaryIndex names store writeFails
  | some summary =>
    if deltas.isEmpty then store
    else
      let summary := deltas.foldl (·.applyDelta store.packedRefs) summary
      { store with summary := if writeFails then none else some summary }

def rawListThreads : Except RefError (List String) :=
  match store.summary with
  | some summary => .ok summary.threadNames
  | none => listThreadsFromStorage names store

def rawListMarkers : Except RefError (List String) :=
  match store.summary with
  | some summary => .ok summary.markerNames
  | none => listMarkersFromStorage names store

def rawListRemotes : List String :=
  match store.summary with
  | some summary => summary.remoteNames
  | none => listRemotesFromStorage store

def rawListRemoteThreads (remote : String) : Except RefError (List String) :=
  match store.summary with
  | some summary => .ok (summary.remoteThreadNames remote)
  | none => listRemoteThreadsFromStorage names store remote

@[simp] theorem packed_rebuild (writeFails : Bool) :
    (rebuildRefSummaryIndex names store writeFails).packed = store.packed := by
  unfold rebuildRefSummaryIndex
  split <;> rfl

@[simp] theorem fileAt_rebuild (writeFails : Bool) (path : RefPath) :
    (rebuildRefSummaryIndex names store writeFails).fileAt path = store.fileAt path := by
  unfold rebuildRefSummaryIndex
  split <;> cases path <;> rfl

@[simp] theorem packed_updateSummary (writeFails : Bool) (deltas : List SummaryDelta) :
    (updateRefSummaryIndexWithDeltas names store writeFails deltas).packed = store.packed := by
  unfold updateRefSummaryIndexWithDeltas
  split
  · exact packed_rebuild names store writeFails
  · split <;> rfl

@[simp] theorem fileAt_updateSummary (writeFails : Bool) (deltas : List SummaryDelta)
    (path : RefPath) :
    (updateRefSummaryIndexWithDeltas names store writeFails deltas).fileAt path =
      store.fileAt path := by
  unfold updateRefSummaryIndexWithDeltas
  split
  · exact fileAt_rebuild names store writeFails path
  · split
    · rfl
    · cases path <;> rfl

end Storage

end Heddle.Refs
