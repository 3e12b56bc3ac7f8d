import Heddle.Refs.SummaryIndex

namespace Heddle.Refs
open Heddle.Lib Option

structure IndexEntry where
  stateId : StateId
  source : Option RefSummarySource
  deriving DecidableEq

def sourceOf (packed : PackedRefs) (key : RefKey) : Option RefSummarySource :=
  match key with
  | .remoteThread _ _ => none
  | _ => some (.ofPacked packed key)

def RefSummaryEntry.toEntry (entry : RefSummaryEntry) : IndexEntry :=
  ⟨entry.stateId, some entry.source⟩

def RemoteThreadSummaryEntry.toEntry (entry : RemoteThreadSummaryEntry) : IndexEntry :=
  ⟨entry.stateId, none⟩

namespace RefSummaryIndex

structure Sorted (summary : RefSummaryIndex) : Prop where
  threads : SortedBy RefSummaryEntry.name summary.threads
  markers : SortedBy RefSummaryEntry.name summary.markers
  remotes : SortedBy RemoteSummaryEntry.name summary.remotes
  remoteThreads : ∀ remote ∈ summary.remotes,
    SortedBy RemoteThreadSummaryEntry.name remote.threads

def remoteThreads (summary : RefSummaryIndex) (remote : String) : List RemoteThreadSummaryEntry :=
  (lookupBy RemoteSummaryEntry.name remote summary.remotes).elim [] RemoteSummaryEntry.threads

def hasRemote (summary : RefSummaryIndex) (remote : String) : Prop :=
  (lookupBy RemoteSummaryEntry.name remote summary.remotes).isSome

def entryAt (summary : RefSummaryIndex) : RefKey → Option IndexEntry
  | .thread name => (lookupBy RefSummaryEntry.name name summary.threads).map RefSummaryEntry.toEntry
  | .marker name => (lookupBy RefSummaryEntry.name name summary.markers).map RefSummaryEntry.toEntry
  | .remoteThread remote name =>
    (lookupBy RemoteThreadSummaryEntry.name name (summary.remoteThreads remote)).map
      RemoteThreadSummaryEntry.toEntry

end RefSummaryIndex

def SummaryDelta.key : SummaryDelta → RefKey
  | .set key _ => key
  | .delete key => key

def SummaryDelta.value : SummaryDelta → Option StateId
  | .set _ id => some id
  | .delete _ => none

def SummaryDelta.entry (packed : PackedRefs) (delta : SummaryDelta) : Option IndexEntry :=
  delta.value.map (fun id => ⟨id, sourceOf packed delta.key⟩)

section Ext

theorem entries_ext {name : α → String} {toEntry : α → IndexEntry}
    (hinj : ∀ x y, name x = name y → toEntry x = toEntry y → x = y) (hx : SortedBy name xs)
    (hy : SortedBy name ys)
    (h : ∀ k, (lookupBy name k xs).map toEntry = (lookupBy name k ys).map toEntry) : xs = ys := by
  apply sortedBy_ext hx hy
  intro k
  have heq := h k
  cases hlx : lookupBy name k xs with
  | none =>
    rw [hlx, map_none, eq_comm, map_eq_none_iff] at heq
    exact heq.symm
  | some x =>
    rw [hlx, map_some, eq_comm, map_eq_some_iff] at heq
    obtain ⟨y, hly, hentry⟩ := heq
    have hname := (lookupBy_key hlx).trans (lookupBy_key hly).symm
    rw [hinj x y hname hentry.symm, hly]

theorem RefSummaryEntry.toEntry_inj (x y : RefSummaryEntry) (hname : x.name = y.name)
    (h : x.toEntry = y.toEntry) : x = y := by
  cases x
  cases y
  cases hname
  cases h
  rfl

theorem RemoteThreadSummaryEntry.toEntry_inj (x y : RemoteThreadSummaryEntry)
    (hname : x.name = y.name) (h : x.toEntry = y.toEntry) : x = y := by
  cases x
  cases y
  cases hname
  cases h
  rfl

theorem remoteThreads_of_lookup {summary : RefSummaryIndex}
    (h : lookupBy RemoteSummaryEntry.name remote summary.remotes = some entry) :
    summary.remoteThreads remote = entry.threads := by
  rw [RefSummaryIndex.remoteThreads, h, elim_some]

theorem sorted_remoteThreads {summary : RefSummaryIndex} (h : summary.Sorted) (remote : String) :
    SortedBy RemoteThreadSummaryEntry.name (summary.remoteThreads remote) := by
  unfold RefSummaryIndex.remoteThreads
  cases hlookup : lookupBy RemoteSummaryEntry.name remote summary.remotes with
  | none => exact List.Pairwise.nil
  | some entry => exact h.remoteThreads entry (mem_of_lookupBy hlookup)

/-- Two sorted indexes that say the same of every ref, and that have the same remotes, are equal. -/
theorem RefSummaryIndex.ext_entries {x y : RefSummaryIndex} (hx : x.Sorted) (hy : y.Sorted)
    (hentry : ∀ key, x.entryAt key = y.entryAt key)
    (hremote : ∀ remote, x.hasRemote remote ↔ y.hasRemote remote) : x = y := by
  have hthreads : x.threads = y.threads :=
    entries_ext RefSummaryEntry.toEntry_inj hx.threads hy.threads fun name => hentry (.thread name)
  have hmarkers : x.markers = y.markers :=
    entries_ext RefSummaryEntry.toEntry_inj hx.markers hy.markers fun name => hentry (.marker name)
  have hremotes : x.remotes = y.remotes := by
    apply sortedBy_ext hx.remotes hy.remotes
    intro remote
    have heq := entries_ext RemoteThreadSummaryEntry.toEntry_inj (sorted_remoteThreads hx remote)
      (sorted_remoteThreads hy remote) fun name => hentry (.remoteThread remote name)
    have hiff := hremote remote
    unfold hasRemote at hiff
    cases hlx : lookupBy RemoteSummaryEntry.name remote x.remotes with
    | none =>
      rw [hlx] at hiff
      exact (not_isSome_iff_eq_none.1 fun hsome => nomatch hiff.2 hsome).symm
    | some ex =>
      rw [hlx] at hiff
      obtain ⟨ey, hly⟩ := isSome_iff_exists.1 (hiff.1 rfl)
      rw [remoteThreads_of_lookup hlx, remoteThreads_of_lookup hly] at heq
      have hname := (lookupBy_key hlx).trans (lookupBy_key hly).symm
      rw [hly]
      cases ex
      cases ey
      cases hname
      cases heq
      rfl
  cases x
  cases y
  cases hthreads
  cases hmarkers
  cases hremotes
  rfl

end Ext

section Delta
variable (packed : PackedRefs) {summary : RefSummaryIndex}

theorem lookupBy_upsertEntry (hs : SortedBy RefSummaryEntry.name entries) (name name' : String)
    (id : StateId) (source : RefSummarySource) :
    (lookupBy RefSummaryEntry.name name' (upsertEntry entries name id source)).map
        RefSummaryEntry.toEntry =
      if name = name' then some ⟨id, some source⟩
      else (lookupBy RefSummaryEntry.name name' entries).map RefSummaryEntry.toEntry := by
  have hlookup : lookupBy RefSummaryEntry.name name' (upsertEntry entries name id source) =
      if name' = name then some ⟨name, id, source⟩
      else lookupBy RefSummaryEntry.name name' entries := by
    apply lookupBy_upsertBy
    · intro _ _
      rfl
    · exact hs
  rw [hlookup]
  by_cases hname : name = name'
  · rw [if_pos hname.symm, if_pos hname]
    rfl
  · rw [if_neg (Ne.symm hname), if_neg hname]

theorem lookupBy_retain (name name' : String) :
    (lookupBy RefSummaryEntry.name name' (entries.filter (fun entry => entry.name ≠ name))).map
        RefSummaryEntry.toEntry =
      if name = name' then none
      else (lookupBy RefSummaryEntry.name name' entries).map RefSummaryEntry.toEntry := by
  rw [lookupBy_filter_ne]
  by_cases hname : name = name'
  · rw [if_pos hname.symm, if_pos hname, map_none]
  · rw [if_neg (Ne.symm hname), if_neg hname]

def upsertRemote (remote name : String) (id : StateId) (found : Option RemoteSummaryEntry) :
    RemoteSummaryEntry :=
  ⟨remote, upsertBy RemoteThreadSummaryEntry.name name (fun _ => ⟨name, id⟩)
    (found.elim [] RemoteSummaryEntry.threads)⟩

theorem lookupBy_upsertRemoteThread (hs : SortedBy RemoteSummaryEntry.name remotes)
    (remote remote' name : String) (id : StateId) :
    lookupBy RemoteSummaryEntry.name remote' (upsertRemoteThread remotes remote name id) =
      if remote' = remote then
        some (upsertRemote remote name id (lookupBy RemoteSummaryEntry.name remote remotes))
      else lookupBy RemoteSummaryEntry.name remote' remotes := by
  apply lookupBy_upsertBy
  · intro _ _
    rfl
  · exact hs

def dropThread (remote name : String) (entry : RemoteSummaryEntry) : RemoteSummaryEntry :=
  if entry.name = remote then
    { entry with threads := entry.threads.filter (fun thread => thread.name ≠ name) }
  else entry

theorem dropThread_name (remote name : String) (entry : RemoteSummaryEntry) :
    (dropThread remote name entry).name = entry.name := by
  unfold dropThread
  split <;> rfl

theorem lookupBy_retainRemoteThreads (remotes : List RemoteSummaryEntry)
    (remote remote' name : String) :
    lookupBy RemoteSummaryEntry.name remote' (retainRemoteThreads remotes remote name) =
      (lookupBy RemoteSummaryEntry.name remote' remotes).map (dropThread remote name) :=
  lookupBy_map (dropThread_name remote name)

theorem remoteThreads_set (hs : summary.Sorted) (remote remote' name : String) (id : StateId) :
    (summary.applyDelta packed (.set (.remoteThread remote name) id)).remoteThreads remote' =
      if remote' = remote then
        upsertBy RemoteThreadSummaryEntry.name name (fun _ => ⟨name, id⟩)
          (summary.remoteThreads remote)
      else summary.remoteThreads remote' := by
  unfold RefSummaryIndex.remoteThreads
  rw [RefSummaryIndex.applyDelta, lookupBy_upsertRemoteThread hs.remotes]
  by_cases hremote : remote' = remote
  · rw [if_pos hremote, if_pos hremote]
    rfl
  · rw [if_neg hremote, if_neg hremote]

theorem remoteThreads_delete (remote remote' name : String) :
    (summary.applyDelta packed (.delete (.remoteThread remote name))).remoteThreads remote' =
      if remote' = remote then
        (summary.remoteThreads remote).filter (fun thread => thread.name ≠ name)
      else summary.remoteThreads remote' := by
  unfold RefSummaryIndex.remoteThreads
  rw [RefSummaryIndex.applyDelta, lookupBy_retainRemoteThreads]
  by_cases hremote : remote' = remote
  · rw [if_pos hremote, hremote]
    cases hlookup : lookupBy RemoteSummaryEntry.name remote summary.remotes with
    | none => rfl
    | some entry =>
      rw [map_some, elim_some, elim_some, dropThread,
        if_pos (lookupBy_key hlookup)]
  · rw [if_neg hremote]
    cases hlookup : lookupBy RemoteSummaryEntry.name remote' summary.remotes with
    | none => rfl
    | some entry =>
      have hne : entry.name ≠ remote := by
        rw [lookupBy_key hlookup]
        exact hremote
      rw [map_some, elim_some, elim_some, dropThread, if_neg hne]

section
variable (hs : summary.Sorted) (delta : SummaryDelta)
include hs

theorem entryAt_applyDelta (key : RefKey) :
    (summary.applyDelta packed delta).entryAt key =
      if delta.key = key then delta.entry packed else summary.entryAt key := by
  cases delta with
  | set key' id =>
    cases key' with
    | thread name =>
      cases key with
      | thread name' =>
        simp only [SummaryDelta.key, RefKey.thread.injEq]
        exact lookupBy_upsertEntry hs.threads name name' id (.ofPacked packed (.thread name))
      | marker name' => rfl
      | remoteThread remote' name' => rfl
    | marker name =>
      cases key with
      | thread name' => rfl
      | marker name' =>
        simp only [SummaryDelta.key, RefKey.marker.injEq]
        exact lookupBy_upsertEntry hs.markers name name' id (.ofPacked packed (.marker name))
      | remoteThread remote' name' => rfl
    | remoteThread remote name =>
      cases key with
      | thread name' => rfl
      | marker name' => rfl
      | remoteThread remote' name' =>
        simp only [SummaryDelta.key, RefKey.remoteThread.injEq, RefSummaryIndex.entryAt]
        rw [remoteThreads_set packed hs]
        by_cases hremote : remote = remote'
        · subst hremote
          have hlookup : lookupBy RemoteThreadSummaryEntry.name name'
              (upsertBy RemoteThreadSummaryEntry.name name (fun _ => ⟨name, id⟩)
                (summary.remoteThreads remote)) =
              if name' = name then some ⟨name, id⟩
              else lookupBy RemoteThreadSummaryEntry.name name' (summary.remoteThreads remote) := by
            apply lookupBy_upsertBy
            · intro _ _
              rfl
            · exact sorted_remoteThreads hs remote
          rw [if_pos rfl, hlookup]
          by_cases hname : name = name'
          · rw [if_pos hname.symm, if_pos ⟨rfl, hname⟩]
            rfl
          · rw [if_neg (Ne.symm hname), if_neg fun h => hname h.2]
        · rw [if_neg (Ne.symm hremote), if_neg fun h => hremote h.1]
  | delete key' =>
    cases key' with
    | thread name =>
      cases key with
      | thread name' =>
        simp only [SummaryDelta.key, RefKey.thread.injEq]
        exact lookupBy_retain name name'
      | marker name' => rfl
      | remoteThread remote' name' => rfl
    | marker name =>
      cases key with
      | thread name' => rfl
      | marker name' =>
        simp only [SummaryDelta.key, RefKey.marker.injEq]
        exact lookupBy_retain name name'
      | remoteThread remote' name' => rfl
    | remoteThread remote name =>
      cases key with
      | thread name' => rfl
      | marker name' => rfl
      | remoteThread remote' name' =>
        simp only [SummaryDelta.key, RefKey.remoteThread.injEq, RefSummaryIndex.entryAt]
        rw [remoteThreads_delete]
        by_cases hremote : remote = remote'
        · subst hremote
          rw [if_pos rfl, lookupBy_filter_ne]
          by_cases hname : name = name'
          · rw [if_pos hname.symm, if_pos ⟨rfl, hname⟩]
            rfl
          · rw [if_neg (Ne.symm hname), if_neg fun h => hname h.2]
        · rw [if_neg (Ne.symm hremote), if_neg fun h => hremote h.1]

theorem hasRemote_applyDelta (remote : String) :
    (summary.applyDelta packed delta).hasRemote remote ↔
      summary.hasRemote remote ∨ ∃ name id, delta = .set (.remoteThread remote name) id := by
  unfold RefSummaryIndex.hasRemote
  cases delta with
  | set key id =>
    cases key with
    | thread name => simp only [RefSummaryIndex.applyDelta, SummaryDelta.set.injEq, reduceCtorEq,
        false_and, exists_false, or_false]
    | marker name => simp only [RefSummaryIndex.applyDelta, SummaryDelta.set.injEq, reduceCtorEq,
        false_and, exists_false, or_false]
    | remoteThread remote' name =>
      rw [RefSummaryIndex.applyDelta, lookupBy_upsertRemoteThread hs.remotes]
      by_cases hremote : remote = remote'
      · subst hremote
        rw [if_pos rfl]
        exact iff_of_true rfl (.inr ⟨name, id, rfl⟩)
      · rw [if_neg hremote]
        constructor
        · exact .inl
        · intro h
          rcases h with h | ⟨name', id', h⟩
          · exact h
          · cases h
            exact absurd rfl hremote
  | delete key =>
    cases key with
    | thread name => simp only [RefSummaryIndex.applyDelta, reduceCtorEq, exists_false, or_false]
    | marker name => simp only [RefSummaryIndex.applyDelta, reduceCtorEq, exists_false, or_false]
    | remoteThread remote' name =>
      rw [RefSummaryIndex.applyDelta, lookupBy_retainRemoteThreads, isSome_map]
      simp only [reduceCtorEq, exists_false, or_false]

theorem applyDelta_sorted :
    (summary.applyDelta packed delta).Sorted := by
  obtain ⟨hthreads, hmarkers, hremotes, hremoteThreads⟩ := hs
  cases delta with
  | set key id =>
    cases key with
    | thread name =>
      have hupsert : SortedBy RefSummaryEntry.name (upsertEntry summary.threads name id
          (.ofPacked packed (.thread name))) := by
        apply upsertBy_sorted
        · intro _ _
          rfl
        · exact hthreads
      exact ⟨hupsert, hmarkers, hremotes, hremoteThreads⟩
    | marker name =>
      have hupsert : SortedBy RefSummaryEntry.name (upsertEntry summary.markers name id
          (.ofPacked packed (.marker name))) := by
        apply upsertBy_sorted
        · intro _ _
          rfl
        · exact hmarkers
      exact ⟨hthreads, hupsert, hremotes, hremoteThreads⟩
    | remoteThread remote name =>
      have hupsert : SortedBy RemoteSummaryEntry.name
          (upsertRemoteThread summary.remotes remote name id) := by
        apply upsertBy_sorted
        · intro _ _
          rfl
        · exact hremotes
      refine ⟨hthreads, hmarkers, hupsert, fun entry hentry => ?_⟩
      rcases mem_upsertBy hentry with hentry | ⟨found, rfl, hfound⟩
      · exact hremoteThreads entry hentry
      · apply upsertBy_sorted
        · intro _ _
          rfl
        · cases found with
          | none => exact List.Pairwise.nil
          | some old => exact hremoteThreads old (hfound old rfl).1
  | delete key =>
    cases key with
    | thread name =>
      exact ⟨sortedBy_filter hthreads _, hmarkers, hremotes, hremoteThreads⟩
    | marker name =>
      exact ⟨hthreads, sortedBy_filter hmarkers _, hremotes, hremoteThreads⟩
    | remoteThread remote name =>
      refine ⟨hthreads, hmarkers, sortedBy_map (dropThread_name remote name) hremotes,
        fun entry hentry => ?_⟩
      obtain ⟨old, hold, rfl⟩ := List.mem_map.1 hentry
      split
      · exact sortedBy_filter (hremoteThreads old hold) _
      · exact hremoteThreads old hold

end

end Delta

end Heddle.Refs
