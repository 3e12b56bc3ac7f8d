import Heddle.Refs.IndexEntries
import Mathlib.Data.List.Dedup

namespace Heddle.Refs
open Heddle.Lib List

def looseState (store : RefStore) (key : RefKey) : Option StateId :=
  match store.loose key with
  | some (.state id) => some id
  | _ => none

def storedEntry (store : RefStore) (key : RefKey) : Option IndexEntry :=
  match looseState store key with
  | some id => some ⟨id, sourceOf store.packedRefs key⟩
  | none => (store.packedRefs.get key).map (fun id => ⟨id, some .packed⟩)

structure Describes (store : RefStore) (summary : RefSummaryIndex) : Prop where
  sorted : summary.Sorted
  entries : ∀ key, summary.entryAt key = storedEntry store key
  remotes : ∀ remote, summary.hasRemote remote ↔
    ∃ thread, .remoteThread remote thread ∈ store.entries

structure Readable (names : RefNames) (store : RefStore) : Prop where
  names : ∀ key ∈ store.entries, refPath names key = .ok (.entry key)
  states : ∀ key, store.loose key = (looseState store key).map .state
  packed : ∀ key, (store.packedRefs.get key).isSome → key ∈ store.entries

theorem Describes.unique (hx : Describes store x) (hy : Describes store y) : x = y := by
  apply RefSummaryIndex.ext_entries hx.sorted hy.sorted
  · intro key
    exact (hx.entries key).trans (hy.entries key).symm
  · intro remote
    exact (hx.remotes remote).trans (hy.remotes remote).symm

section Fold

section
variable (packed : PackedRefs) (deltas : List SummaryDelta) {summary : RefSummaryIndex}
  (hs : summary.Sorted)
include hs

theorem foldl_applyDelta_sorted :
    (deltas.foldl (·.applyDelta packed) summary).Sorted := by
  induction deltas generalizing summary with
  | nil => exact hs
  | cons delta deltas ih => exact ih (applyDelta_sorted packed hs delta)

theorem entryAt_foldl_applyDelta (key : RefKey) :
    (deltas.foldl (·.applyDelta packed) summary).entryAt key =
      (lastSome (fun delta => if delta.key = key then some (delta.entry packed) else none)
        deltas).getD (summary.entryAt key) := by
  induction deltas generalizing summary with
  | nil => rfl
  | cons delta deltas ih =>
    rw [foldl_cons, ih (applyDelta_sorted packed hs delta), entryAt_applyDelta packed hs,
      lastSome_cons]
    by_cases hkey : delta.key = key
    · rw [if_pos hkey, if_pos hkey]
      cases lastSome _ deltas <;> rfl
    · rw [if_neg hkey, if_neg hkey, Option.or_none]

theorem hasRemote_foldl_applyDelta (remote : String) :
    (deltas.foldl (·.applyDelta packed) summary).hasRemote remote ↔
      summary.hasRemote remote ∨ ∃ name id, .set (.remoteThread remote name) id ∈ deltas := by
  induction deltas generalizing summary with
  | nil => simp only [foldl_nil, not_mem_nil, exists_false, or_false]
  | cons delta deltas ih =>
    rw [foldl_cons, ih (applyDelta_sorted packed hs delta), hasRemote_applyDelta packed hs,
      or_assoc]
    apply or_congr_right
    simp only [mem_cons, exists_or, eq_comm]

end

end Fold

section Scan

theorem mem_entries_of_loose {store : RefStore} (h : (store.loose key).isSome) :
    key ∈ store.entries := by
  by_contra hmem
  rw [RefStore.loose, AList.lookup_eq_none.2 hmem] at h
  cases h

theorem mem_entries_of_looseState {id : StateId} (h : looseState store key = some id) :
    key ∈ store.entries := by
  apply mem_entries_of_loose
  unfold looseState at h
  split at h
  · rename_i hloose
    rw [hloose]
    rfl
  · cases h

theorem readStateIdAt_ok (h : Readable names store) (key : RefKey) :
    readStateIdAt names store key = .ok (looseState store key) := by
  unfold readStateIdAt
  rw [h.states key]
  cases looseState store key <;> rfl

theorem mem_listRefsRecursive :
    name ∈ listRefsRecursive store dirName ↔ ∃ key ∈ store.entries, dirName key = some name := by
  unfold listRefsRecursive
  rw [mem_sortBy, mem_dedup, mem_filterMap]
  rfl

theorem listRefsRecursive_sorted (store : RefStore) (dirName : RefKey → Option String) :
    SortedBy id (listRefsRecursive store dirName) := by
  apply sortBy_sorted
  rw [map_id]
  exact nodup_dedup _

/-- `toKey` gives back the refs of one directory tree from their names. -/
def ListsKeys (toKey : String → RefKey) (dirName : RefKey → Option String) : Prop :=
  ∀ key name, dirName key = some name ↔ key = toKey name

theorem listsKeys_thread : ListsKeys .thread threadDirName := by
  intro key name
  cases key <;> simp only [threadDirName, Option.some.injEq, RefKey.thread.injEq, reduceCtorEq]

theorem listsKeys_marker : ListsKeys .marker markerDirName := by
  intro key name
  cases key <;> simp only [markerDirName, Option.some.injEq, RefKey.marker.injEq, reduceCtorEq]

theorem listsKeys_remoteThread (remote : String) :
    ListsKeys (.remoteThread remote) (remoteThreadDirName remote) := by
  intro key name
  cases key with
  | thread _ => simp only [remoteThreadDirName, reduceCtorEq]
  | marker _ => simp only [remoteThreadDirName, reduceCtorEq]
  | remoteThread remote' name' =>
    simp only [remoteThreadDirName, Option.ite_none_right_eq_some, Option.some.injEq,
      RefKey.remoteThread.injEq]

theorem mem_listRefs (h : ListsKeys toKey dirName) :
    name ∈ listRefsRecursive store dirName ↔ toKey name ∈ store.entries := by
  rw [mem_listRefsRecursive]
  constructor
  · intro hkey
    obtain ⟨key, hmem, hname⟩ := hkey
    exact (h key name).1 hname ▸ hmem
  · intro hmem
    exact ⟨toKey name, hmem, (h (toKey name) name).2 rfl⟩

def looseRefs (store : RefStore) (toKey : String → RefKey) (dirNames : List String) :
    List (String × StateId) :=
  dirNames.filterMap (fun name => (looseState store (toKey name)).map (fun id => (name, id)))

theorem scanLoose_ok (h : Readable names store)
    (hdir : ∀ name ∈ dirNames, toKey name ∈ store.entries) :
    scanLoose names store toKey dirNames = .ok (looseRefs store toKey dirNames) := by
  unfold scanLoose looseRefs
  induction dirNames with
  | nil => rfl
  | cons name dirNames ih =>
    obtain ⟨hname, hdir⟩ := forall_mem_cons.1 hdir
    obtain ⟨found, hfound, hloose⟩ := bind_eq_ok.1 (ih hdir)
    simp only [pure_eq_ok, Except.ok.injEq] at hloose
    rw [mapM_cons, h.names _ hname, readStateIdAt_ok h, hfound, filterMap_cons, ← hloose]
    cases looseState store (toKey name) <;> rfl

theorem mem_looseRefs {id : StateId} (hkeys : ListsKeys toKey dirName) :
    (name, id) ∈ looseRefs store toKey (listRefsRecursive store dirName) ↔
      looseState store (toKey name) = some id := by
  unfold looseRefs
  rw [mem_filterMap]
  constructor
  · intro h
    obtain ⟨name', _, h⟩ := h
    obtain ⟨id', hstate, heq⟩ := Option.map_eq_some_iff.1 h
    cases heq
    exact hstate
  · intro h
    refine ⟨name, (mem_listRefs hkeys).2 (mem_entries_of_looseState h), ?_⟩
    rw [h]
    rfl

theorem looseRefs_sorted (store : RefStore) (toKey : String → RefKey)
    (dirName : RefKey → Option String) :
    SortedBy Prod.fst (looseRefs store toKey (listRefsRecursive store dirName)) := by
  apply pairwise_filterMap.2
  apply (listRefsRecursive_sorted store dirName).imp
  intro a b hab x hx y hy
  obtain ⟨_, _, rfl⟩ := Option.map_eq_some_iff.1 hx
  obtain ⟨_, _, rfl⟩ := Option.map_eq_some_iff.1 hy
  exact hab

end Scan

section Entries
variable {store : RefStore} {toKey : String → RefKey} {dirName : RefKey → Option String}
  {packed : AList (fun _ : String => StateId)}

theorem mem_packedOnly {id : StateId} :
    ⟨name, id⟩ ∈ packedOnly loose packed ↔
      packed.lookup name = some id ∧ ∀ id', (name, id') ∉ loose := by
  unfold packedOnly
  rw [mem_filter, ← AList.mem_lookup_iff, Option.mem_def]
  apply and_congr_right
  intro _
  simp only [mem_map, Prod.exists, exists_and_right, exists_eq_right, not_exists,
    decide_eq_true_eq]

theorem names_nodup (h : SortedBy Prod.fst loose) :
    (loose.map Prod.fst ++ (packedOnly loose packed).map Sigma.fst).Nodup := by
  apply nodup_append'.2
  refine ⟨sortedBy_nodup h, ?_, ?_⟩
  · exact packed.nodupKeys.sublist filter_sublist
  · intro name hloose hpacked
    obtain ⟨entry, hentry, rfl⟩ := mem_map.1 hpacked
    exact of_decide_eq_true (mem_filter.1 hentry).2 hloose

def unsortedEntries (store : RefStore) (toKey : String → RefKey) (loose : List (String × StateId))
    (packed : AList (fun _ : String => StateId)) : List RefSummaryEntry :=
  loose.map (fun ref => ⟨ref.1, ref.2, .ofPacked store.packedRefs (toKey ref.1)⟩) ++
    (packedOnly loose packed).map (fun entry => ⟨entry.1, entry.2, .packed⟩)

theorem unsortedEntries_nodup (h : SortedBy Prod.fst loose) :
    ((unsortedEntries store toKey loose packed).map RefSummaryEntry.name).Nodup := by
  have hnames : (unsortedEntries store toKey loose packed).map RefSummaryEntry.name =
      loose.map Prod.fst ++ (packedOnly loose packed).map Sigma.fst := by
    unfold unsortedEntries
    rw [map_append, map_map, map_map]
    rfl
  rw [hnames]
  exact names_nodup h

theorem lookupBy_summaryEntries (hkeys : ListsKeys toKey dirName)
    (hpacked : ∀ name, packed.lookup name = store.packedRefs.get (toKey name))
    (hsource : ∀ name, sourceOf store.packedRefs (toKey name) =
      some (.ofPacked store.packedRefs (toKey name))) (name : String) :
    (lookupBy RefSummaryEntry.name name (summaryEntries store toKey
        (looseRefs store toKey (listRefsRecursive store dirName)) packed)).map
        RefSummaryEntry.toEntry =
      storedEntry store (toKey name) := by
  have hsorted := looseRefs_sorted store toKey dirName
  have hmem (id : StateId) : (name, id) ∈ looseRefs store toKey (listRefsRecursive store dirName) ↔
      looseState store (toKey name) = some id := mem_looseRefs hkeys
  generalize looseRefs store toKey (listRefsRecursive store dirName) = loose at hsorted hmem ⊢
  have hlookup (entry : RefSummaryEntry) :
      lookupBy RefSummaryEntry.name name (summaryEntries store toKey loose packed) = some entry ↔
        entry ∈ unsortedEntries store toKey loose packed ∧ entry.name = name :=
    lookupBy_sortBy (unsortedEntries_nodup hsorted)
  unfold storedEntry
  cases hstate : looseState store (toKey name) with
  | some id =>
    have hentry : ⟨name, id, .ofPacked store.packedRefs (toKey name)⟩ ∈
        unsortedEntries store toKey loose packed :=
      mem_append_left _ (mem_map.2 ⟨(name, id), (hmem id).2 hstate, rfl⟩)
    rw [(hlookup _).2 ⟨hentry, rfl⟩, Option.map_some, hsource]
    rfl
  | none =>
    have hloose (id : StateId) : (name, id) ∉ loose := by
      intro h
      rw [(hmem id).1 h] at hstate
      cases hstate
    cases hget : store.packedRefs.get (toKey name) with
    | some id =>
      have hpackedOnly : ⟨name, id⟩ ∈ packedOnly loose packed :=
        mem_packedOnly.2 ⟨(hpacked name).trans hget, hloose⟩
      have hentry : ⟨name, id, .packed⟩ ∈ unsortedEntries store toKey loose packed :=
        mem_append_right _ (mem_map.2 ⟨⟨name, id⟩, hpackedOnly, rfl⟩)
      rw [(hlookup _).2 ⟨hentry, rfl⟩]
      rfl
    | none =>
      cases hfound : lookupBy RefSummaryEntry.name name (summaryEntries store toKey loose packed) with
      | none => rfl
      | some entry =>
        obtain ⟨hentry, rfl⟩ := (hlookup entry).1 hfound
        rcases mem_append.1 hentry with h | h
        · obtain ⟨ref, href, rfl⟩ := mem_map.1 h
          exact absurd href (hloose ref.2)
        · obtain ⟨entry, hpackedOnly, rfl⟩ := mem_map.1 h
          rw [← hpacked, (mem_packedOnly.1 hpackedOnly).1] at hget
          cases hget

theorem summaryEntries_sorted (hsorted : SortedBy Prod.fst loose) :
    SortedBy RefSummaryEntry.name (summaryEntries store toKey loose packed) :=
  sortBy_sorted (unsortedEntries_nodup hsorted)

def remoteEntries (store : RefStore) (remote : String) : List RemoteThreadSummaryEntry :=
  (looseRefs store (.remoteThread remote)
    (listRefsRecursive store (remoteThreadDirName remote))).map (fun thread => ⟨thread.1, thread.2⟩)

theorem remoteEntries_sorted (store : RefStore) (remote : String) :
    SortedBy RemoteThreadSummaryEntry.name (remoteEntries store remote) :=
  pairwise_map.2 (looseRefs_sorted store (.remoteThread remote) (remoteThreadDirName remote))

theorem lookupBy_remoteEntries (store : RefStore) (remote name : String) :
    lookupBy RemoteThreadSummaryEntry.name name (remoteEntries store remote) =
      (looseState store (.remoteThread remote name)).map (fun id => ⟨name, id⟩) := by
  have hsorted := remoteEntries_sorted store remote
  have hkeys := listsKeys_remoteThread remote
  cases hstate : looseState store (.remoteThread remote name) with
  | some id =>
    apply (lookupBy_eq_some hsorted).2
    exact ⟨mem_map.2 ⟨(name, id), (mem_looseRefs hkeys).2 hstate, rfl⟩, rfl⟩
  | none =>
    cases hlookup : lookupBy RemoteThreadSummaryEntry.name name (remoteEntries store remote) with
    | none => rfl
    | some entry =>
      obtain ⟨hentry, rfl⟩ := (lookupBy_eq_some hsorted).1 hlookup
      obtain ⟨ref, href, rfl⟩ := mem_map.1 hentry
      rw [(mem_looseRefs hkeys).1 href] at hstate
      cases hstate

end Entries

section Build
variable {names : RefNames} {store : RefStore}

def rebuilt (store : RefStore) : RefSummaryIndex where
  threads := summaryEntries store .thread
    (looseRefs store .thread (listRefsRecursive store threadDirName)) store.packedRefs.threads
  markers := summaryEntries store .marker
    (looseRefs store .marker (listRefsRecursive store markerDirName)) store.packedRefs.markers
  remotes := (listRemotesFromStorage store).map (fun remote => ⟨remote, remoteEntries store remote⟩)

theorem scanLooseThreads_ok (h : Readable names store) :
    scanLooseThreads names store =
      .ok (looseRefs store .thread (listRefsRecursive store threadDirName)) :=
  scanLoose_ok h fun _ hname => (mem_listRefs listsKeys_thread).1 hname

theorem scanLooseMarkers_ok (h : Readable names store) :
    scanLooseMarkers names store =
      .ok (looseRefs store .marker (listRefsRecursive store markerDirName)) :=
  scanLoose_ok h fun _ hname => (mem_listRefs listsKeys_marker).1 hname

theorem listRemoteThreadsFromStorage_ok (h : names.requireUserRefName remote = true) :
    listRemoteThreadsFromStorage names store remote =
      .ok (listRefsRecursive store (remoteThreadDirName remote)) := by
  unfold listRemoteThreadsFromStorage requireName
  rw [if_pos h]
  rfl

theorem mem_listRemotes :
    remote ∈ listRemotesFromStorage store ↔
      ∃ thread, .remoteThread remote thread ∈ store.entries := by
  unfold listRemotesFromStorage
  rw [mem_listRefsRecursive]
  constructor
  · intro h
    obtain ⟨key, hkey, hname⟩ := h
    cases key with
    | thread name => cases hname
    | marker name => cases hname
    | remoteThread remote' name =>
      cases hname
      exact ⟨name, hkey⟩
  · intro h
    obtain ⟨thread, hthread⟩ := h
    exact ⟨.remoteThread remote thread, hthread, rfl⟩

theorem requireUserRefName_remote (h : refPath names (.remoteThread remote thread) = .ok path) :
    names.requireUserRefName remote = true := by
  obtain ⟨_, _, h⟩ := bind_eq_ok.1 h
  obtain ⟨_, _, h⟩ := bind_eq_ok.1 h
  obtain ⟨_, hremote, _⟩ := bind_eq_ok.1 h
  unfold requireName at hremote
  split at hremote
  · assumption
  · cases hremote

theorem scanRemoteThreads_ok (h : Readable names store)
    (hremote : remote ∈ listRemotesFromStorage store) :
    scanRemoteThreads names store remote =
      .ok (looseRefs store (.remoteThread remote)
        (listRefsRecursive store (remoteThreadDirName remote))) := by
  obtain ⟨thread, hthread⟩ := mem_listRemotes.1 hremote
  unfold scanRemoteThreads
  rw [listRemoteThreadsFromStorage_ok (requireUserRefName_remote (h.names _ hthread))]
  exact scanLoose_ok h fun _ hname => (mem_listRefs (listsKeys_remoteThread remote)).1 hname

theorem mapM_ok_map {f : α → Except ε β} {g : α → β} {xs : List α}
    (h : ∀ x ∈ xs, f x = .ok (g x)) : xs.mapM f = .ok (xs.map g) := by
  induction xs with
  | nil => rfl
  | cons x xs ih =>
    obtain ⟨hx, hxs⟩ := forall_mem_cons.1 h
    rw [mapM_cons, hx, ih hxs]
    rfl

theorem build_ok (h : Readable names store) :
    buildRefSummaryIndexFromStorage names store = .ok (rebuilt store) := by
  have hremotes : (listRemotesFromStorage store).mapM (fun remote => do
      let threads ← scanRemoteThreads names store remote
      return (⟨remote, threads.map (fun (thread : String × StateId) => ⟨thread.1, thread.2⟩)⟩ :
        RemoteSummaryEntry)) =
      .ok (rebuilt store).remotes := by
    apply mapM_ok_map
    intro remote hremote
    rw [scanRemoteThreads_ok h hremote]
    rfl
  unfold buildRefSummaryIndexFromStorage
  rw [scanLooseThreads_ok h, scanLooseMarkers_ok h]
  apply bind_eq_ok.2
  refine ⟨_, rfl, bind_eq_ok.2 ⟨_, rfl, bind_eq_ok.2 ⟨_, hremotes, rfl⟩⟩⟩

theorem lookupBy_rebuiltRemotes (remote : String) :
    lookupBy RemoteSummaryEntry.name remote (rebuilt store).remotes =
      if remote ∈ listRemotesFromStorage store then some ⟨remote, remoteEntries store remote⟩
      else none := by
  have hsorted : SortedBy RemoteSummaryEntry.name (rebuilt store).remotes :=
    pairwise_map.2 (listRefsRecursive_sorted store remoteDirName)
  by_cases hremote : remote ∈ listRemotesFromStorage store
  · rw [if_pos hremote]
    apply (lookupBy_eq_some hsorted).2
    exact ⟨mem_map_of_mem hremote, rfl⟩
  · rw [if_neg hremote]
    cases hlookup : lookupBy RemoteSummaryEntry.name remote (rebuilt store).remotes with
    | none => rfl
    | some entry =>
      obtain ⟨hentry, rfl⟩ := (lookupBy_eq_some hsorted).1 hlookup
      obtain ⟨remote', hmem, rfl⟩ := mem_map.1 hentry
      exact absurd hmem hremote

theorem rebuilt_remoteThreads (remote name : String) :
    (lookupBy RemoteThreadSummaryEntry.name name ((rebuilt store).remoteThreads remote)).map
        RemoteThreadSummaryEntry.toEntry =
      storedEntry store (.remoteThread remote name) := by
  have hget : store.packedRefs.get (.remoteThread remote name) = none := rfl
  unfold RefSummaryIndex.remoteThreads storedEntry
  rw [lookupBy_rebuiltRemotes, hget]
  by_cases hremote : remote ∈ listRemotesFromStorage store
  · rw [if_pos hremote, Option.elim_some, lookupBy_remoteEntries]
    cases looseState store (.remoteThread remote name) <;> rfl
  · rw [if_neg hremote]
    cases hstate : looseState store (.remoteThread remote name) with
    | none => rfl
    | some id => exact absurd (mem_listRemotes.2 ⟨name, mem_entries_of_looseState hstate⟩) hremote

theorem rebuilt_describes (store : RefStore) : Describes store (rebuilt store) where
  sorted := {
    threads := summaryEntries_sorted (looseRefs_sorted store _ _)
    markers := summaryEntries_sorted (looseRefs_sorted store _ _)
    remotes := pairwise_map.2 (listRefsRecursive_sorted store remoteDirName)
    remoteThreads := by
      intro entry hentry
      obtain ⟨remote, _, rfl⟩ := mem_map.1 hentry
      exact remoteEntries_sorted store remote }
  entries := by
    intro key
    cases key with
    | thread name => exact lookupBy_summaryEntries listsKeys_thread (fun _ => rfl) (fun _ => rfl) name
    | marker name => exact lookupBy_summaryEntries listsKeys_marker (fun _ => rfl) (fun _ => rfl) name
    | remoteThread remote name => exact rebuilt_remoteThreads remote name
  remotes := by
    intro remote
    unfold RefSummaryIndex.hasRemote
    rw [lookupBy_rebuiltRemotes, ← mem_listRemotes]
    by_cases hremote : remote ∈ listRemotesFromStorage store
    · rw [if_pos hremote]
      exact iff_of_true rfl hremote
    · rw [if_neg hremote]
      exact iff_of_false nofun hremote

end Build

end Heddle.Refs
