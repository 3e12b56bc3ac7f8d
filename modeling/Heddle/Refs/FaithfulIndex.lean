import Heddle.Refs.Atomicity
import Heddle.Refs.IndexRebuild

namespace Heddle.Refs
open Heddle.Lib List

inductive ListQuery where
  | threads
  | markers
  | remotes
  | remoteThreads (remote : String)
  deriving DecidableEq

def rawList (names : RefNames) (store : RefStore) : ListQuery → Except RefError (List String)
  | .threads => rawListThreads names store
  | .markers => rawListMarkers names store
  | .remotes => .ok (rawListRemotes store)
  | .remoteThreads remote => rawListRemoteThreads names store remote

/-- The query has one answer, whether the index is there or not. -/
def ServedAlike (names : RefNames) (store : RefStore) (summary : RefSummaryIndex)
    (query : ListQuery) : Prop :=
  rawList names { store with summary := some summary } query =
    rawList names { store with summary := none } query

def NoneDeleted (names : RefNames) (store : RefStore) : ListQuery → Prop
  | .remoteThreads remote => names.requireUserRefName remote = true ∧
      ∀ thread, .remoteThread remote thread ∈ store.entries →
        (store.loose (.remoteThread remote thread)).isSome
  | _ => True

section Lists
variable {names : RefNames} {store : RefStore} {summary : RefSummaryIndex}

theorem storedEntry_isSome :
    (storedEntry store key).isSome ↔
      (looseState store key).isSome ∨ (store.packedRefs.get key).isSome := by
  unfold storedEntry
  cases looseState store key with
  | none => simp only [Option.isSome_map, Option.isSome_none, Bool.false_eq_true, false_or]
  | some id => simp only [Option.isSome_some, true_or]

theorem mem_listFromStorage (hkeys : ListsKeys toKey dirName)
    (hpacked : ∀ name, packed.lookup name = store.packedRefs.get (toKey name)) (name : String) :
    name ∈ listFromStorage (looseRefs store toKey (listRefsRecursive store dirName)) packed ↔
      (storedEntry store (toKey name)).isSome := by
  unfold listFromStorage
  rw [mem_sortBy, mem_append, storedEntry_isSome, mem_map, mem_map]
  constructor
  · intro h
    rcases h with ⟨ref, href, rfl⟩ | ⟨entry, hentry, rfl⟩
    · apply Or.inl
      rw [(mem_looseRefs hkeys).1 href]
      rfl
    · apply Or.inr
      rw [← hpacked, (mem_packedOnly.1 hentry).1]
      rfl
  · intro h
    cases hstate : looseState store (toKey name) with
    | some id => exact .inl ⟨(name, id), (mem_looseRefs hkeys).2 hstate, rfl⟩
    | none =>
      rw [hstate] at h
      obtain ⟨id, hid⟩ := Option.isSome_iff_exists.1 (h.resolve_left nofun)
      refine .inr ⟨⟨name, id⟩, mem_packedOnly.2 ⟨(hpacked name).trans hid, fun id' hmem => ?_⟩, rfl⟩
      rw [(mem_looseRefs hkeys).1 hmem] at hstate
      cases hstate

theorem listFromStorage_sorted (h : SortedBy Prod.fst loose) :
    SortedBy id (listFromStorage loose packed) := by
  apply sortBy_sorted
  rw [map_id]
  exact names_nodup h

theorem listFromStorage_eq (hkeys : ListsKeys toKey dirName)
    (hpacked : ∀ name, packed.lookup name = store.packedRefs.get (toKey name))
    (hs : SortedBy RefSummaryEntry.name entries)
    (hentries : ∀ name, (lookupBy RefSummaryEntry.name name entries).map RefSummaryEntry.toEntry =
      storedEntry store (toKey name)) :
    listFromStorage (looseRefs store toKey (listRefsRecursive store dirName)) packed =
      entries.map RefSummaryEntry.name := by
  apply sortedBy_ext_mem (listFromStorage_sorted (looseRefs_sorted store toKey dirName))
    (sortedBy_map_key hs)
  intro name
  rw [mem_listFromStorage hkeys hpacked, ← hentries, Option.isSome_map, lookupBy_isSome]

section
variable (hreadable : Readable names store) (h : Describes store summary)
include hreadable h

theorem listThreads_eq :
    listThreadsFromStorage names store = .ok summary.threadNames := by
  unfold listThreadsFromStorage
  rw [scanLooseThreads_ok hreadable]
  exact congrArg _ (listFromStorage_eq listsKeys_thread (fun _ => rfl) h.sorted.threads
    fun name => h.entries (.thread name))

theorem listMarkers_eq :
    listMarkersFromStorage names store = .ok summary.markerNames := by
  unfold listMarkersFromStorage
  rw [scanLooseMarkers_ok hreadable]
  exact congrArg _ (listFromStorage_eq listsKeys_marker (fun _ => rfl) h.sorted.markers
    fun name => h.entries (.marker name))

end

theorem listRemotes_eq (h : Describes store summary) :
    listRemotesFromStorage store = summary.remoteNames := by
  apply sortedBy_ext_mem (listRefsRecursive_sorted store remoteDirName)
    (sortedBy_map_key h.sorted.remotes)
  intro remote
  exact mem_listRemotes.trans ((h.remotes remote).symm.trans lookupBy_isSome)

theorem remoteThreadNames_eq (remote : String) :
    summary.remoteThreadNames remote =
      (summary.remoteThreads remote).map RemoteThreadSummaryEntry.name := by
  unfold RefSummaryIndex.remoteThreadNames RefSummaryIndex.remoteThreads
  cases lookupBy RemoteSummaryEntry.name remote summary.remotes <;> rfl

theorem mem_remoteThreadNames (h : Describes store summary) :
    thread ∈ summary.remoteThreadNames remote ↔
      (looseState store (.remoteThread remote thread)).isSome := by
  have hentry := congrArg Option.isSome (h.entries (.remoteThread remote thread))
  have hget : store.packedRefs.get (.remoteThread remote thread) = none := rfl
  rw [RefSummaryIndex.entryAt, Option.isSome_map] at hentry
  rw [remoteThreadNames_eq, ← lookupBy_isSome, hentry, storedEntry_isSome, hget]
  simp only [Option.isSome_none, Bool.false_eq_true, or_false]

theorem looseState_isSome (h : Readable names store) :
    (looseState store key).isSome = (store.loose key).isSome := by
  rw [h.states key, Option.isSome_map]

section
variable (hreadable : Readable names store) (h : Describes store summary)
include hreadable h

/-- The storage lists a remote's entry directories, the index only those that hold a value. -/
theorem listRemoteThreads_eq_iff :
    listRemoteThreadsFromStorage names store remote = .ok (summary.remoteThreadNames remote) ↔
      NoneDeleted names store (.remoteThreads remote) := by
  unfold NoneDeleted
  by_cases hname : names.requireUserRefName remote = true
  · rw [listRemoteThreadsFromStorage_ok hname, Except.ok.injEq]
    have hsorted : SortedBy id (summary.remoteThreadNames remote) := by
      rw [remoteThreadNames_eq]
      exact sortedBy_map_key (sorted_remoteThreads h.sorted remote)
    constructor
    · intro heq
      refine ⟨hname, fun thread hthread => ?_⟩
      rw [← looseState_isSome hreadable]
      apply (mem_remoteThreadNames h).1
      rw [← heq]
      exact (mem_listRefs (listsKeys_remoteThread remote)).2 hthread
    · intro hdeleted
      apply sortedBy_ext_mem (listRefsRecursive_sorted store _) hsorted
      intro thread
      rw [mem_listRefs (listsKeys_remoteThread remote), mem_remoteThreadNames h,
        looseState_isSome hreadable]
      exact ⟨hdeleted.2 thread, mem_entries_of_loose⟩
  · have herror : listRemoteThreadsFromStorage names store remote =
        .error (.invalidRefName remote) := by
      unfold listRemoteThreadsFromStorage requireName
      rw [if_neg hname]
      rfl
    rw [herror]
    exact iff_of_false nofun fun hdeleted => hname hdeleted.1

theorem servedAlike_iff
    (query : ListQuery) : ServedAlike names store summary query ↔ NoneDeleted names store query := by
  unfold ServedAlike
  cases query with
  | threads => exact iff_of_true (listThreads_eq hreadable h).symm trivial
  | markers => exact iff_of_true (listMarkers_eq hreadable h).symm trivial
  | remotes => exact iff_of_true (congrArg _ (listRemotes_eq h).symm) trivial
  | remoteThreads remote =>
    have hiff : listRemoteThreadsFromStorage names store remote =
        .ok (summary.remoteThreadNames remote) ↔ NoneDeleted names store (.remoteThreads remote) :=
      listRemoteThreads_eq_iff hreadable h
    exact eq_comm.trans hiff

end

end Lists

section Readable
variable {names : RefNames} {store : RefStore}

theorem readable_of_eq (h : Readable names store) (hentries : left.entries = store.entries)
    (hpacked : left.packed = store.packed) :
    Readable names left := by
  have hloose (key : RefKey) : left.loose key = store.loose key := by
    rw [RefStore.loose, hentries, ← RefStore.loose]
  have hstate (key : RefKey) : looseState left key = looseState store key := by
    rw [looseState, hloose, ← looseState]
  constructor
  · intro key hkey
    exact h.names key (hentries ▸ hkey)
  · intro key
    rw [hloose, hstate]
    exact h.states key
  · intro key hkey
    rw [RefStore.packedRefs, hpacked, ← RefStore.packedRefs] at hkey
    rw [hentries]
    exact h.packed key hkey

theorem looseState_of_loose (h : store.loose key = value.map .state) :
    looseState store key = value := by
  unfold looseState
  rw [h]
  cases value <;> rfl

theorem readable_setFile (value : Option StateId) (h : Readable names store)
    (hname : refPath names key = .ok (.entry key)) :
    Readable names (store.setFile (.entry key) (value.map .state)) := by
  constructor
  · intro key' hkey'
    rcases (AList.mem_insert store.entries).1 hkey' with rfl | hmem
    · exact hname
    · exact h.names key' hmem
  · intro key'
    by_cases hkey : key' = key
    · subst hkey
      have hloose : (store.setFile (.entry key') (value.map .state)).loose key' =
          value.map .state :=
        store.fileAt_setFile_self (.entry key') (value.map .state)
      rw [hloose, looseState_of_loose hloose]
    · have hloose : (store.setFile (.entry key) (value.map .state)).loose key' = store.loose key' :=
        store.fileAt_setFile_ne (fun hpath => hkey (RefPath.entry.inj hpath)) (value.map .state)
      rw [hloose, looseState, hloose, ← looseState]
      exact h.states key'
  · intro key' hkey'
    exact (AList.mem_insert store.entries).2 (.inr (h.packed key' hkey'))

theorem readable_createEntry (h : Readable names store)
    (hname : refPath names key = .ok (.entry key)) :
    Readable names (store.createEntry (.entry key)) := by
  unfold RefStore.createEntry
  by_cases hmem : key ∈ store.entries
  · simp only [if_pos hmem]
    exact h
  · simp only [if_neg hmem]
    exact readable_setFile none h hname

def PlanReadable (names : RefNames) (plan : RefUpdatePlan) : Prop :=
  ∀ key, plan.path = .entry key → refPath names key = .ok (.entry key) ∧
    ∃ value : Option StateId, plan.newContent = value.map .state

theorem readable_prepare (h : Readable names store) (hplan : PlanReadable names plan) :
    Readable names (plan.prepare store) := by
  unfold RefUpdatePlan.prepare
  split
  · cases hpath : plan.path with
    | head => exact h
    | entry key => exact readable_createEntry h (hplan key hpath).1
  · exact h

theorem readable_publish (h : Readable names store) (hplan : PlanReadable names plan) :
    Readable names (plan.publish store) := by
  unfold RefUpdatePlan.publish
  split
  · cases hpath : plan.path with
    | head => exact readable_of_eq h rfl rfl
    | entry key =>
      obtain ⟨hname, value, hvalue⟩ := hplan key hpath
      rw [hvalue]
      exact readable_setFile value h hname
  · exact h

theorem readable_foldl (hstep : ∀ store plan, Readable names store → PlanReadable names plan →
      Readable names (step store plan)) (h : Readable names store) {plans : List RefUpdatePlan}
    (hplans : ∀ plan ∈ plans, PlanReadable names plan) :
    Readable names (plans.foldl step store) := by
  induction plans generalizing store with
  | nil => exact h
  | cons plan plans ih =>
    obtain ⟨hplan, hplans⟩ := forall_mem_cons.1 hplans
    exact ih (hstep store plan h hplan) hplans

theorem readable_published (h : Readable names store)
    (hplans : ∀ plan ∈ plans, PlanReadable names plan) :
    Readable names (published plans store) := by
  have hprepared := readable_foldl (fun _ _ => readable_prepare) h hplans
  have happlied := readable_foldl (fun _ _ => readable_publish) hprepared hplans
  unfold published
  generalize plans.foldl RefUpdatePlan.publish _ = applied at happlied ⊢
  refine ⟨happlied.names, happlied.states, fun key hkey => happlied.packed key ?_⟩
  rw [packedGet_removePacked] at hkey
  split at hkey
  · cases hkey
  · exact hkey

end Readable

section Invariant
variable {names : RefNames} {store : RefStore} {updates : List RefUpdate}

/-- The refs can be read and the index, when there is one, says what the storage does. -/
structure Indexed (names : RefNames) (store : RefStore) : Prop where
  readable : Readable names store
  describes : ∀ summary, store.summary = some summary → Describes store summary

theorem describes_of_eq (h : Describes store summary) (hentries : left.entries = store.entries)
    (hpacked : left.packed = store.packed) :
    Describes left summary := by
  have hstored (key : RefKey) : storedEntry left key = storedEntry store key := by
    unfold storedEntry looseState RefStore.loose RefStore.packedRefs
    rw [hentries, hpacked]
  constructor
  · exact h.sorted
  · intro key
    rw [hstored]
    exact h.entries key
  · rw [hentries]
    exact h.remotes

theorem rebuild_indexed (h : Readable names store) :
    Indexed names (rebuildRefSummaryIndex names store false) := by
  unfold rebuildRefSummaryIndex
  rw [build_ok h]
  constructor
  · exact readable_of_eq h rfl rfl
  · intro summary hsummary
    cases hsummary
    exact describes_of_eq (rebuilt_describes store) rfl rfl

theorem planOf_readable (hholds : ExpectationsHold names store updates) :
    ∀ plan ∈ planned names store updates, PlanReadable names plan := by
  intro plan hplan key hpath
  obtain ⟨update, hmem, rfl⟩ := mem_map.1 hplan
  cases update with
  | head expected new => cases hpath
  | point key' expected new =>
    cases hpath
    obtain ⟨current, hcurrent⟩ := rawGet_of_holds hholds hmem
    exact ⟨refPath_of_rawGet hcurrent, new, rfl⟩

theorem mem_createEntry (store : RefStore) (path : RefPath) :
    key ∈ (store.createEntry path).entries ↔ key ∈ store.entries ∨ path = .entry key := by
  cases path with
  | head => simp only [RefStore.createEntry, reduceCtorEq, or_false]
  | entry key' =>
    simp only [RefStore.createEntry, RefPath.entry.injEq]
    split
    · rename_i hmem
      exact ⟨.inl, fun h => h.elim (fun h => h) fun heq => heq ▸ hmem⟩
    · rw [AList.mem_insert, or_comm, eq_comm]

section
variable (plans : List RefUpdatePlan) (store : RefStore)

theorem mem_prepareAll :
    key ∈ (plans.foldl RefUpdatePlan.prepare store).entries ↔
      key ∈ store.entries ∨ ∃ plan ∈ plans, plan.newContent.isSome ∧ plan.path = .entry key := by
  induction plans generalizing store with
  | nil => simp only [foldl_nil, not_mem_nil, false_and, exists_false, or_false]
  | cons plan plans ih =>
    rw [foldl_cons, ih, exists_mem_cons_iff, ← or_assoc]
    apply or_congr_left
    unfold RefUpdatePlan.prepare
    by_cases hnew : plan.newContent.isSome
    · rw [if_pos hnew, mem_createEntry]
      simp only [hnew, true_and]
    · rw [if_neg hnew]
      simp only [hnew, Bool.false_eq_true, false_and, or_false]

theorem mem_publishAll (h : ∀ plan ∈ plans, plan.newContent.isSome → ∀ key, plan.path = .entry key →
      key ∈ store.entries) :
    key ∈ (plans.foldl RefUpdatePlan.publish store).entries ↔ key ∈ store.entries := by
  induction plans generalizing store with
  | nil => rfl
  | cons plan plans ih =>
    obtain ⟨hplan, hplans⟩ := forall_mem_cons.1 h
    have hstep (key : RefKey) : key ∈ (plan.publish store).entries ↔ key ∈ store.entries := by
      unfold RefUpdatePlan.publish
      split
      · rename_i hfile
        cases hpath : plan.path with
        | head => rfl
        | entry key' =>
          refine (AList.mem_insert store.entries).trans ⟨fun h => h.elim (fun heq => ?_) (fun h => h), .inr⟩
          rw [Bool.or_eq_true, hpath] at hfile
          rcases hfile with hnew | hfile
          · exact heq ▸ hplan hnew key' hpath
          · exact heq ▸ mem_entries_of_loose hfile
      · rfl
    rw [foldl_cons, ih (plan.publish store), hstep]
    intro plan' hplan' hnew key' hpath
    exact (hstep key').2 (hplans plan' hplan' hnew key' hpath)

theorem mem_published :
    key ∈ (published plans store).entries ↔
      key ∈ store.entries ∨ ∃ plan ∈ plans, plan.newContent.isSome ∧ plan.path = .entry key := by
  rw [← mem_prepareAll plans store]
  apply mem_publishAll
  intro plan hplan hnew key' hpath
  exact (mem_prepareAll plans store).2 (.inr ⟨plan, hplan, hnew, hpath⟩)

end

theorem deltas_entry (packed : PackedRefs) (key : RefKey) :
    lastSome (fun delta => if delta.key = key then some (delta.entry packed) else none)
        ((planned names store updates).filterMap RefUpdatePlan.summaryDelta) =
      (lastPoint key updates).map (Option.map fun id => ⟨id, sourceOf packed key⟩) := by
  unfold planned lastPoint
  rw [lastSome_filterMap, lastSome_map, ← lastSome_map_value]
  congr 1
  funext update
  cases update with
  | head expected new => rfl
  | point key' expected new =>
    simp only [Function.comp_apply, planOf, pointPlan, Option.bind_some, updatedPoint]
    by_cases hkey : key' = key
    · subst hkey
      rw [if_pos rfl]
      cases new with
      | none => exact if_pos rfl
      | some id => exact if_pos rfl
    · rw [if_neg hkey]
      cases new with
      | none => exact if_neg hkey
      | some id => exact if_neg hkey

theorem storedEntry_congr (hloose : left.loose key = store.loose key)
    (hpacked : left.packedRefs.get key = store.packedRefs.get key) :
    storedEntry left key = storedEntry store key := by
  have hsource : sourceOf left.packedRefs key = sourceOf store.packedRefs key := by
    unfold sourceOf RefSummarySource.ofPacked
    rw [hpacked]
  unfold storedEntry looseState
  rw [hloose, hpacked, hsource]

theorem storedEntry_published (hholds : ExpectationsHold names store updates) (key : RefKey) :
    storedEntry (published (planned names store updates) store) key =
      ((lastPoint key updates).map (Option.map fun id =>
        ⟨id, sourceOf (published (planned names store updates) store).packedRefs key⟩)).getD
        (storedEntry store key) := by
  have hloose : (published (planned names store updates) store).loose key =
      ((lastPoint key updates).map (Option.map .state)).getD (store.loose key) := by
    rw [← writtenText_point names store]
    exact fileAt_published _ store (.entry key)
  cases hlast : lastPoint key updates with
  | none =>
    rw [hlast] at hloose
    exact storedEntry_congr hloose (packedGet_kept hlast)
  | some new =>
    rw [hlast] at hloose
    rw [storedEntry, looseState_of_loose hloose]
    cases new with
    | some id => rfl
    | none =>
      obtain ⟨expected, hmem⟩ := exists_of_lastPoint hlast
      rw [packedGet_deleted hholds hmem]
      rfl

theorem set_mem_deltas {id : StateId} :
    .set key id ∈ (planned names store updates).filterMap RefUpdatePlan.summaryDelta ↔
      ∃ expected, .point key expected (some id) ∈ updates := by
  rw [mem_filterMap]
  constructor
  · intro h
    obtain ⟨plan, hplan, hdelta⟩ := h
    obtain ⟨update, hmem, rfl⟩ := mem_map.1 hplan
    cases update with
    | head expected new => cases hdelta
    | point key' expected new =>
      cases new with
      | none => cases hdelta
      | some id' =>
        cases hdelta
        exact ⟨expected, hmem⟩
  · intro h
    obtain ⟨expected, hmem⟩ := h
    exact ⟨planOf names store (.point key expected (some id)), mem_map_of_mem hmem, rfl⟩

theorem mem_published_planned :
    key ∈ (published (planned names store updates) store).entries ↔
      key ∈ store.entries ∨ ∃ expected id, .point key expected (some id) ∈ updates := by
  rw [mem_published]
  apply or_congr_right
  constructor
  · intro h
    obtain ⟨plan, hplan, hnew, hpath⟩ := h
    obtain ⟨update, hmem, rfl⟩ := mem_map.1 hplan
    cases update with
    | head expected new => cases hpath
    | point key' expected new =>
      cases hpath
      cases new with
      | none => cases hnew
      | some id => exact ⟨expected, id, hmem⟩
  · intro h
    obtain ⟨expected, id, hmem⟩ := h
    exact ⟨planOf names store (.point key expected (some id)), mem_map_of_mem hmem, rfl, rfl⟩

/-- The deltas of a batch bring the index to the storage that the batch leaves. -/
theorem foldl_deltas_describes (hholds : ExpectationsHold names store updates)
    (h : Describes store summary) :
    Describes (published (planned names store updates) store)
      (((planned names store updates).filterMap RefUpdatePlan.summaryDelta).foldl
        (·.applyDelta (published (planned names store updates) store).packedRefs) summary) := by
  constructor
  · exact foldl_applyDelta_sorted _ _ h.sorted
  · intro key
    rw [entryAt_foldl_applyDelta _ _ h.sorted, deltas_entry, h.entries,
      storedEntry_published hholds]
  · intro remote
    rw [hasRemote_foldl_applyDelta _ _ h.sorted, h.remotes]
    simp only [set_mem_deltas, mem_published_planned, exists_or]
    apply or_congr_right
    constructor
    · intro h
      obtain ⟨thread, id, expected, hmem⟩ := h
      exact ⟨thread, expected, id, hmem⟩
    · intro h
      obtain ⟨thread, expected, id, hmem⟩ := h
      exact ⟨thread, id, expected, hmem⟩

theorem updatedFiles_indexed (hholds : ExpectationsHold names store updates)
    (h : Indexed names store) : Indexed names (updatedFiles (fun _ => false) names store updates) := by
  have hreadable := readable_published h.readable (planOf_readable hholds)
  have hsummary := summary_published (planned names store updates) store
  have hdescribes (summary : RefSummaryIndex) (hs : store.summary = some summary) :=
    foldl_deltas_describes hholds (h.describes summary hs)
  unfold updatedFiles
  split
  · exact h
  · simp only [updateRefSummaryIndexWithDeltas, hsummary]
    generalize (planned names store updates).filterMap RefUpdatePlan.summaryDelta = deltas
      at hdescribes ⊢
    cases hs : store.summary with
    | none => exact rebuild_indexed hreadable
    | some summary =>
      simp only
      split
      · rename_i hempty
        constructor
        · exact hreadable
        · intro summary' hs'
          rw [hsummary, hs] at hs'
          cases hs'
          have hsame := hdescribes summary hs
          rw [isEmpty_iff.1 hempty] at hsame
          exact hsame
      · constructor
        · exact readable_of_eq hreadable rfl rfl
        · intro summary' hs'
          cases hs'
          exact describes_of_eq (hdescribes summary hs) rfl rfl

section
variable (h : Indexed names store)
include h

theorem updateRefs_indexed (updates : List RefUpdate) :
    Indexed names (updateRefs (fun _ => false) names store updates).2 := by
  by_cases hvalid : ExpectationsHold names store updates ∧ PointsOnce updates
  · have hok := (updateRefs_runs singleFault_none hvalid.1 hvalid.2).ok fun _ _ => rfl
    rw [hok]
    exact updatedFiles_indexed hvalid.1 h
  · obtain ⟨error, herror⟩ := updateRefs_rejects (fun _ => false) hvalid
    rw [herror]
    exact h

theorem setRemoteThread_indexed (remote thread : String)
    (state : StateId) : Indexed names (setRemoteThread names store remote thread state).2 := by
  unfold setRemoteThread
  cases hname : refPath names (.remoteThread remote thread) with
  | error error => exact h
  | ok path =>
    cases refPath_ok hname
    exact rebuild_indexed (readable_setFile (some state) (readable_createEntry h.readable hname) hname)

theorem deleteRemoteThread_indexed (remote thread : String) :
    Indexed names (deleteRemoteThread names store remote thread).2 := by
  unfold deleteRemoteThread
  cases hget : rawGet names store (.remoteThread remote thread) with
  | error error => exact h
  | ok state =>
    apply rebuild_indexed
    split
    · exact readable_setFile none h.readable (refPath_of_rawGet hget)
    · exact h.readable

theorem setRef_indexed (key : RefKey) (state : StateId) :
    Indexed names (setRef names store key state).2 := by
  cases key with
  | thread name => exact updateRefs_indexed h _
  | marker name => exact updateRefs_indexed h _
  | remoteThread remote thread => exact setRemoteThread_indexed h remote thread state

theorem deletePacked_indexed (key : RefKey) :
    Indexed names (match rawGet names store key with
      | .error error => ((.error error, store) : Outcome)
      | .ok none => (.ok (), store)
      | .ok (some _) => updateRefs (fun _ => false) names store [.point key .any none]).2 := by
  split
  · exact h
  · exact h
  · exact updateRefs_indexed h _

theorem deleteRef_indexed (key : RefKey) :
    Indexed names (deleteRef names store key).2 := by
  cases key with
  | thread name => exact deletePacked_indexed h (.thread name)
  | marker name => exact deletePacked_indexed h (.marker name)
  | remoteThread remote thread => exact deleteRemoteThread_indexed h remote thread

end

theorem readStateIdAt_some {id : StateId} (h : readStateIdAt names store key = .ok (some id)) :
    (store.loose key).isSome := by
  unfold readStateIdAt at h
  cases hloose : store.loose key with
  | none =>
    rw [hloose] at h
    cases h
  | some text => rfl

theorem packLoose_entries (h : packLoose names store toKey refNames packed = .ok packed')
    (hpacked : ∀ key, (packed.get key).isSome → key ∈ store.entries) :
    ∀ key, (packed'.get key).isSome → key ∈ store.entries := by
  apply foldlM_except_inv (P := fun packed => ∀ key, (packed.get key).isSome → key ∈ store.entries)
    _ h hpacked
  intro packed name packed' hstep hpacked key hkey
  obtain ⟨_, _, hstep⟩ := bind_eq_ok.1 hstep
  obtain ⟨state, hstate, hstep⟩ := bind_eq_ok.1 hstep
  cases state with
  | none =>
    cases hstep
    exact hpacked key hkey
  | some id =>
    cases hstep
    by_cases heq : key = toKey name
    · exact heq ▸ mem_entries_of_loose (readStateIdAt_some hstate)
    · rw [Option.elim_some, PackedRefs.get_set_ne packed heq] at hkey
      exact hpacked key hkey

theorem removeLooseFile_readable (h : Readable names store) (key : RefKey) :
    Readable names (removeLooseFile store key) := by
  unfold removeLooseFile
  split
  · rename_i hloose
    exact readable_setFile none h (h.names key (mem_entries_of_loose hloose))
  · exact h

theorem packRefs_indexed (h : Indexed names store) : Indexed names (packRefs names store).2 := by
  unfold packRefs
  cases hpacked : packedWithLoose names store with
  | error error => exact h
  | ok found =>
    obtain ⟨keys, packed⟩ := found
    obtain ⟨threads, _, hrest⟩ := bind_eq_ok.1 hpacked
    obtain ⟨middle, hthreads, hrest⟩ := bind_eq_ok.1 hrest
    obtain ⟨markers, _, hrest⟩ := bind_eq_ok.1 hrest
    obtain ⟨packed', hmarkers, hrest⟩ := bind_eq_ok.1 hrest
    cases hrest
    have hentries := packLoose_entries hmarkers (packLoose_entries hthreads h.readable.packed)
    apply rebuild_indexed
    split
    · exact h.readable
    · have hsaved : Readable names { store with packed := some packed } :=
        ⟨h.readable.names, h.readable.states, hentries⟩
      generalize { store with packed := some packed } = saved at hsaved
      generalize threads.map RefKey.thread ++ markers.map RefKey.marker = keys
      induction keys generalizing saved with
      | nil => exact hsaved
      | cons key keys ih => exact ih (removeLooseFile saved key) (removeLooseFile_readable hsaved key)

theorem run_indexed (h : Indexed names store) (op : RefOp) : Indexed names (op.run names store).2 := by
  cases op with
  | set key state => exact setRef_indexed h key state
  | delete key => exact deleteRef_indexed h key
  | update updates => exact updateRefs_indexed h updates
  | pack => exact packRefs_indexed h

theorem empty_indexed : Indexed names {} where
  readable := {
    names := fun _ hkey => absurd hkey (AList.notMem_empty _)
    states := fun _ => rfl
    packed := fun key hkey => by cases key <;> cases hkey }
  describes := nofun

theorem runOps_indexed (h : Indexed names store) (ops : List RefOp) :
    Indexed names (runOps names store ops) := by
  unfold runOps
  induction ops generalizing store with
  | nil => exact h
  | cons op ops ih => exact ih (run_indexed h op)

end Invariant

/-- After any run the index, when there is one, is the one that a rebuild makes, and a list is the
same from the index and from the storage, but for the threads of a remote that lost one. -/
theorem runOps_index_faithful (names : RefNames) (ops : List RefOp) :
    ∃ rebuilt, buildRefSummaryIndexFromStorage names (runOps names {} ops) = .ok rebuilt ∧
      ((runOps names {} ops).summary = none ∨ (runOps names {} ops).summary = some rebuilt) ∧
      ∀ query, ServedAlike names (runOps names {} ops) rebuilt query ↔
        NoneDeleted names (runOps names {} ops) query := by
  have hindexed : Indexed names (runOps names {} ops) := runOps_indexed empty_indexed ops
  generalize runOps names {} ops = store at hindexed ⊢
  refine ⟨rebuilt store, build_ok hindexed.readable, ?_,
    servedAlike_iff hindexed.readable (rebuilt_describes store)⟩
  cases hsummary : store.summary with
  | none => exact .inl rfl
  | some summary =>
    rw [(hindexed.describes summary hsummary).unique (rebuilt_describes store)]
    exact .inr rfl

/-- A remote thread that was set and deleted is listed from the storage and not from the index. -/
theorem runOps_remoteThread_lists_differ :
    ¬∀ summary, (runOps plainNames {}
        [.set (.remoteThread "origin" "main") (numberedState 1),
          .delete (.remoteThread "origin" "main")]).summary = some summary →
      ∀ query, ServedAlike plainNames (runOps plainNames {}
        [.set (.remoteThread "origin" "main") (numberedState 1),
          .delete (.remoteThread "origin" "main")]) summary query := by
  intro h
  have hserved := h ⟨[], [], [⟨"origin", []⟩]⟩ (by decide) (.remoteThreads "origin")
  have hlists : (.ok [] : Except RefError (List String)) = .ok ["main"] := hserved
  cases hlists

end Heddle.Refs
