import Heddle.Timeline.PackCrashes
import Heddle.Timeline.Cursor

namespace Heddle.Timeline
open Heddle.Lib List

/-- An index is not written over a pending record of an operation that it leaves out. -/
def Covering : TimelineChange → TimelineDisk → Prop
  | .writeOperationIndex operationIds, disk => Covers operationIds disk
  | _, _ => True

/-- No two packs of different operations have one name. -/
def Collisionless (blake3 : Bytes → ContentHash) (msgpack : TimelineMsgpack) (packName : PackNaming) :
    TimelineChange → TimelineDisk → Prop
  | .packOperations aggressive _, disk => NamesApart blake3 msgpack packName aggressive disk
  | _, _ => True

/-- A rebuild succeeds with every operation whose write had returned when the rebuild began. -/
def RebuildsAll (pool : HandlePool) : Prop :=
  ∀ r ∈ pool.returned, ∀ view, r.result = .rebuilt view → ∃ found, view = some found ∧
    ∀ opId, .wrote opId ∈ r.before → opId ∈ found.operationIds

/-- When an open returns, the index lists the operations that are there and no other. -/
def OpensExact (pool : HandlePool) : Prop :=
  ∀ r ∈ pool.returned, r.result = .opened → ∃ listed, readOperationIndex r.store = some listed ∧
    ∀ opId, opId ∈ listed.getD [] ↔ opId ∈ r.store.canonicalOperationIds

section Contract
variable (blake3 : Bytes → ContentHash) (msgpack : TimelineMsgpack) (packName : PackNaming)

/-- What the calls of handles guarantee to each other, with the index tracked or not. -/
def contract (track : Prop) : Contract TimelineChange TimelineDisk TimelineResult where
  exec := exec blake3 msgpack packName
  may change disk :=
    Collisionless blake3 msgpack packName change disk ∧ (track → Covering change disk)
  inv disk := Intact blake3 msgpack disk ∧ (track → Tracked disk)
  grows := Grows
  kept result disk := ∀ opId, result = .wrote opId → Listed disk opId
  post before result disk :=
    match result with
    | .opened => track → ∃ listed, readOperationIndex disk = some listed ∧
        ∀ opId, opId ∈ listed.getD [] ↔ opId ∈ disk.canonicalOperationIds
    | .wrote opId => Listed disk opId
    | .refused => True
    | .rebuilt view => ∃ found, view = some found ∧
        ∀ opId, .wrote opId ∈ before → opId ∈ found.operationIds
    | .maintained => True
  grows_refl := Grows.refl
  grows_trans := Grows.trans
  kept_grows := fun hkept hgrows opId hresult => hgrows.listed opId (hkept opId hresult)
  kept_of_post := by
    intro before result disk hpost opId hresult
    subst hresult
    exact hpost

end Contract

section Safe
variable {blake3 : Bytes → ContentHash} {msgpack : TimelineMsgpack} {packName : PackNaming}
  {track : Prop} {disk : TimelineDisk} {before : List TimelineResult}

theorem kept_start (h : (contract blake3 msgpack packName track).inv disk) :
    Kept blake3 msgpack track disk disk :=
  ⟨h.1, Grows.refl disk, h.2⟩

theorem rearranged_start (h : (contract blake3 msgpack packName track).inv disk) :
    Rearranged blake3 msgpack track disk disk :=
  ⟨kept_start h, fun _ => Iff.rfl⟩

theorem act_safe (change : TimelineChange)
    (hruns : Script.Runs I P (exec blake3 msgpack packName change) Q) (hp : P disk)
    (hI : ∀ found, I found → Kept blake3 msgpack track disk found) :
    (∀ found, (exec blake3 msgpack packName change).Leaves disk found →
      (contract blake3 msgpack packName track).inv found ∧
        (contract blake3 msgpack packName track).grows disk found) ∧
      Q ((exec blake3 msgpack packName change).final disk) := by
  obtain ⟨hleaves, hfinal⟩ := hruns disk hp
  refine ⟨fun found hfound => ?_, hfinal⟩
  have hkept := hI found (hleaves found hfound)
  exact ⟨⟨hkept.intact, hkept.tracked⟩, hkept.grows⟩

theorem maintain_safe (hruns : ∀ start, Script.Runs (Rearranged blake3 msgpack track start)
      (fun disk => Rearranged blake3 msgpack track start disk ∧
        Collisionless blake3 msgpack packName change disk)
      (exec blake3 msgpack packName change) (Rearranged blake3 msgpack track start)) :
    (contract blake3 msgpack packName track).Safe before (.act change (.done .maintained)) disk := by
  intro found _ hinv hmay
  exact ⟨(act_safe change (hruns found) ⟨rearranged_start hinv, hmay.1⟩ fun _ h => h.kept).1,
    trivial⟩

theorem open_safe (expired : PackInstall → Bool) :
    (contract blake3 msgpack packName track).Safe before (openCall expired) disk := by
  intro found _ hinv _
  have hpacks := @recoverPackInstallIntents_runs blake3 msgpack track found expired
  refine ⟨(act_safe (.recoverPackInstallIntents expired) hpacks (rearranged_start hinv)
    fun _ h => h.kept).1, ?_⟩
  intro found _ hinv _
  have hruns := @recoverJournal_runs blake3 msgpack track found
  obtain ⟨hleaves, hkept, htorn, hpending⟩ := act_safe .recoverOperationIndexJournal
    hruns (kept_start hinv) fun _ h => h
  refine ⟨hleaves, fun htrack => ?_⟩
  obtain ⟨listed, hread, hlisted⟩ := readOperationIndex_of_whole htorn
  refine ⟨listed, hread, fun opId => ?_⟩
  rw [hlisted, mem_canonicalOperationIds]
  constructor
  · exact hkept.intact.listed opId
  · intro hop
    apply (hkept.tracked htrack opId hop).resolve_right
    rw [hpending]
    exact not_mem_nil

theorem write_safe (bytes : Bytes) :
    (contract blake3 msgpack packName track).Safe before (writeCall blake3 msgpack bytes) disk := by
  unfold writeCall
  cases hdecode : TimelineOperationEnvelope.decode msgpack bytes with
  | none => exact trivial
  | some envelope =>
    have hvalid : Valid blake3 msgpack (TimelineOperationId.forBytes blake3 bytes) bytes :=
      ⟨rfl, by rw [hdecode]; rfl⟩
    intro found _ hinv _
    have hruns := @writeOperation_runs blake3 msgpack track found _ _ hvalid
    obtain ⟨hleaves, _, hlisted⟩ :=
      act_safe (.writeOperation _ bytes) hruns (kept_start hinv) fun _ h => h
    exact ⟨hleaves, hlisted⟩

/-! A rebuild -/

section
variable (h : Intact blake3 msgpack disk)
include h

theorem Intact.valid_of_read
    (hread : disk.readOperationBytes blake3 opId = some bytes) : Valid blake3 msgpack opId bytes := by
  obtain ⟨found, hfound, hvalid⟩ := h.read (h.isSome_read.1 (by
    rw [hread]
    rfl))
  rw [hread] at hfound
  obtain rfl := Option.some.inj hfound
  exact hvalid

theorem Intact.readRecord (hop : Canonical disk opId) :
    ∃ record, readTimelineOperationRecord blake3 msgpack disk opId = some record ∧
      record.id = opId := by
  obtain ⟨bytes, hread, hid, hdecode⟩ := h.read hop
  obtain ⟨envelope, henvelope⟩ := Option.isSome_iff_exists.1 hdecode
  refine ⟨⟨opId, envelope⟩, ?_, rfl⟩
  unfold readTimelineOperationRecord
  simp only [hread, bind, Option.bind, hid, ne_eq, not_true_eq_false, if_false, henvelope]

theorem Intact.lastReplayKey (view : TimelineView) :
    ∃ key, lastReplayKeyOf blake3 msgpack disk view = some key := by
  unfold lastReplayKeyOf
  cases view.operationIds.getLast? with
  | none => exact ⟨none, rfl⟩
  | some lastId =>
    cases hread : disk.readOperationBytes blake3 lastId with
    | none => exact ⟨none, by simp only [hread]⟩
    | some bytes =>
      obtain ⟨envelope, henvelope⟩ := Option.isSome_iff_exists.1 (h.valid_of_read hread).2
      exact ⟨_, by simp only [hread, henvelope, Option.map_some]; rfl⟩

end

theorem records_safe {next : List TimelineOperationRecord → HandleCall}
    (hinv : (contract blake3 msgpack packName track).inv disk)
    (hids : ∀ opId ∈ ids, Canonical disk opId)
    (hnext : ∀ found read, Grows disk found → (contract blake3 msgpack packName track).inv found →
      read.map (·.id) = ids →
      (contract blake3 msgpack packName track).Safe before (next (records ++ read)) found) :
    (contract blake3 msgpack packName track).Safe before
      (recordsCall blake3 msgpack next ids records) disk := by
  induction ids generalizing records disk with
  | nil =>
    have h := hnext disk [] (Grows.refl disk) hinv rfl
    rw [append_nil] at h
    exact h
  | cons opId ids ih =>
    obtain ⟨hop, hrest⟩ := forall_mem_cons.1 hids
    intro found hgrows hfound
    obtain ⟨record, hread, hid⟩ := hfound.1.readRecord (hgrows.canonical opId hop)
    simp only [hread]
    apply ih hfound fun other hother => hgrows.canonical other (hrest other hother)
    intro later read hlater hinv' hmap
    rw [append_assoc]
    apply hnext later _ (hgrows.trans hlater) hinv'
    rw [singleton_append, map_cons, hmap, hid]

/-- The view that a rebuild returns has what was written before. -/
def Complete (before : List TimelineResult) (view : TimelineView) : Prop :=
  ∀ opId, .wrote opId ∈ before → opId ∈ view.operationIds

theorem derivedCheckpoint_safe (hids : ∀ opId ∈ processed, Canonical disk opId)
    (hview : ∀ opId ∈ processed, opId ∈ view.operationIds) (hbefore : Complete before view) :
    (contract blake3 msgpack packName track).Safe before
      (derivedCheckpointCall blake3 msgpack processed view) disk := by
  intro found hgrows hinv hmay
  have hindex := @writeOperationIndex_runs blake3 msgpack track found processed
  refine ⟨(act_safe (.writeOperationIndex processed) hindex
    ⟨kept_start hinv, fun opId hop => hgrows.canonical opId (hids opId hop), hmay.2⟩
    fun _ h => h).1, ?_⟩
  intro found _ hinv
  obtain ⟨key, hkey⟩ := hinv.1.lastReplayKey view
  simp only [hkey]
  intro found _ hinv _
  have hcheckpoint := @writeViewCheckpoint_runs blake3 msgpack track found
    ⟨timelineViewCheckpointSchemaVersion, processed, key, view⟩ hview
  exact ⟨(act_safe (.writeViewCheckpoint _) hcheckpoint (kept_start hinv) fun _ h => h).1,
    view, rfl, hbefore⟩

theorem mem_replay_sorted {view : TimelineView} :
    opId ∈ (view.replay (sortOperationRecords records)).operationIds ↔
      opId ∈ view.operationIds ∨ opId ∈ records.map (·.id) := by
  rw [TimelineView.operationIds_replay, mem_append, mem_map, mem_map]
  apply or_congr Iff.rfl
  exact exists_congr fun record => and_congr mem_sortBy Iff.rfl

theorem fromScratch_safe (hinv : (contract blake3 msgpack packName track).inv disk)
    (hids : ∀ opId ∈ ids, Canonical disk opId)
    (hbefore : ∀ opId, .wrote opId ∈ before → opId ∈ ids) :
    (contract blake3 msgpack packName track).Safe before
      (fromScratchCall blake3 msgpack ids) disk := by
  apply records_safe hinv hids
  intro found read hgrows _ hmap
  have hview : ∀ opId ∈ ids,
      opId ∈ (TimelineView.empty.replay (sortOperationRecords read)).operationIds := by
    intro opId hop
    rw [mem_replay_sorted, hmap]
    exact .inr hop
  apply derivedCheckpoint_safe
  · exact fun opId hop => hgrows.canonical opId (hids opId hop)
  · exact hview
  · exact fun opId hop => hview opId (hbefore opId hop)

theorem fromCheckpoint_safe (hinv : (contract blake3 msgpack packName track).inv disk)
    (hids : ∀ opId ∈ ids, Canonical disk opId)
    (hbefore : ∀ opId, .wrote opId ∈ before → opId ∈ ids)
    (hfront : checkpoint.processedOperationIds <+: ids)
    (hview : ∀ opId ∈ checkpoint.processedOperationIds, opId ∈ checkpoint.view.operationIds) :
    (contract blake3 msgpack packName track).Safe before
      (fromCheckpointCall blake3 msgpack ids checkpoint) disk := by
  obtain ⟨newIds, rfl⟩ := hfront
  unfold fromCheckpointCall
  rw [drop_left]
  simp only
  split
  case isTrue hempty =>
    refine ⟨checkpoint.view, rfl, fun opId hop => hview opId ?_⟩
    have hmem := hbefore opId hop
    rw [isEmpty_iff.1 hempty, append_nil] at hmem
    exact hmem
  case isFalse =>
    apply records_safe hinv fun opId hop => hids opId (mem_append_right _ hop)
    intro found read hgrows hinv' hmap
    have hids' : ∀ opId ∈ checkpoint.processedOperationIds ++ newIds, Canonical found opId :=
      fun opId hop => hgrows.canonical opId (hids opId hop)
    have hnew : ∀ opId ∈ checkpoint.processedOperationIds ++ newIds,
        opId ∈ (checkpoint.view.replay (sortOperationRecords read)).operationIds := by
      intro opId hop
      rw [mem_replay_sorted, hmap]
      exact (mem_append.1 hop).imp (hview opId) id
    have hcomplete : Complete before (checkpoint.view.replay (sortOperationRecords read)) :=
      fun opId hop => hnew opId (hbefore opId hop)
    rw [nil_append]
    split
    · split
      · exact derivedCheckpoint_safe hids' hnew hcomplete
      · exact ⟨_, rfl, hcomplete⟩
    · exact fromScratch_safe hinv' hids' hbefore

theorem whole_of_read (h : readOperationIndex disk = some listed) :
    ∀ journal ∈ disk.journal, journal.torn = 0 := by
  intro journal hjournal
  obtain ⟨journaled, hread, _⟩ := Option.bind_eq_some_iff.1 h
  rw [hjournal] at hread
  unfold readOperationIndexJournal at hread
  by_contra htorn
  simp only [htorn, if_false] at hread
  cases hread

theorem ids_safe {next : List TimelineOperationId → HandleCall} (hbefore : ∀ opId, .wrote opId ∈ before → Listed disk opId)
    (hnext : ∀ ids found, Grows disk found → (contract blake3 msgpack packName track).inv found →
      (∀ opId ∈ ids, Canonical found opId) → (∀ opId, .wrote opId ∈ before → opId ∈ ids) →
      (contract blake3 msgpack packName track).Safe before (next ids) found) :
    (contract blake3 msgpack packName track).Safe before (idsCall next) disk := by
  intro found hgrows hinv
  beta_reduce
  split
  case h_1 ids hread =>
    obtain ⟨listed, hlisting, hlisted⟩ := readOperationIndex_of_whole (whole_of_read hread)
    rw [hread] at hlisting
    obtain rfl := Option.some.inj hlisting
    apply hnext ids found hgrows hinv
    · exact fun opId hop => hinv.1.listed opId ((hlisted opId).1 hop)
    · exact fun opId hop => (hlisted opId).2 (hgrows.listed opId (hbefore opId hop))
  case h_2 =>
    intro reread hreread hinv later hlater hinv' hmay
    have hids : ∀ opId ∈ reread.canonicalOperationIds, Canonical later opId :=
      fun opId hop => hlater.canonical opId (mem_canonicalOperationIds.1 hop)
    have hindex := @writeOperationIndex_runs blake3 msgpack track later
      reread.canonicalOperationIds
    obtain ⟨hleaves, hkept⟩ := act_safe (.writeOperationIndex reread.canonicalOperationIds) hindex
      ⟨kept_start hinv', hids, hmay.2⟩ fun _ h => h
    refine ⟨hleaves, hnext _ _ ?_ ⟨hkept.intact, hkept.tracked⟩ ?_ ?_⟩
    · exact ((hgrows.trans hreread).trans hlater).trans hkept.grows
    · exact fun opId hop => hkept.grows.canonical opId (hids opId hop)
    · intro opId hop
      apply mem_canonicalOperationIds.2
      exact hinv.1.listed opId ((hgrows.trans hreread).listed opId (hbefore opId hop))

theorem rebuild_safe (hbefore : ∀ opId, .wrote opId ∈ before → Listed disk opId) :
    (contract blake3 msgpack packName track).Safe before (rebuildCall blake3 msgpack) disk := by
  apply ids_safe hbefore
  intro ids found _ hinv hids hall later hlater hinv'
  have hids' : ∀ opId ∈ ids, Canonical later opId :=
    fun opId hop => hlater.canonical opId (hids opId hop)
  cases hcheckpoint : readTimelineViewCheckpoint later with
  | none =>
    simp only [hcheckpoint]
    exact fromScratch_safe hinv' hids' hall
  | some checkpoint =>
    have hfile : checkpoint ∈ later.viewCheckpoint :=
      (Option.filter_eq_some_iff.1 hcheckpoint).1
    simp only [hcheckpoint]
    split
    case isTrue hfront =>
      exact fromCheckpoint_safe hinv' hids' hall (checkpointProcessedPrefixMatches_iff.1 hfront)
        (hinv'.1.checkpoint checkpoint hfile)
    case isFalse => exact fromScratch_safe hinv' hids' hall

end Safe

section Main
variable {blake3 : Bytes → ContentHash} {msgpack : TimelineMsgpack} {packName : PackNaming}

theorem intact_empty : Intact blake3 msgpack .empty where
  loose := fun _ _ h => nomatch h
  packed := fun _ _ h => nomatch h
  listed := by
    rintro opId (h | h)
    · exact absurd h not_mem_nil
    · exact absurd h not_mem_nil
  checkpoint := fun _ h => nomatch h

theorem tracked_empty : Tracked .empty := by
  rintro opId (h | ⟨op, hop, _⟩)
  · exact absurd h Bool.false_ne_true
  · exact absurd hop not_mem_nil

theorem pool_safe (track : Prop)
    (h : Pool.Reaches (exec blake3 msgpack packName) (IsHandleCall blake3 msgpack)
      (fun change disk =>
        Collisionless blake3 msgpack packName change disk ∧ (track → Covering change disk))
      .empty pool) :
    (contract blake3 msgpack packName track).PoolSafe pool := by
  apply @Contract.poolSafe_of_reaches _ _ _ (contract blake3 msgpack packName track) _ _ _
    ⟨intact_empty, fun _ => tracked_empty⟩ _ h
  intro call hcall before disk _ hbefore
  cases hcall with
  | «open» expired => exact open_safe expired
  | write bytes => exact write_safe bytes
  | rebuild => exact rebuild_safe fun opId hop => hbefore _ hop opId rfl
  | pack aggressive installId => exact maintain_safe fun _ => packOperations_runs aggressive installId
  | pruneLoose =>
    exact maintain_safe fun _ => pruneLooseOperations_runs.weaken (fun _ h => h.1) fun _ h => h
  | pruneUnpaired =>
    exact maintain_safe fun _ => pruneUnpairedPacks_runs.weaken (fun _ h => h.1) fun _ h => h

/-- Whatever the calls and crashes, no rebuild misses a write that had returned. Every open finds
exactly the operations that are there when no index is written over a pending record. -/
theorem handles_lose_nothing (blake3 : Bytes → ContentHash) (msgpack : TimelineMsgpack)
    (packName : PackNaming) (pool : HandlePool) :
    (Pool.Reaches (exec blake3 msgpack packName) (IsHandleCall blake3 msgpack)
        (Collisionless blake3 msgpack packName) .empty pool → RebuildsAll pool) ∧
      (Pool.Reaches (exec blake3 msgpack packName) (IsHandleCall blake3 msgpack)
        (fun change disk =>
          Collisionless blake3 msgpack packName change disk ∧ Covering change disk)
        .empty pool → RebuildsAll pool ∧ OpensExact pool) := by
  have hrebuilds : ∀ {track : Prop}, (contract blake3 msgpack packName track).PoolSafe pool →
      RebuildsAll pool := by
    rintro track hsafe ⟨before, store, result⟩ hr view hresult
    obtain rfl : result = .rebuilt view := hresult
    exact (hsafe.returned _ hr).1
  constructor
  · intro h
    exact hrebuilds (pool_safe False (h.mono fun _ _ hmay => ⟨hmay, False.elim⟩))
  · intro h
    have hsafe := pool_safe True (h.mono fun _ _ hmay => ⟨hmay.1, fun _ => hmay.2⟩)
    refine ⟨hrebuilds hsafe, ?_⟩
    rintro ⟨before, store, result⟩ hr hresult
    obtain rfl : result = .opened := hresult
    exact (hsafe.returned _ hr).1 trivial

end Main

section Example

def onePack : PackNaming := fun _ _ => "pack"

def writtenId : TimelineOperationId := TimelineOperationId.forBytes byteHash [1]

/-- The store when the writer of an operation dies before it commits the record. -/
def uncommitted : TimelineDisk :=
  { TimelineDisk.empty with
    ops := Table.empty.insert writtenId [1]
    journal := some ⟨[(.pending, writtenId)], 0⟩ }

theorem leaves_uncommitted :
    (writeOperation byteHash writtenId [1]).Leaves .empty uncommitted := by
  right
  apply mem_of_getElem? (i := 3)
  rfl

/-- The next rebuild of a handle that was open already drops the pending record, and an open after
it does not find the operation. -/
theorem rebuild_drops_pending :
    ¬∀ (blake3 : Bytes → ContentHash) (msgpack : TimelineMsgpack) (packName : PackNaming)
      (pool : HandlePool),
      Pool.Reaches (exec blake3 msgpack packName) (IsHandleCall blake3 msgpack)
        (Collisionless blake3 msgpack packName) .empty pool → RebuildsAll pool ∧ OpensExact pool := by
  intro hclaim
  have hinit : Pool.Reaches (exec byteHash byteMsgpack onePack) (IsHandleCall byteHash byteMsgpack)
      (Collisionless byteHash byteMsgpack onePack) .empty (.init .empty) := .init
  have hstart := hinit.step (.start (.open fun _ => false))
  have hpacks := hstart.step (.act (rfl : _ = [] ++ _ :: []) trivial)
  have hopened := hpacks.step (.act (rfl : _ = [] ++ _ :: []) trivial)
  have hwrite := hopened.step (.start (.write [1]))
  have hcut := hwrite.step (.cut (rfl : _ = [] ++ _ :: []) trivial leaves_uncommitted)
  have hrebuild := hcut.step (.start .rebuild)
  have hids := hrebuild.step (.look (rfl : _ = [] ++ _ :: []))
  have hcheckpoint := hids.step (.look (rfl : _ = [] ++ _ :: []))
  have hindex := hcheckpoint.step (.act (rfl : _ = [] ++ _ :: []) trivial)
  have hagain := hindex.step (.start (.open fun _ => false))
  have hpacks' := hagain.step (.act (rfl : _ = [_] ++ _ :: []) trivial)
  have hopened' := hpacks'.step (.act (rfl : _ = [_] ++ _ :: []) trivial)
  have hexact := (hclaim byteHash byteMsgpack onePack _ hopened').2
  obtain ⟨listed, hread, hlisted⟩ := hexact _ (mem_of_getElem? (i := 1) rfl) rfl
  obtain rfl : some [] = listed := Option.some.inj hread
  exact absurd ((hlisted writtenId).2 (by decide +kernel)) not_mem_nil

/-- When the next handle recovers the record first, the operation is listed and rebuilt. -/
theorem handles_lose_nothing_recovered : ∃ pool : HandlePool,
    (∃ r ∈ pool.returned, r.result = .opened ∧
      readOperationIndex r.store = some (some [writtenId])) ∧
    (∃ r ∈ pool.returned, ∃ view, r.result = .rebuilt (some view) ∧
      view.operationIds = [writtenId]) ∧
    RebuildsAll pool ∧ OpensExact pool := by
  have hinit : Pool.Reaches (exec byteHash byteMsgpack onePack) (IsHandleCall byteHash byteMsgpack)
      (fun change disk =>
        Collisionless byteHash byteMsgpack onePack change disk ∧ Covering change disk)
      .empty (.init .empty) := .init
  have hwrite := hinit.step (.start (.write [1]))
  have hcut := hwrite.step (.cut (rfl : _ = [] ++ _ :: []) ⟨trivial, trivial⟩ leaves_uncommitted)
  have hstart := hcut.step (.start (.open fun _ => false))
  have hpacks := hstart.step (.act (rfl : _ = [] ++ _ :: []) ⟨trivial, trivial⟩)
  have hopened := hpacks.step (.act (rfl : _ = [] ++ _ :: []) ⟨trivial, trivial⟩)
  have hrebuild := hopened.step (.start .rebuild)
  have hids := hrebuild.step (.look (rfl : _ = [] ++ _ :: []))
  have hcheckpoint := hids.step (.look (rfl : _ = [] ++ _ :: []))
  have hrecord := hcheckpoint.step (.look (rfl : _ = [] ++ _ :: []))
  have hindex := hrecord.step (.act (rfl : _ = [] ++ _ :: [])
    ⟨trivial, fun _ hpending => absurd hpending not_mem_nil⟩)
  have hkey := hindex.step (.look (rfl : _ = [] ++ _ :: []))
  have hrebuilt := hkey.step (.act (rfl : _ = [] ++ _ :: []) ⟨trivial, trivial⟩)
  have h := (handles_lose_nothing byteHash byteMsgpack onePack _).2 hrebuilt
  exact ⟨_, ⟨_, mem_of_getElem? (i := 0) rfl, rfl, rfl⟩,
    ⟨_, mem_of_getElem? (i := 1) rfl, _, rfl, rfl⟩, h⟩

end Example

end Heddle.Timeline
