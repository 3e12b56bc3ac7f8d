import Heddle.Timeline.Rebuild

namespace Heddle.Timeline
open Heddle.Lib List Option

section Prefix

theorem checkpointProcessedPrefixMatches_iff :
    checkpointProcessedPrefixMatches xs ys = true ↔ xs <+: ys := by
  induction xs generalizing ys with
  | nil =>
    constructor
    · exact fun _ => nil_prefix
    · exact fun _ => rfl
  | cons x xs ih =>
    cases ys with
    | nil =>
      constructor
      · intro h
        cases h
      · intro h
        exact absurd (prefix_nil.1 h) nofun
    | cons y ys =>
      rw [cons_prefix_cons, ← ih]
      simp only [checkpointProcessedPrefixMatches, length_cons, zip_cons_cons,
        all_cons, Bool.and_eq_true, decide_eq_true_eq, Nat.add_le_add_iff_right]
      tauto

end Prefix

namespace TimelineView

theorem operationIds_applyOperation (view : TimelineView) (id : TimelineOperationId)
    (envelope : TimelineOperationEnvelope) :
    (view.applyOperation id envelope).operationIds = view.operationIds := by
  unfold applyOperation
  split
  · rfl
  · rfl
  · rfl
  · rfl

theorem operationIds_replay (view : TimelineView) (records : List TimelineOperationRecord) :
    (view.replay records).operationIds = view.operationIds ++ records.map (·.id) := by
  induction records generalizing view with
  | nil => exact (append_nil _).symm
  | cons record records ih =>
    have hcons : view.replay (record :: records) = (view.push record).replay records := rfl
    rw [hcons, ih, push, operationIds_applyOperation, map_cons, append_assoc,
      singleton_append]

theorem replay_append (view : TimelineView) (first second : List TimelineOperationRecord) :
    view.replay (first ++ second) = (view.replay first).replay second :=
  foldl_append

end TimelineView

section Sorting

theorem nodup_replayKeys {records : List TimelineOperationRecord}
    (h : (records.map (·.id)).Nodup) : (records.map operationReplayKey).Nodup := by
  apply List.Nodup.map_on
  · intro a ha b hb hkey
    exact inj_on_of_nodup_map h ha hb (operationReplayKey_id hkey)
  · exact h.of_map _

theorem le_getLast_of_sorted (hsorted : SortedBy operationReplayKey records)
    (hlast : records.getLast? = some last) (hrecord : record ∈ records) :
    operationReplayKey record ≤ operationReplayKey last := by
  obtain ⟨front, rfl⟩ := getLast?_eq_some_iff.1 hlast
  rcases mem_append.1 hrecord with h | h
  · exact ((pairwise_append.1 hsorted).2.2 _ h _ (mem_singleton_self _)).le
  · rw [mem_singleton.1 h]

theorem head_le_of_sorted (hsorted : SortedBy operationReplayKey records)
    (hhead : records.head? = some first) (hrecord : record ∈ records) :
    operationReplayKey first ≤ operationReplayKey record := by
  obtain ⟨rest, rfl⟩ := head?_eq_some_iff.1 hhead
  rcases mem_cons.1 hrecord with rfl | h
  · exact le_rfl
  · exact ((sortedBy_cons.1 hsorted).1 _ h).le

theorem sort_append_of_ordered (hids : ((old ++ new).map (·.id)).Nodup)
    (hordered : incrementalReplayIsOrdered ((sortOperationRecords old).getLast?.map operationReplayKey)
      (sortOperationRecords new) = true) :
    sortOperationRecords (old ++ new) = sortOperationRecords old ++ sortOperationRecords new := by
  have hkeys := nodup_replayKeys hids
  have hsplit := hkeys
  rw [map_append, nodup_append] at hsplit
  apply sortBy_append hkeys
  intro a ha b hb
  have ha' : a ∈ sortOperationRecords old := mem_sortBy.2 ha
  have hb' : b ∈ sortOperationRecords new := mem_sortBy.2 hb
  cases hlast : (sortOperationRecords old).getLast? with
  | none => exact absurd (getLast?_eq_none_iff.1 hlast ▸ ha') not_mem_nil
  | some last =>
    cases hhead : (sortOperationRecords new).head? with
    | none => exact absurd (head?_eq_none_iff.1 hhead ▸ hb') not_mem_nil
    | some first =>
      rw [hlast] at hordered
      simp only [incrementalReplayIsOrdered, map_some, hhead, all_some,
        decide_eq_true_eq] at hordered
      exact ((le_getLast_of_sorted (sortBy_sorted hsplit.1) hlast ha').trans hordered).trans
        (head_le_of_sorted (sortBy_sorted hsplit.2.1) hhead hb')

end Sorting

def committedIds (journal : Option OperationIndexJournal) : List TimelineOperationId :=
  (journal.map fun journal => (resolveOperationIndexJournalRecords journal.records).1).getD []

def Settled (journal : Option OperationIndexJournal) : Prop :=
  ∀ found ∈ journal, found.torn = 0 ∧ (resolveOperationIndexJournalRecords found.records).2 = []

section Sound
variable (blake3 : Bytes → ContentHash) (msgpack : TimelineMsgpack)

def Stores (disk : TimelineDisk) (record : TimelineOperationRecord) : Prop :=
  ∃ bytes, disk.ops.lookup record.id = some bytes ∧
    TimelineOperationEnvelope.decode msgpack bytes = some record.envelope

/-- The checkpoint holds the replay of the operations that it lists. -/
def Summarizes (disk : TimelineDisk) (checkpoint : TimelineViewCheckpoint) : Prop :=
  ∃ records, readTimelineOperationRecordsById blake3 msgpack disk checkpoint.processedOperationIds =
      some records ∧ checkpoint.processedOperationIds.Nodup ∧
    checkpoint.view = TimelineView.empty.replay (sortOperationRecords records) ∧
    checkpoint.lastReplayKey = (sortOperationRecords records).getLast?.map operationReplayKey

/-- What holds of a store between two calls. -/
structure Sound (disk : TimelineDisk) : Prop where
  unpacked : disk.packIndexes = []
  intact : ∀ id bytes, disk.ops.lookup id = some bytes →
    TimelineOperationId.forBytes blake3 bytes = id ∧
      ∃ envelope, TimelineOperationEnvelope.decode msgpack bytes = some envelope
  settled : Settled disk.journal
  listed : ∀ id, id ∈ disk.operationIndex.getD [] ∨ id ∈ committedIds disk.journal ↔
    (disk.ops.lookup id).isSome
  checkpoint : ∀ checkpoint ∈ disk.viewCheckpoint, Summarizes blake3 msgpack disk checkpoint

variable {blake3 msgpack}

section
variable {disk : TimelineDisk} (h : disk.packIndexes = [])
include h

theorem packedOperations_of_unpacked :
    disk.packedOperations = [] := by
  unfold TimelineDisk.packedOperations
  rw [h]
  simp only [not_mem_nil, decide_false, filter_false, flatMap_nil]

theorem readOperationBytes_of_unpacked
    (id : TimelineOperationId) : disk.readOperationBytes blake3 id = disk.ops.lookup id := by
  unfold TimelineDisk.readOperationBytes TimelineDisk.readPackedOperation
  rw [packedOperations_of_unpacked h]
  exact or_none

theorem canonicalOperationIds_of_unpacked
    (hops : ∀ opId, disk.ops.lookup opId = none) : disk.canonicalOperationIds = [] := by
  have hentries : disk.ops.entries = [] := by
    apply eq_nil_iff_forall_not_mem.2
    intro entry hentry
    have hlookup := Table.lookup_eq_some.2 hentry
    rw [hops] at hlookup
    cases hlookup
  unfold TimelineDisk.canonicalOperationIds
  rw [packedOperations_of_unpacked h, hentries]
  rfl

end

theorem readRecord_iff (h : Sound blake3 msgpack disk) :
    readTimelineOperationRecord blake3 msgpack disk opId = some record ↔
      record.id = opId ∧ Stores msgpack disk record := by
  unfold readTimelineOperationRecord Stores
  rw [readOperationBytes_of_unpacked h.unpacked]
  constructor
  · intro hread
    obtain ⟨bytes, hbytes, hread⟩ := bind_eq_some_iff.1 hread
    rw [if_neg (not_not.2 (h.intact opId bytes hbytes).1)] at hread
    obtain ⟨envelope, henvelope, hread⟩ := bind_eq_some_iff.1 hread
    obtain rfl := some.inj hread
    exact ⟨rfl, bytes, hbytes, henvelope⟩
  · rintro ⟨rfl, bytes, hbytes, henvelope⟩
    rw [hbytes]
    simp only [bind, Option.bind, henvelope, (h.intact _ _ hbytes).1, ne_eq, not_true_eq_false,
      if_false]

theorem exists_record (h : Sound blake3 msgpack disk) (hstored : (disk.ops.lookup opId).isSome) :
    ∃ record, readTimelineOperationRecord blake3 msgpack disk opId = some record := by
  obtain ⟨bytes, hbytes⟩ := isSome_iff_exists.1 hstored
  obtain ⟨_, envelope, henvelope⟩ := h.intact opId bytes hbytes
  exact ⟨⟨opId, envelope⟩, (readRecord_iff h).2 ⟨rfl, bytes, hbytes, henvelope⟩⟩

theorem readRecords_cons :
    readTimelineOperationRecordsById blake3 msgpack disk (opId :: ids) =
      (readTimelineOperationRecord blake3 msgpack disk opId).bind fun record =>
        (readTimelineOperationRecordsById blake3 msgpack disk ids).map (record :: ·) := by
  unfold readTimelineOperationRecordsById
  rw [mapM_cons]
  cases readTimelineOperationRecord blake3 msgpack disk opId with
  | none => rfl
  | some record =>
    cases ids.mapM (readTimelineOperationRecord blake3 msgpack disk) with
    | none => rfl
    | some records => rfl

section
variable (h : Sound blake3 msgpack disk)
include h

theorem readRecords_iff :
    readTimelineOperationRecordsById blake3 msgpack disk ids = some records ↔
      records.map (·.id) = ids ∧ ∀ record ∈ records, Stores msgpack disk record := by
  induction ids generalizing records with
  | nil =>
    constructor
    · intro hread
      obtain rfl := some.inj hread
      exact ⟨rfl, fun _ hmem => absurd hmem not_mem_nil⟩
    · intro hread
      rw [map_eq_nil_iff.1 hread.1]
      rfl
  | cons opId ids ih =>
    rw [readRecords_cons, bind_eq_some_iff]
    constructor
    · rintro ⟨record, hrecord, hmap⟩
      obtain ⟨rest, hrest, rfl⟩ := map_eq_some_iff.1 hmap
      obtain ⟨rfl, hstores⟩ := (readRecord_iff h).1 hrecord
      obtain ⟨hids, hall⟩ := ih.1 hrest
      subst hids
      exact ⟨rfl, forall_mem_cons.2 ⟨hstores, hall⟩⟩
    · rintro ⟨hids, hall⟩
      cases records with
      | nil => cases hids
      | cons record rest =>
        obtain ⟨hid, hrest⟩ := List.cons.inj hids
        obtain ⟨hstores, hall⟩ := forall_mem_cons.1 hall
        exact ⟨record, (readRecord_iff h).2 ⟨hid, hstores⟩,
          map_eq_some_iff.2 ⟨rest, ih.2 ⟨hrest, hall⟩, rfl⟩⟩

theorem exists_records (hids : ∀ opId ∈ ids, (disk.ops.lookup opId).isSome) :
    ∃ records, readTimelineOperationRecordsById blake3 msgpack disk ids = some records := by
  induction ids with
  | nil => exact ⟨[], rfl⟩
  | cons opId ids ih =>
    obtain ⟨hhead, htail⟩ := forall_mem_cons.1 hids
    obtain ⟨record, hrecord⟩ := exists_record h hhead
    obtain ⟨rest, hrest⟩ := ih htail
    exact ⟨record :: rest, by rw [readRecords_cons, hrecord, hrest]; rfl⟩

theorem mem_records_iff
    (hread : readTimelineOperationRecordsById blake3 msgpack disk ids = some records) :
    record ∈ records ↔ record.id ∈ ids ∧ Stores msgpack disk record := by
  obtain ⟨rfl, hall⟩ := (readRecords_iff h).1 hread
  constructor
  · intro hmem
    exact ⟨mem_map_of_mem hmem, hall record hmem⟩
  · rintro ⟨hid, bytes, hbytes, henvelope⟩
    obtain ⟨found, hfound, hid⟩ := mem_map.1 hid
    obtain ⟨bytes', hbytes', henvelope'⟩ := hall found hfound
    rw [hid, hbytes] at hbytes'
    obtain rfl := some.inj hbytes'
    rw [henvelope] at henvelope'
    have henv := some.inj henvelope'
    have heq : found = record := by
      cases found
      cases record
      cases hid
      cases henv
      rfl
    exact heq ▸ hfound

end

theorem Summarizes.mono
    (hread : ∀ opId record, readTimelineOperationRecord blake3 msgpack disk opId = some record →
      readTimelineOperationRecord blake3 msgpack disk' opId = some record)
    (h : Summarizes blake3 msgpack disk checkpoint) :
    Summarizes blake3 msgpack disk' checkpoint := by
  obtain ⟨records, hrecords, hrest⟩ := h
  refine ⟨records, ?_, hrest⟩
  clear hrest
  revert records
  induction checkpoint.processedOperationIds with
  | nil => exact fun records h => h
  | cons opId ids ih =>
    intro records hrecords
    rw [readRecords_cons, bind_eq_some_iff] at hrecords ⊢
    obtain ⟨record, hrecord, hmap⟩ := hrecords
    obtain ⟨rest, hrest, rfl⟩ := map_eq_some_iff.1 hmap
    exact ⟨record, hread _ _ hrecord, map_eq_some_iff.2 ⟨rest, ih rest hrest, rfl⟩⟩

theorem lastReplayKeyOf_replay (h : Sound blake3 msgpack disk)
    (hread : readTimelineOperationRecordsById blake3 msgpack disk ids = some records) :
    lastReplayKeyOf blake3 msgpack disk (TimelineView.empty.replay (sortOperationRecords records)) =
      some ((sortOperationRecords records).getLast?.map operationReplayKey) := by
  unfold lastReplayKeyOf
  rw [TimelineView.operationIds_replay]
  have hempty : TimelineView.empty.operationIds = [] := rfl
  rw [hempty, nil_append, getLast?_map]
  cases hlast : (sortOperationRecords records).getLast? with
  | none => rfl
  | some last =>
    have hmem : last ∈ records := mem_sortBy.1 (mem_of_getLast? hlast)
    obtain ⟨bytes, hbytes, henvelope⟩ := ((mem_records_iff h hread).1 hmem).2
    simp only [map_some, readOperationBytes_of_unpacked h.unpacked, hbytes, henvelope]

end Sound

section Rebuild
variable {blake3 : Bytes → ContentHash} {msgpack : TimelineMsgpack}

theorem Settled.torn (h : Settled (some journal)) :
    journal.torn = 0 :=
  (h journal rfl).1

theorem readOperationIndexJournal_of_settled (h : Settled journal) :
    readOperationIndexJournal journal = some (committedIds journal) := by
  cases journal with
  | none => rfl
  | some journal =>
    simp only [readOperationIndexJournal, h.torn, if_true, committedIds, map_some,
      getD_some]

theorem repair_of_settled (h : Settled disk.journal) :
    repairOperationIndexJournalTail.final disk =
      { disk with journal := some (disk.journal.getD .empty) } := by
  unfold repairOperationIndexJournalTail
  rw [Script.final_choose]
  cases hjournal : disk.journal with
  | none => rfl
  | some journal =>
    have htorn : journal.torn = 0 := Settled.torn (hjournal ▸ h)
    simp only [htorn, if_true, Script.final_skip, getD_some]
    rw [← hjournal]

def listedIds (disk : TimelineDisk) : List TimelineOperationId :=
  retainFirst (disk.operationIndex.getD [] ++ committedIds disk.journal)

theorem nodup_listedIds (disk : TimelineDisk) : (listedIds disk).Nodup :=
  nodup_mergeUnique nodup_nil _

theorem mem_listedIds (h : Sound blake3 msgpack disk) :
    opId ∈ listedIds disk ↔ (disk.ops.lookup opId).isSome := by
  rw [← h.listed, listedIds, retainFirst, mem_mergeUnique, mem_append]
  exact or_iff_right not_mem_nil

theorem readOperationIndex_of_sound (h : Sound blake3 msgpack disk) :
    readOperationIndex disk =
      if (listedIds disk).isEmpty ∧ disk.operationIndex.isNone ∧ disk.journal.isNone then some none
      else some (some (listedIds disk)) := by
  unfold readOperationIndex
  rw [readOperationIndexJournal_of_settled h.settled]
  rfl

theorem writeOperationIndex_final (h : Settled disk.journal) (ids : List TimelineOperationId) :
    (writeOperationIndex ids).final disk =
      { disk with
        operationIndex := some (checkpointOperationIds
          { disk with journal := some (disk.journal.getD .empty) } ids)
        journal := some .empty } := by
  unfold writeOperationIndex
  rw [Script.final_andThen, Script.final_andThen, repair_of_settled h]
  rfl

theorem Settled.opened (h : Settled journal) :
    Settled (some (journal.getD .empty)) ∧
      committedIds (some (journal.getD .empty)) = committedIds journal := by
  cases journal with
  | none =>
    constructor
    · intro found hfound
      obtain rfl := some.inj hfound
      exact ⟨rfl, rfl⟩
    · rfl
  | some journal => exact ⟨h, rfl⟩

theorem settled_empty : Settled (some .empty) := by
  intro found hfound
  obtain rfl := some.inj hfound
  exact ⟨rfl, rfl⟩

theorem mem_checkpointOperationIds (h : Sound blake3 msgpack disk) :
    opId ∈ checkpointOperationIds { disk with journal := some (disk.journal.getD .empty) } ids ↔
      opId ∈ ids ∨ opId ∈ listedIds disk := by
  have hread : readOperationIndex { disk with journal := some (disk.journal.getD .empty) } =
      some (some (listedIds disk)) := by
    have hjournal := readOperationIndexJournal_of_settled h.settled.opened.1
    rw [h.settled.opened.2] at hjournal
    simp only [readOperationIndex, hjournal, bind, Option.bind, isNone_some,
      Bool.false_eq_true, and_false, if_false, listedIds]
  unfold checkpointOperationIds
  rw [hread, mem_append, mem_mergeUnique]
  simp only [bind_some, id_eq, getD_some, not_mem_nil, false_or, mem_filter,
    decide_eq_true_eq]
  tauto

/-- A sound store with the same operations. -/
structure Refreshes (blake3 : Bytes → ContentHash) (msgpack : TimelineMsgpack)
    (disk disk' : TimelineDisk) : Prop where
  sound : Sound blake3 msgpack disk'
  ops : disk'.ops = disk.ops

theorem readRecord_congr (h : disk.packIndexes = []) (h' : disk'.packIndexes = [])
    (hops : disk'.ops.lookup opId = disk.ops.lookup opId) :
    readTimelineOperationRecord blake3 msgpack disk' opId =
      readTimelineOperationRecord blake3 msgpack disk opId := by
  unfold readTimelineOperationRecord
  rw [readOperationBytes_of_unpacked h, readOperationBytes_of_unpacked h', hops]

section
variable (h : Sound blake3 msgpack disk)
include h

theorem writeOperationIndex_refreshes (hids : ∀ opId ∈ ids, (disk.ops.lookup opId).isSome) :
    Refreshes blake3 msgpack disk ((writeOperationIndex ids).final disk) := by
  rw [writeOperationIndex_final h.settled]
  refine ⟨⟨h.unpacked, h.intact, settled_empty, ?_, ?_⟩, rfl⟩
  · intro opId
    have hnone : committedIds (some OperationIndexJournal.empty) = [] := rfl
    rw [hnone, getD_some, mem_checkpointOperationIds h, mem_listedIds h]
    constructor
    · intro hmem
      rcases hmem with (hmem | hmem) | hmem
      · exact hids opId hmem
      · exact hmem
      · exact absurd hmem not_mem_nil
    · exact fun hstored => .inl (.inr hstored)
  · intro checkpoint hcheckpoint
    apply (h.checkpoint checkpoint hcheckpoint).mono
    intro opId record hrecord
    rw [readRecord_congr h.unpacked]
    · exact hrecord
    · exact h.unpacked
    · rfl

section
variable (hnodup : ids.Nodup)
  (hread : readTimelineOperationRecordsById blake3 msgpack disk ids = some records)
include hnodup hread

theorem writeDerived_refreshes :
    ∃ disk', writeTimelineDerivedCheckpoint blake3 msgpack disk ids
        (TimelineView.empty.replay (sortOperationRecords records)) = some disk' ∧
      Refreshes blake3 msgpack disk disk' := by
  have hids : ∀ opId ∈ ids, (disk.ops.lookup opId).isSome := by
    intro opId hopId
    obtain ⟨hmap, hall⟩ := (readRecords_iff h).1 hread
    rw [← hmap] at hopId
    obtain ⟨record, hrecord, rfl⟩ := mem_map.1 hopId
    obtain ⟨bytes, hbytes, _⟩ := hall record hrecord
    exact isSome_iff_exists.2 ⟨bytes, hbytes⟩
  have hindex := writeOperationIndex_refreshes h hids
  have hsound := hindex.sound
  have hread' : readTimelineOperationRecordsById blake3 msgpack
      ((writeOperationIndex ids).final disk) ids = some records := by
    rw [readRecords_iff hsound]
    rw [readRecords_iff h] at hread
    refine ⟨hread.1, fun record hrecord => ?_⟩
    unfold Stores
    rw [hindex.ops]
    exact hread.2 record hrecord
  unfold writeTimelineDerivedCheckpoint writeTimelineViewCheckpoint
  rw [lastReplayKeyOf_replay hsound hread']
  refine ⟨_, rfl, ⟨hsound.unpacked, hsound.intact, hsound.settled, hsound.listed, ?_⟩, hindex.ops⟩
  intro checkpoint hcheckpoint
  obtain rfl := some.inj hcheckpoint
  exact ⟨records, hread', hnodup, rfl, rfl⟩

theorem rebuildFromScratch_replays :
    ∃ disk', rebuildFromScratch blake3 msgpack disk ids =
        some (TimelineView.empty.replay (sortOperationRecords records), disk') ∧
      Refreshes blake3 msgpack disk disk' := by
  obtain ⟨disk', hwrite, hrefreshes⟩ := writeDerived_refreshes h hnodup hread
  refine ⟨disk', ?_, hrefreshes⟩
  unfold rebuildFromScratch rebuildTimelineViewFromIds
  rw [hread, map_some]
  simp only [bind, Option.bind, hwrite]

end

theorem Refreshes.refl :
    Refreshes blake3 msgpack disk disk := ⟨h, rfl⟩

theorem readRecords_append
    (hread : readTimelineOperationRecordsById blake3 msgpack disk (first ++ second) = some records)
    (hfirst : readTimelineOperationRecordsById blake3 msgpack disk first = some old) :
    ∃ new, readTimelineOperationRecordsById blake3 msgpack disk second = some new ∧
      records = old ++ new := by
  obtain ⟨hids, hall⟩ := (readRecords_iff h).1 hread
  obtain ⟨front, new, rfl, hfront, hnew⟩ := map_eq_append_iff.1 hids
  obtain ⟨hallfront, hallnew⟩ := forall_mem_append.1 hall
  have hfront' := (readRecords_iff h).2 ⟨hfront, hallfront⟩
  rw [hfirst] at hfront'
  obtain rfl := some.inj hfront'
  exact ⟨new, (readRecords_iff h).2 ⟨hnew, hallnew⟩, rfl⟩

theorem rebuildFromCheckpoint_replays (hnodup : ids.Nodup)
    (hread : readTimelineOperationRecordsById blake3 msgpack disk ids = some records)
    (hcheckpoint : Summarizes blake3 msgpack disk checkpoint)
    (hfront : checkpoint.processedOperationIds <+: ids) :
    ∃ disk', rebuildFromCheckpoint blake3 msgpack disk ids checkpoint =
        some (TimelineView.empty.replay (sortOperationRecords records), disk') ∧
      Refreshes blake3 msgpack disk disk' := by
  obtain ⟨newIds, rfl⟩ := hfront
  obtain ⟨old, hold, _, hview, hlast⟩ := hcheckpoint
  obtain ⟨new, hnew, rfl⟩ := readRecords_append h hread hold
  unfold rebuildFromCheckpoint
  rw [drop_left]
  cases hempty : newIds.isEmpty with
  | true =>
    have hnil : newIds = [] := isEmpty_iff.1 hempty
    subst hnil
    have hnew' : new = [] := (some.inj hnew).symm
    simp only [isEmpty_nil, if_true, hview, hnew', append_nil]
    exact ⟨disk, rfl, .refl h⟩
  | false =>
    simp only [hempty, Bool.false_eq_true, if_false, hnew, bind, Option.bind]
    cases hordered : incrementalReplayIsOrdered checkpoint.lastReplayKey (sortOperationRecords new) with
    | false =>
      rw [if_neg Bool.false_ne_true]
      exact rebuildFromScratch_replays h hnodup hread
    | true =>
      have hids : ((old ++ new).map (·.id)).Nodup := by
        rw [((readRecords_iff h).1 hread).1]
        exact hnodup
      rw [hlast] at hordered
      have hsort := sort_append_of_ordered hids hordered
      have heq : checkpoint.view.replay (sortOperationRecords new) =
          TimelineView.empty.replay (sortOperationRecords (old ++ new)) := by
        rw [hview, hsort, TimelineView.replay_append]
      rw [if_pos rfl, heq]
      split
      case isTrue =>
        obtain ⟨disk', hwrite, hrefreshes⟩ := writeDerived_refreshes h hnodup hread
        exact ⟨disk', by rw [hwrite], hrefreshes⟩
      case isFalse => exact ⟨disk, rfl, .refl h⟩

theorem readTimelineOperationIds_lists :
    ∃ ids disk', readTimelineOperationIds disk = (ids, disk') ∧ ids.Nodup ∧
      (∀ opId, opId ∈ ids ↔ (disk.ops.lookup opId).isSome) ∧ Refreshes blake3 msgpack disk disk' := by
  unfold readTimelineOperationIds
  rw [readOperationIndex_of_sound h]
  by_cases hnone : (listedIds disk).isEmpty ∧ disk.operationIndex.isNone ∧ disk.journal.isNone
  · rw [if_pos hnone]
    have hops : ∀ opId, disk.ops.lookup opId = none := by
      intro opId
      rw [← not_isSome_iff_eq_none, ← mem_listedIds h, isEmpty_iff.1 hnone.1]
      exact not_mem_nil
    simp only [canonicalOperationIds_of_unpacked h.unpacked hops]
    refine ⟨[], _, rfl, nodup_nil, ?_, writeOperationIndex_refreshes h fun _ hmem =>
      absurd hmem not_mem_nil⟩
    intro opId
    rw [hops]
    exact ⟨fun hmem => absurd hmem not_mem_nil, fun hsome => absurd hsome Bool.false_ne_true⟩
  · rw [if_neg hnone]
    exact ⟨listedIds disk, disk, rfl, nodup_listedIds disk, fun opId => mem_listedIds h, .refl h⟩

end

/-- What a full replay applies: every stored operation, in the order of the replay keys. -/
structure ReplayOrder (msgpack : TimelineMsgpack) (disk : TimelineDisk)
    (records : List TimelineOperationRecord) : Prop where
  sorted : SortedBy operationReplayKey records
  stored : ∀ record, record ∈ records ↔ Stores msgpack disk record

theorem ReplayOrder.unique (h : ReplayOrder msgpack disk records)
    (h' : ReplayOrder msgpack disk records') : records = records' :=
  sortedBy_ext_mem h.sorted h'.sorted fun record => (h.stored record).trans (h'.stored record).symm

theorem rebuild_replays (h : Sound blake3 msgpack disk) :
    ∃ records disk', ReplayOrder msgpack disk records ∧
      rebuild blake3 msgpack disk = some (TimelineView.empty.replay records, disk') ∧
      Refreshes blake3 msgpack disk disk' := by
  obtain ⟨ids, disk₁, hids, hnodup, hmem, hsound, hops⟩ := readTimelineOperationIds_lists h
  have hstored : ∀ opId ∈ ids, (disk₁.ops.lookup opId).isSome := by
    intro opId hopId
    rw [hops]
    exact (hmem opId).1 hopId
  obtain ⟨records, hread⟩ := exists_records hsound hstored
  obtain ⟨hmap, _⟩ := (readRecords_iff hsound).1 hread
  have horder : ReplayOrder msgpack disk (sortOperationRecords records) := by
    constructor
    · exact sortBy_sorted (nodup_replayKeys (hmap ▸ hnodup))
    · intro record
      have hstores : Stores msgpack disk₁ record ↔ Stores msgpack disk record := by
        unfold Stores
        rw [hops]
      rw [sortOperationRecords, mem_sortBy, mem_records_iff hsound hread, hstores, hmem]
      refine and_iff_right_of_imp ?_
      rintro ⟨bytes, hbytes, _⟩
      exact isSome_iff_exists.2 ⟨bytes, hbytes⟩
  have hfinish : ∀ {result : Option (TimelineView × TimelineDisk)},
      (∃ disk', result = some (TimelineView.empty.replay (sortOperationRecords records), disk') ∧
        Refreshes blake3 msgpack disk₁ disk') →
      ∃ records disk', ReplayOrder msgpack disk records ∧
        result = some (TimelineView.empty.replay records, disk') ∧
        Refreshes blake3 msgpack disk disk' := by
    rintro result ⟨disk', hresult, hrefreshes⟩
    exact ⟨_, disk', horder, hresult, hrefreshes.sound, hrefreshes.ops.trans hops⟩
  unfold rebuild
  rw [hids]
  apply hfinish
  cases hcheckpoint : readTimelineViewCheckpoint disk₁ with
  | none =>
    simp only [hcheckpoint]
    exact rebuildFromScratch_replays hsound hnodup hread
  | some checkpoint =>
    have hfile := (filter_eq_some_iff.1 hcheckpoint).1
    cases hfront : checkpointProcessedPrefixMatches checkpoint.processedOperationIds ids with
    | false =>
      simp only [hcheckpoint, hfront, Bool.false_eq_true, if_false]
      exact rebuildFromScratch_replays hsound hnodup hread
    | true =>
      simp only [hcheckpoint, hfront, if_true]
      exact rebuildFromCheckpoint_replays hsound hnodup hread
        (hsound.checkpoint checkpoint hfile) (checkpointProcessedPrefixMatches_iff.1 hfront)

end Rebuild

end Heddle.Timeline
