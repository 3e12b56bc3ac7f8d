import Heddle.Oplog.ContainerIndex
import Heddle.Oplog.RecordCodec

namespace Heddle.Oplog
open Heddle Heddle.Lib
open List hiding lt_trans sections

section Encoded
variable {codec : PayloadCodec} {entries : List OpEntry} {offsets : List EntryOffsetRecord}
  {stream : Bytes}

theorem encodeEntries_total
    (h : ∀ entry ∈ entries, ∃ opData, codec.encode entry.operation = .ok opData) (offset : Nat) :
    ∃ offsets stream, encodeEntries codec offset entries = .ok (offsets, stream) := by
  induction entries generalizing offset with
  | nil => exact ⟨[], [], rfl⟩
  | cons entry entries ih =>
    obtain ⟨opData, hencode⟩ := h entry (.head _)
    have hentry := encodeEntry_ok_iff.2 ⟨opData, hencode, rfl⟩
    obtain ⟨offsets, stream, hrest⟩ := ih (fun e he => h e (.tail _ he)) (offset + _)
    exact ⟨_, _, encodeEntries_cons_ok_iff.2 ⟨_, offsets, stream, hentry, hrest, rfl, rfl⟩⟩

theorem payload_of_encodeEntries (h : encodeEntries codec offset entries = .ok (offsets, stream)) :
    ∀ entry ∈ entries, ∃ opData, codec.encode entry.operation = .ok opData := by
  induction entries generalizing offset offsets stream with
  | nil => exact fun _ hmem => absurd hmem not_mem_nil
  | cons entry entries ih =>
    obtain ⟨_, _, _, hentry, hrest, _, _⟩ := encodeEntries_cons_ok_iff.1 h
    obtain ⟨opData, hencode, _⟩ := encodeEntry_ok_iff.1 hentry
    exact forall_mem_cons.2 ⟨⟨opData, hencode⟩, ih hrest⟩

theorem effectiveBatchId_lt (entry : OpEntry) : effectiveBatchId entry < 256 ^ 8 := by
  unfold effectiveBatchId
  split
  · exact entry.id_lt
  · exact entry.batchId_lt

theorem scopeState_lt (scopes : List (Option String)) : scopeState scopes < 256 ^ 1 := by
  unfold scopeState
  split
  · decide
  · split
    · split <;> decide
    · decide

theorem batchOffsets_length (entries : List (OpEntry × EntryOffsetRecord)) :
    (buildIndexSections entries).batchOffsets.length =
      totalLength (batchGroups (entries.map fun e => (e.1, e.2.entryOffset))) := by
  unfold buildIndexSections totalLength
  simp only [length_flatMap, length_map]

section
variable (h : encodeEntries codec headerLen entries = .ok (offsets, stream))
include h

theorem mem_zip_of_mem_offsets (hmem : record ∈ offsets) :
    ∃ entry, (entry, record) ∈ entries.zip offsets := by
  have hsnd := buildIndexSections_entryOffsets h
  rw [← hsnd] at hmem
  obtain ⟨⟨entry, found⟩, hzip, rfl⟩ := mem_map.1 hmem
  exact ⟨entry, hzip⟩

theorem sections_bounded (hmemory : headerLen + stream.length +
      (buildIndexSections (entries.zip offsets)).encodedLen < 2 ^ 63) :
    (buildIndexSections (entries.zip offsets)).Bounded := by
  have h8 : (256 : Nat) ^ 8 = 2 ^ 64 := by decide
  have hbatches := batchOffsets_length (entries.zip offsets)
  have hkeys : (buildIndexSections (entries.zip offsets)).txKeyBytes =
      keyBytesOf (txFirst entries) := by
    change keyBytesOf (txFirst ((entries.zip offsets).map Prod.fst)) = _
    rw [map_fst_zip_offsets h]
  unfold IndexSections.encodedLen at hmemory
  constructor
  · intro record hmem
    rw [buildIndexSections_entryOffsets h] at hmem
    obtain ⟨entry, hzip⟩ := mem_zip_of_mem_offsets h hmem
    rw [(storedAt_of_mem_zip h hzip).id]
    exact entry.id_lt
  · intro record hmem
    rw [buildIndexSections_entryOffsets h] at hmem
    obtain ⟨entry, hzip⟩ := mem_zip_of_mem_offsets h hmem
    have hlt := (storedAt_of_mem_zip h hzip).offset_lt
    omega
  · intro offset hmem
    obtain ⟨group, hgroup, hoffset⟩ := mem_flatMap.1 hmem
    obtain ⟨e, he, rfl⟩ := mem_map.1 hoffset
    have hlt := offset_lt_of_mem h (mem_batchGroups_entries hgroup he)
    omega
  · intro record hmem
    obtain ⟨group, hgroup, hid, hnewest, hcount, hscope, hfirst⟩ := mem_batchDirFrom hmem
    obtain ⟨hne, hbatch⟩ := mem_batchGroups.1 hgroup
    obtain ⟨e, he⟩ := exists_mem_of_ne_nil _ hne
    have hkey := of_decide_eq_true (mem_filter.1 he).2
    obtain ⟨newest, _, hnewestId⟩ := @batchGroup_newest group.batchId _ hne
    rw [← hbatch] at hnewestId
    constructor
    · rw [hid, ← hkey]
      exact effectiveBatchId_lt e.1
    · rw [hnewest, ← hnewestId]
      exact newest.1.id_lt
    · have hfirst' : record.firstOffsetIndex ≤
          0 + (buildIndexSections (entries.zip offsets)).batchOffsets.length := by
        rw [hbatches]
        exact hfirst
      omega
    · rw [hcount]
      exact Nat.mod_lt _ (by decide)
    · rw [hscope]
      exact scopeState_lt _
  · intro record hmem
    have hmem' : record ∈ txDirFrom 0 (txFirst entries) := by
      rw [← map_fst_zip_offsets h]
      exact hmem
    obtain ⟨commit, _, hlen, hid, hbatch, hoffset⟩ := mem_txDirFrom hmem'
    constructor
    · rw [hkeys] at hmemory
      omega
    · rw [hlen]
      exact Nat.mod_lt _ (by decide)
    · rw [hid]
      exact commit.2.id_lt
    · rw [hbatch]
      exact effectiveBatchId_lt commit.2

end

theorem laid_of_encodeEntries (hhead : headId < 256 ^ 8)
    (h : encodeEntries codec headerLen entries = .ok (offsets, stream))
    (hmemory : headerLen + stream.length +
      (buildIndexSections (entries.zip offsets)).encodedLen < 2 ^ 63) :
    Laid ⟨entries.length, headId⟩ stream (buildIndexSections (entries.zip offsets)) := by
  have hcount : (buildIndexSections (entries.zip offsets)).entryOffsets.length = entries.length := by
    rw [buildIndexSections_entryOffsets h, encodeEntries_length h]
  constructor
  · exact hmemory
  · exact hcount
  · have h8 : (256 : Nat) ^ 8 = 2 ^ 64 := by decide
    unfold IndexSections.encodedLen entryOffsetRecordLen at hmemory
    change entries.length < 256 ^ 8
    omega
  · exact hhead
  · exact sections_bounded h hmemory

theorem decodeCurrentContainer_ok_iff (hlaid : Laid header stream sections) :
    decodeCurrentContainer codec (containerBytes header stream sections) = .ok found ↔
      takeMany (readEntry codec cursorEof) header.entryCount stream = .ok (found.1, []) ∧
        found.2 = header.headId := by
  have hstart : (sections.footer (headerLen + stream.length) header).entryDataEnd =
      headerLen + stream.length := rfl
  have htake : (stream ++ (sections.bytes ++ footerBytes
      (sections.footer (headerLen + stream.length) header))).take
      (headerLen + stream.length - headerLen) = stream :=
    take_left' (Nat.add_sub_cancel_left _ _).symm
  unfold decodeCurrentContainer parseCurrentEntry
  simp only [bind_eq_ok, hlaid.parseHeader, hlaid.parse_footer, Except.ok.injEq,
    exists_eq_left', refuse_eq_ok, hstart, htake, Prod.exists, pure_eq_ok, not_not]
  apply Iff.intro
  · intro h
    obtain ⟨_, _, as, left, hmany, _, rfl, rfl⟩ := h
    exact ⟨hmany, rfl⟩
  · intro h
    exact ⟨(), by omega, found.1, [], h.1, (), rfl, Prod.ext rfl h.2.symm⟩

theorem open_ok_iff (hlaid : Laid header stream sections) :
    PackedOpLogIndex.open codec (containerBytes header stream sections) = .ok index ↔
      index = ⟨containerBytes header stream sections, header,
        sections.footer (headerLen + stream.length) header, sections⟩ ∧
      Consistent codec (containerBytes header stream sections) header
        (sections.footer (headerLen + stream.length) header) sections := by
  unfold PackedOpLogIndex.open
  simp only [bind_eq_ok, hlaid.parseHeader, hlaid.parse_footer, Except.ok.injEq,
    exists_eq_left', hlaid.validate_ok_iff, pure_eq_ok]
  apply Iff.intro
  · intro h
    obtain ⟨_, ⟨rfl, hconsistent⟩, rfl⟩ := h
    exact ⟨rfl, hconsistent⟩
  · intro h
    exact ⟨sections, ⟨rfl, h.2⟩, h.1.symm⟩

/-- The condition under which nothing of a log is lost in its container. -/
structure Storable (codec : PayloadCodec) (data : OplogData) : Prop where
  headId : data.headId = (data.entries.getLast?.map OpEntry.id).getD 0
  readable : ∀ entry ∈ data.entries, entry.Readable codec
  batches : ∀ batchId, (data.entries.filter fun e => effectiveBatchId e = batchId).length < 256 ^ 4
  transactions : ∀ entry ∈ data.entries, ∀ transactionId, commitId? entry = some transactionId →
    (utf8 transactionId).length < 256 ^ 4

section
variable (h : encodeEntries codec headerLen entries = .ok (offsets, stream))
include h

theorem batchOf_length (batchId : Nat) : (batchOf batchId (offsetsOf entries offsets)).length =
      (entries.filter fun e => effectiveBatchId e = batchId).length := by
  have hmap := filter_map (f := Prod.fst) (p := fun e => decide (effectiveBatchId e = batchId))
    (l := offsetsOf entries offsets)
  rw [map_fst_offsetsOf h] at hmap
  rw [hmap, length_map]
  rfl

theorem checkBatchDir_ok_iff (hsorted : Ascending entries) {footer : PackedFooter}
    (hcount : footer.batchOffsetsCount =
      (buildIndexSections (entries.zip offsets)).batchOffsets.length) :
    checkBatchDir footer none 0 (buildIndexSections (entries.zip offsets)).batchDir =
        .ok (buildIndexSections (entries.zip offsets)).batchOffsets.length ↔
      ∀ batchId, (entries.filter fun e => effectiveBatchId e = batchId).length < 256 ^ 4 := by
  have hdesc : (batchGroups (offsetsOf entries offsets)).Pairwise
      fun a b => b.newestEntryId < a.newestEntryId := by
    apply batchGroups_descending
    rwa [map_fst_offsetsOf h]
  have hlength := batchOffsets_length (entries.zip offsets)
  have hcheck : checkBatchDir footer none 0 (buildIndexSections (entries.zip offsets)).batchDir =
      .ok (0 + ((batchGroups (offsetsOf entries offsets)).map
        fun group => group.entries.length % 256 ^ 4).sum) := by
    apply checkBatchDir_batchDirFrom _ hdesc
    · rw [hcount, hlength, Nat.zero_add]
      exact Nat.le_refl _
    · intro id hid
      cases hid
  have hsum := @sum_mod_eq ((batchGroups (offsetsOf entries offsets)).map
    fun group => group.entries.length) (256 ^ 4) (by decide)
  rw [map_map] at hsum
  rw [hcheck, Except.ok.injEq, Nat.zero_add, hlength]
  apply hsum.trans
  apply Iff.intro
  · intro hall batchId
    rw [← batchOf_length h]
    by_cases hne : batchOf batchId (offsetsOf entries offsets) = []
    · rw [hne]
      decide
    · have hgroup : batchGroup batchId (batchOf batchId (offsetsOf entries offsets)) ∈
          batchGroups (offsetsOf entries offsets) := mem_batchGroups.2 ⟨hne, rfl⟩
      have hlt := hall _ (mem_map.2 ⟨_, hgroup, rfl⟩)
      rwa [(batchGroup_perm _ _).length_eq] at hlt
  · intro hall n hn
    obtain ⟨group, hgroup, rfl⟩ := mem_map.1 hn
    obtain ⟨_, hbatch⟩ := mem_batchGroups.1 hgroup
    have hlt := hall group.batchId
    rw [← batchOf_length h, ← (batchGroup_perm group.batchId _).length_eq, ← hbatch] at hlt
    exact hlt

theorem readEntryAt_all
    (hr : ∀ entry ∈ entries, entry.Readable codec) (hfront : front.length = headerLen) :
    offsets.mapM (fun record => readEntryAt codec (front ++ (stream ++ back)) record.entryOffset) =
      .ok entries := by
  apply mapM_ok_iff.2
  apply List.Forall₂.flip
  apply forall₂_iff_zip.2
  refine ⟨(encodeEntries_length h).symm, ?_⟩
  intro entry record hmem
  have hstored := storedAt_of_mem_zip h hmem
  rw [← hfront] at hstored
  exact readEntryAt_stored hstored (hr entry (of_mem_zip hmem).1)

end

/-- A container of readable entries passes the validation of its index exactly when the log is
storable. -/
theorem consistent_iff {headId : Nat} {hhead : headId < 256 ^ 8}
    (h : encodeEntries codec headerLen entries = .ok (offsets, stream))
    (hsorted : Ascending entries) (hr : ∀ entry ∈ entries, entry.Readable codec) :
    Consistent codec
        (containerBytes ⟨entries.length, headId⟩ stream (buildIndexSections (entries.zip offsets)))
        ⟨entries.length, headId⟩
        ((buildIndexSections (entries.zip offsets)).footer (headerLen + stream.length)
          ⟨entries.length, headId⟩)
        (buildIndexSections (entries.zip offsets)) ↔
      Storable codec ⟨entries, headId, hhead⟩ := by
  have hoffsets := buildIndexSections_entryOffsets h
  have hlast : offsets.getLast?.map EntryOffsetRecord.entryId =
      entries.getLast?.map OpEntry.id := by
    rw [← getLast?_map, ← getLast?_map, encodeEntries_ids h]
  have hbatch := @checkBatchDir_ok_iff _ _ _ _ h hsorted
    ((buildIndexSections (entries.zip offsets)).footer (headerLen + stream.length)
      ⟨entries.length, headId⟩) rfl
  have hdir : (buildIndexSections (entries.zip offsets)).txDir =
      txDirFrom 0 (txFirst entries) := by
    change txDirFrom 0 (txFirst ((entries.zip offsets).map Prod.fst)) = _
    rw [map_fst_zip_offsets h]
  have hkeys : (buildIndexSections (entries.zip offsets)).txKeyBytes =
      [] ++ keyBytesOf (txFirst entries) := by
    change keyBytesOf (txFirst ((entries.zip offsets).map Prod.fst)) = _
    rw [map_fst_zip_offsets h, nil_append]
  have hnone : ∀ key ∈ (none : Option Bytes), ∀ commit ∈ txFirst entries,
      byteKey key < commitKey commit := by
    intro key hkey
    cases hkey
  have hcommits : checkTxDir codec
      (containerBytes ⟨entries.length, headId⟩ stream (buildIndexSections (entries.zip offsets)))
      ((buildIndexSections (entries.zip offsets)).footer (headerLen + stream.length)
        ⟨entries.length, headId⟩) offsets (buildIndexSections (entries.zip offsets)).txKeyBytes none
      (txDirFrom 0 (txFirst entries)) = .ok () ↔
        ∀ commit ∈ txFirst entries, (utf8 commit.1).length < 256 ^ 4 :=
    checkTxDir_ok_iff h hsorted hr (headerBytes_length entries.length headId) rfl
      (fun commit hmem => mem_txFirst hmem) (txFirst_sorted entries) hnone hkeys
  apply Iff.intro
  · intro hc
    constructor
    · change headId = (entries.getLast?.map OpEntry.id).getD 0
      by_cases hzero : entries.length = 0
      · rw [length_eq_zero_iff.1 hzero]
        exact hc.empty hzero
      · have htail := hc.tail hzero
        rw [hoffsets, hlast] at htail
        rw [htail]
        rfl
    · exact hr
    · exact hbatch.1 hc.batchDir
    · intro entry hmem transactionId hid
      obtain ⟨commit, hcommit, rfl⟩ := txFirst_complete hmem hid
      have htx := hc.txDir
      rw [hoffsets, hdir] at htx
      exact hcommits.1 htx commit hcommit
  · intro hs
    constructor
    · intro hzero
      have hnil : entries = [] := length_eq_zero_iff.1 hzero
      have hid := hs.headId
      subst hnil
      exact hid
    · intro hne
      have hid : headId = (entries.getLast?.map OpEntry.id).getD 0 := hs.headId
      rw [hoffsets, hlast]
      cases hget : entries.getLast? with
      | none => exact absurd (congrArg length (getLast?_eq_none_iff.1 hget)) hne
      | some entry =>
        rw [hget] at hid
        exact congrArg some hid.symm
    · rw [hoffsets]
      apply checkEntryOffsets_ok (offsets_sorted h hsorted)
      · intro id hid
        cases hid
      · intro record hmem
        obtain ⟨entry, hzip⟩ := mem_zip_of_mem_offsets h hmem
        exact (storedAt_of_mem_zip h hzip).offset_lt
    · intro offset hmem
      obtain ⟨group, hgroup, hoffset⟩ := mem_flatMap.1 hmem
      obtain ⟨e, he, rfl⟩ := mem_map.1 hoffset
      exact offset_lt_of_mem h (mem_batchGroups_entries hgroup he)
    · exact hbatch.2 hs.batches
    · rw [hoffsets, hdir]
      apply hcommits.2
      intro commit hmem
      obtain ⟨hentry, hid⟩ := mem_txFirst hmem
      exact hs.transactions commit.2 hentry commit.1 hid

end Encoded

def FitsMemory (codec : PayloadCodec) (data : OplogData) : Prop :=
  ∀ offsets stream, encodeEntries codec headerLen data.entries = .ok (offsets, stream) →
    headerLen + stream.length + (buildIndexSections (data.entries.zip offsets)).encodedLen < 2 ^ 63

instance (codec : PayloadCodec) (data : OplogData) : Decidable (FitsMemory codec data) :=
  match h : encodeEntries codec headerLen data.entries with
  | .ok (offsets, stream) =>
    decidable_of_iff (headerLen + stream.length +
      (buildIndexSections (data.entries.zip offsets)).encodedLen < 2 ^ 63)
      ⟨fun hlt _ _ hok => by cases h.symm.trans hok; exact hlt, fun hall => hall offsets stream h⟩
  | .error _ => .isTrue fun _ _ hok => by cases h.symm.trans hok

/-- Encoding reports an error, or both readers give the log back. -/
def Recovers (codec : PayloadCodec) (data : OplogData) : Prop :=
  ∀ bytes, encodeCurrentContainer codec data = .ok bytes →
    decodeCurrentContainer codec bytes = .ok (data.entries, data.headId) ∧
    ∃ index, PackedOpLogIndex.open codec bytes = .ok index ∧
      index.header = ⟨data.entries.length, data.headId⟩ ∧
      index.sections.entryOffsets.mapM (fun record =>
        readEntryAt codec index.file record.entryOffset) = .ok data.entries

theorem Recovers.storable (h : Recovers codec data) (hsorted : Ascending data.entries)
    (hmemory : FitsMemory codec data)
    (hlossless : ∀ entry ∈ data.entries, codec.Lossless entry.operation)
    (hall : ∀ entry ∈ data.entries, ∃ opData, codec.encode entry.operation = .ok opData) :
    Storable codec data := by
  obtain ⟨entries, headId, hhead⟩ := data
  obtain ⟨offsets, stream, hentries⟩ := encodeEntries_total hall headerLen
  have hlt : headerLen + stream.length +
      (buildIndexSections (entries.zip offsets)).encodedLen < 2 ^ 63 :=
    hmemory offsets stream hentries
  have hlaid := laid_of_encodeEntries hhead hentries hlt
  have hindex : (buildIndexSections (entries.zip offsets)).encodedLen < 2 ^ 64 := by omega
  have hencoded : encodeCurrentContainer codec ⟨entries, headId, hhead⟩ =
      .ok (containerBytes ⟨entries.length, headId⟩ stream
        (buildIndexSections (entries.zip offsets))) :=
    encodeCurrentContainer_ok_iff.2 ⟨offsets, stream, hentries, hindex, rfl⟩
  obtain ⟨hdecode, index, hopen, _, _⟩ := h _ hencoded
  have hmany := ((decodeCurrentContainer_ok_iff hlaid).1 hdecode).1
  have hread : takeMany (readEntry codec cursorEof) entries.length (stream ++ []) =
      .ok (entries, []) := by
    rw [append_nil]
    exact hmany
  have hr := readable_of_takeMany hentries hlossless hread
  exact (consistent_iff hentries hsorted hr).1 ((open_ok_iff hlaid).1 hopen).2

theorem Storable.recovers (h : Storable codec data) (hsorted : Ascending data.entries)
    (hmemory : FitsMemory codec data) : Recovers codec data := by
  obtain ⟨entries, headId, hhead⟩ := data
  intro bytes hencoded
  obtain ⟨offsets, stream, hentries, _, rfl⟩ := encodeCurrentContainer_ok_iff.1 hencoded
  have hr := h.readable
  have hlaid := laid_of_encodeEntries hhead hentries (hmemory offsets stream hentries)
  have hmany := encodeEntries_reads cursorEof hentries hr []
  rw [append_nil] at hmany
  refine ⟨(decodeCurrentContainer_ok_iff hlaid).2 ⟨hmany, rfl⟩, _, (open_ok_iff hlaid).2
    ⟨rfl, (consistent_iff hentries hsorted hr).2 h⟩, rfl, ?_⟩
  simp only [buildIndexSections_entryOffsets hentries]
  exact readEntryAt_all hentries hr (headerBytes_length entries.length headId)

/-- A container gives its log back exactly when the record of some entry has no encoding, or the log
is storable. -/
theorem encodeCurrentContainer_lossless_iff (codec : PayloadCodec) (data : OplogData)
    (hsorted : Ascending data.entries) (hmemory : FitsMemory codec data)
    (hlossless : ∀ entry ∈ data.entries, codec.Lossless entry.operation) :
    Recovers codec data ↔
      (∃ entry ∈ data.entries, ∃ err, codec.encode entry.operation = .error err) ∨
        Storable codec data := by
  by_cases hfails : ∃ entry ∈ data.entries, ∃ err, codec.encode entry.operation = .error err
  · apply iff_of_true _ (.inl hfails)
    intro bytes hencoded
    obtain ⟨offsets, stream, hentries, _, _⟩ := encodeCurrentContainer_ok_iff.1 hencoded
    obtain ⟨entry, hmem, err, hencode⟩ := hfails
    obtain ⟨opData, hok⟩ := payload_of_encodeEntries hentries entry hmem
    rw [hencode] at hok
    cases hok
  · apply Iff.intro
    · intro h
      right
      apply h.storable hsorted hmemory hlossless
      intro entry hmem
      cases hencode : codec.encode entry.operation with
      | ok opData => exact ⟨opData, rfl⟩
      | error err => exact absurd ⟨entry, hmem, err, hencode⟩ hfails
    · intro h
      rcases h with h | h
      · exact absurd h hfails
      · exact h.recovers hsorted hmemory

/-- The codec of the source, over the MessagePack that it is built on. -/
def recordCodec : PayloadCodec where
  encode record := mapErr .serialization (encodeCurrentRecord MsgPack.toVec record)
  decode bytes := mapErr .serialization (decodeCurrentRecord MsgPack.fromSlice bytes)

def abortRecord : OpRecord := .transactionAbort "tx" "conflict"

def abortBytes : Bytes :=
  [129, 176] ++ utf8 "TransactionAbort" ++ [146, 162] ++ utf8 "tx" ++ [168] ++ utf8 "conflict"

theorem encode_abortRecord : recordCodec.encode abortRecord = .ok abortBytes := by decide +kernel

theorem abortRecord_lossless : recordCodec.Lossless abortRecord := by
  intro bytes hencode
  obtain rfl := Except.ok.inj (encode_abortRecord.symm.trans hencode)
  refine ⟨by decide +kernel, fun front hfront hread => ?_⟩
  rcases hfront.length_le.eq_or_lt with heq | hlt
  · exact hfront.eq_of_length heq
  · have hfronts : ∀ n < abortBytes.length,
        recordCodec.decode (abortBytes.take n) ≠ .ok abortRecord := by decide +kernel
    rw [prefix_iff_eq_take.1 hfront] at hread
    exact absurd hread (hfronts _ hlt)

instance neZero_hundred : NeZero 100 := ⟨by decide⟩

theorem lt_word (id : Fin 100) : id.val < 256 ^ 8 := lt_trans id.isLt (by decide)

def abortEntry (id : Fin 100) (scope : Option String) : OpEntry where
  id := id
  timestamp := ⟨1700000000, 0, by decide, by decide, Timestamp.zero_nanos_lt⟩
  operation := abortRecord
  undone := false
  batchId := 1
  batchIndex := 0
  scope := scope
  actor := ⟨[], []⟩
  operationId := none
  id_lt := lt_word id
  batchId_lt := by decide
  batchIndex_lt := by decide

/-- Two entries of one batch. -/
theorem encodeCurrentContainer_lossless_two :
    Recovers recordCodec ⟨[abortEntry 1 none, abortEntry 2 (some "main")], 2, by decide⟩ ↔
      (∃ entry ∈ [abortEntry 1 none, abortEntry 2 (some "main")],
        ∃ err, recordCodec.encode entry.operation = .error err) ∨
      Storable recordCodec ⟨[abortEntry 1 none, abortEntry 2 (some "main")], 2, by decide⟩ :=
  encodeCurrentContainer_lossless_iff recordCodec
    ⟨[abortEntry 1 none, abortEntry 2 (some "main")], 2, by decide⟩
    (by simp [Ascending, abortEntry]) (by decide +kernel)
    (forall_mem_cons.2 ⟨abortRecord_lossless, forall_mem_singleton.2 abortRecord_lossless⟩)

/-- An empty scope is read back as none. -/
theorem encodeCurrentContainer_emptyScope :
    ¬∀ codec data, Ascending data.entries → FitsMemory codec data →
      (∀ entry ∈ data.entries, codec.Lossless entry.operation) → Recovers codec data := by
  intro h
  have hr := h recordCodec ⟨[abortEntry 1 (some "")], 1, by decide⟩ (List.pairwise_singleton _ _)
    (by decide +kernel) (forall_mem_singleton.2 abortRecord_lossless)
  have hstorable := hr.storable (List.pairwise_singleton _ _) (by decide +kernel)
    (forall_mem_singleton.2 abortRecord_lossless) (forall_mem_singleton.2 ⟨_, encode_abortRecord⟩)
  exact (hstorable.readable _ (.head _)).1.scope rfl

end Heddle.Oplog
