import Heddle.Oplog.Container

namespace Heddle.Oplog
open Heddle Heddle.Lib List

theorem encodeEntries_cons_ok_iff :
    encodeEntries codec offset (entry :: entries) = .ok (offsets, stream) ↔
      ∃ bytes offsets' stream', encodeEntry codec entry = .ok bytes ∧
        encodeEntries codec (offset + bytes.length) entries = .ok (offsets', stream') ∧
        offsets = ⟨entry.id, offset⟩ :: offsets' ∧ stream = bytes ++ stream' := by
  simp only [encodeEntries, bind_eq_ok, pure_eq_ok, Except.ok.injEq, Prod.exists, Prod.mk.injEq]
  apply Iff.intro
  · intro h
    obtain ⟨bytes, hbytes, offsets', stream', hrest, rfl, rfl⟩ := h
    exact ⟨bytes, offsets', stream', hbytes, hrest, rfl, rfl⟩
  · intro h
    obtain ⟨bytes, offsets', stream', hbytes, hrest, rfl, rfl⟩ := h
    exact ⟨bytes, hbytes, offsets', stream', hrest, rfl, rfl⟩

section
variable (h : encodeEntries codec offset entries = .ok (offsets, stream))
include h

theorem encodeEntries_ids :
    offsets.map EntryOffsetRecord.entryId = entries.map OpEntry.id := by
  induction entries generalizing offset offsets stream with
  | nil =>
    cases h
    rfl
  | cons entry entries ih =>
    obtain ⟨bytes, offsets', stream', _, hrest, rfl, _⟩ := encodeEntries_cons_ok_iff.1 h
    rw [map_cons, map_cons, ih hrest]

theorem encodeEntries_length :
    offsets.length = entries.length := by
  have hids := congrArg List.length (encodeEntries_ids h)
  rwa [length_map, length_map] at hids

end

structure StoredAt (codec : PayloadCodec) (start : Nat) (stream : Bytes) (entry : OpEntry)
    (record : EntryOffsetRecord) : Prop where
  id : record.entryId = entry.id
  bytes : ∃ before bytes after, stream = before ++ (bytes ++ after) ∧
    record.entryOffset = start + before.length ∧ encodeEntry codec entry = .ok bytes

theorem encodeEntries_storedAt (h : encodeEntries codec offset entries = .ok (offsets, stream)) :
    List.Forall₂ (StoredAt codec offset stream) entries offsets := by
  induction entries generalizing offset offsets stream with
  | nil =>
    cases h
    exact .nil
  | cons entry entries ih =>
    obtain ⟨bytes, offsets', stream', hbytes, hrest, rfl, rfl⟩ := encodeEntries_cons_ok_iff.1 h
    apply List.Forall₂.cons
    · exact ⟨rfl, [], bytes, stream', rfl, rfl, hbytes⟩
    · apply (ih hrest).imp
      intro e record hstored
      obtain ⟨hid, before, found, after, rfl, hoffset, hfound⟩ := hstored
      refine ⟨hid, bytes ++ before, found, after, by rw [append_assoc], ?_, hfound⟩
      rw [hoffset, length_append, Nat.add_assoc]

theorem StoredAt.offset_lt (h : StoredAt codec start stream entry record) :
    start ≤ record.entryOffset ∧ record.entryOffset < start + stream.length := by
  obtain ⟨_, before, bytes, after, rfl, hoffset, hbytes⟩ := h
  have hpos := encodeEntry_pos hbytes
  simp only [length_append]
  omega

theorem encodeEntries_reads (eof : HeddleError)
    (h : encodeEntries codec offset entries = .ok (offsets, stream))
    (hr : ∀ entry ∈ entries, entry.Readable codec) :
    Reads (takeMany (readEntry codec eof) entries.length) stream entries := by
  induction entries generalizing offset offsets stream with
  | nil =>
    cases h
    exact Reads.pure []
  | cons entry entries ih =>
    obtain ⟨bytes, offsets', stream', hbytes, hrest, _, rfl⟩ := encodeEntries_cons_ok_iff.1 h
    apply Reads.bind (readEntry_reads eof hbytes (hr entry (.head _)))
    have htail := ih hrest fun e he => hr e (.tail _ he)
    have hcons : Reads (takeMany (readEntry codec eof) entries.length >>= fun es =>
        (Pure.pure (entry :: es) : Reader HeddleError (List OpEntry))) (stream' ++ [])
        (entry :: entries) := htail.bind (Reads.pure _)
    rwa [append_nil] at hcons

theorem readable_of_takeMany (h : encodeEntries codec offset entries = .ok (offsets, stream))
    (hlossless : ∀ entry ∈ entries, codec.Lossless entry.operation)
    (hread : takeMany (readEntry codec eof) entries.length (stream ++ rest) = .ok (entries, left)) :
    ∀ entry ∈ entries, entry.Readable codec := by
  induction entries generalizing offset offsets stream with
  | nil => exact fun _ hmem => absurd hmem not_mem_nil
  | cons entry entries ih =>
    obtain ⟨bytes, offsets', stream', hbytes, hrest, _, rfl⟩ := encodeEntries_cons_ok_iff.1 h
    obtain ⟨opData, hencode, rfl⟩ := encodeEntry_ok_iff.1 hbytes
    obtain ⟨e, mid, he, hmany⟩ := read_bind_ok_iff.1 hread
    obtain ⟨es, mid', hes, hpure⟩ := read_bind_ok_iff.1 hmany
    obtain ⟨hcons, rfl⟩ := read_pure_ok_iff.1 hpure
    obtain ⟨rfl, rfl⟩ := List.cons.inj hcons
    obtain ⟨undone, opData', _, hlen, hdecode, hshort, heq⟩ := readEntry_ok_iff.1 he
    rw [append_assoc] at heq
    obtain ⟨hentry, htail⟩ := forall_mem_cons.1 hlossless
    obtain ⟨rfl, rfl⟩ := entryBytes_inj hentry hencode hdecode hlen heq
    intro e hmem
    rcases mem_cons.1 hmem with rfl | hmem
    · refine ⟨hshort, fun opData hopData => ?_, hentry⟩
      rw [hencode] at hopData
      cases hopData
      exact hlen
    · exact ih hrest htail hes e hmem

theorem readEntryAt_stored (h : StoredAt codec front.length stream entry record)
    (hr : entry.Readable codec) :
    readEntryAt codec (front ++ (stream ++ back)) record.entryOffset = .ok entry := by
  obtain ⟨_, before, bytes, after, rfl, hoffset, hbytes⟩ := h
  have hdrop : (front ++ (before ++ (bytes ++ after) ++ back)).drop record.entryOffset =
      bytes ++ (after ++ back) := by
    rw [hoffset, ← drop_drop, drop_left, append_assoc, drop_left,
      append_assoc]
  unfold readEntryAt
  rw [hdrop, readEntry_reads fileEof hbytes hr]
  rfl

@[simp] theorem magic_length : magic.length = 8 := by decide +kernel
@[simp] theorem indexMagic_length : indexMagic.length = 8 := by decide +kernel

theorem parseHeader_sequential : Sequential cursorEof parseHeader := by
  apply (Sequential.takeBytes cursorEof 8).bind
  intro found
  apply (Sequential.lift cursorEof _).bind
  intro _
  apply (Sequential.takeLe cursorEof 4).bind
  intro version
  apply (Sequential.lift cursorEof _).bind
  intro _
  apply (Sequential.takeLe cursorEof 4).bind
  intro schema
  apply (Sequential.lift cursorEof _).bind
  intro _
  apply (Sequential.takeLe cursorEof 8).bind
  intro entryCount
  apply (Sequential.takeLe cursorEof 8).bind
  intro headId
  exact Sequential.pure cursorEof _

theorem parseHeader_reads (hcount : entryCount < 256 ^ 8) (hhead : headId < 256 ^ 8) :
    Reads parseHeader (headerBytes entryCount headId) ⟨entryCount, headId⟩ := by
  intro rest
  unfold parseHeader
  simp only [read_bind_ok_iff, takeBytes_ok_iff, takeLe_ok_iff, liftRead_ok_iff, refuse_eq_ok,
    read_pure_ok_iff, headerBytes, append_assoc]
  refine ⟨magic, _, ⟨rfl, magic_length⟩, (), _, ⟨not_not.2 rfl, rfl⟩,
    ⟨currentContainerVersion, by decide⟩, _, rfl, (), _, ⟨rfl, rfl⟩,
    ⟨currentOpRecordSchemaVersion, by decide⟩, _, rfl, (), _, ⟨rfl, rfl⟩,
    ⟨entryCount, hcount⟩, _, rfl, ⟨headId, hhead⟩, _, rfl, rfl, rfl⟩

structure PackedFooter.Bounded (footer : PackedFooter) : Prop where
  entryDataEnd : footer.entryDataEnd < 256 ^ 8
  entryOffsetsOffset : footer.entryOffsetsOffset < 256 ^ 8
  entryOffsetsCount : footer.entryOffsetsCount < 256 ^ 8
  batchOffsetsOffset : footer.batchOffsetsOffset < 256 ^ 8
  batchOffsetsCount : footer.batchOffsetsCount < 256 ^ 8
  batchDirOffset : footer.batchDirOffset < 256 ^ 8
  batchDirCount : footer.batchDirCount < 256 ^ 8
  txKeyBytesOffset : footer.txKeyBytesOffset < 256 ^ 8
  txKeyBytesLen : footer.txKeyBytesLen < 256 ^ 8
  txDirOffset : footer.txDirOffset < 256 ^ 8
  txDirCount : footer.txDirCount < 256 ^ 8
  entryCount : footer.entryCount < 256 ^ 8
  headId : footer.headId < 256 ^ 8

theorem readFooter_reads (h : footer.Bounded) :
    Reads readFooter (footerBytes footer) footer := by
  intro rest
  unfold readFooter
  simp only [read_bind_ok_iff, takeBytes_ok_iff, takeLe_ok_iff, liftRead_ok_iff, refuse_eq_ok,
    read_pure_ok_iff, footerBytes, append_assoc]
  refine ⟨indexMagic, _, ⟨rfl, indexMagic_length⟩, (), _, ⟨not_not.2 rfl, rfl⟩,
    ⟨indexVersion, by decide⟩, _, rfl, (), _, ⟨not_not.2 rfl, rfl⟩,
    ⟨footerLen, by decide⟩, _, rfl, (), _, ⟨not_not.2 rfl, rfl⟩,
    ⟨_, h.entryDataEnd⟩, _, rfl, ⟨_, h.entryOffsetsOffset⟩, _, rfl, ⟨_, h.entryOffsetsCount⟩, _, rfl,
    ⟨_, h.batchOffsetsOffset⟩, _, rfl, ⟨_, h.batchOffsetsCount⟩, _, rfl, ⟨_, h.batchDirOffset⟩, _,
    rfl, ⟨_, h.batchDirCount⟩, _, rfl, ⟨_, h.txKeyBytesOffset⟩, _, rfl, ⟨_, h.txKeyBytesLen⟩, _, rfl,
    ⟨_, h.txDirOffset⟩, _, rfl, ⟨_, h.txDirCount⟩, _, rfl, ⟨_, h.entryCount⟩, _, rfl,
    ⟨_, h.headId⟩, _, rfl, rfl, rfl⟩

theorem readEntryOffset_reads (hid : record.entryId < 256 ^ 8)
    (hoffset : record.entryOffset < 256 ^ 8) :
    Reads readEntryOffset (entryOffsetBytes record) record := by
  intro rest
  unfold readEntryOffset
  simp only [read_bind_ok_iff, takeLe_ok_iff, read_pure_ok_iff, entryOffsetBytes, append_assoc]
  exact ⟨⟨_, hid⟩, _, rfl, ⟨_, hoffset⟩, _, rfl, rfl, rfl⟩

theorem readBatchOffset_reads (h : offset < 256 ^ 8) :
    Reads readBatchOffset (leBytes 8 offset) offset := by
  intro rest
  unfold readBatchOffset
  simp only [read_bind_ok_iff, takeLe_ok_iff, read_pure_ok_iff]
  exact ⟨⟨_, h⟩, _, rfl, rfl, rfl⟩

structure BatchDirRecord.Bounded (record : BatchDirRecord) : Prop where
  batchId : record.batchId < 256 ^ 8
  newestEntryId : record.newestEntryId < 256 ^ 8
  firstOffsetIndex : record.firstOffsetIndex < 256 ^ 8
  entryCount : record.entryCount < 256 ^ 4
  scopeState : record.scopeState < 256 ^ 1

theorem readBatchDirRecord_reads (h : record.Bounded) :
    Reads readBatchDirRecord (batchDirBytes record) record := by
  intro rest
  unfold readBatchDirRecord
  simp only [read_bind_ok_iff, takeBytes_ok_iff, takeLe_ok_iff, read_pure_ok_iff, batchDirBytes,
    append_assoc]
  exact ⟨⟨_, h.batchId⟩, _, rfl, ⟨_, h.newestEntryId⟩, _, rfl, ⟨_, h.firstOffsetIndex⟩, _, rfl,
    ⟨_, h.entryCount⟩, _, rfl, ⟨_, h.scopeState⟩, _, rfl, [0, 0, 0], _, ⟨rfl, rfl⟩,
    ⟨0, by decide⟩, _, rfl, ⟨0, by decide⟩, _, rfl, [0, 0, 0, 0], _, ⟨rfl, rfl⟩, rfl, rfl⟩

structure TxDirRecord.Bounded (record : TxDirRecord) : Prop where
  keyOffset : record.keyOffset < 256 ^ 8
  keyLen : record.keyLen < 256 ^ 4
  commitEntryId : record.commitEntryId < 256 ^ 8
  batchId : record.batchId < 256 ^ 8

theorem readTxDirRecord_reads (h : record.Bounded) :
    Reads readTxDirRecord (txDirBytes record) record := by
  intro rest
  unfold readTxDirRecord
  simp only [read_bind_ok_iff, takeBytes_ok_iff, takeLe_ok_iff, read_pure_ok_iff, txDirBytes,
    append_assoc]
  exact ⟨⟨_, h.keyOffset⟩, _, rfl, ⟨_, h.keyLen⟩, _, rfl, [0, 0, 0, 0], _, ⟨rfl, rfl⟩,
    ⟨_, h.commitEntryId⟩, _, rfl, ⟨_, h.batchId⟩, _, rfl, rfl, rfl⟩

@[simp] theorem headerBytes_length (entryCount headId : Nat) :
    (headerBytes entryCount headId).length = headerLen := by
  simp [headerBytes, headerLen]

@[simp] theorem footerBytes_length (footer : PackedFooter) :
    (footerBytes footer).length = footerLen := by
  simp [footerBytes, footerLen]

theorem flatMap_length_const {write : α → Bytes} (h : ∀ x, (write x).length = n) (xs : List α) :
    (xs.flatMap write).length = n * xs.length := by
  induction xs with
  | nil => rfl
  | cons x xs ih =>
    rw [flatMap_cons, length_append, h, ih, length_cons, Nat.mul_succ, Nat.add_comm]

theorem entryOffsetBytes_length (record : EntryOffsetRecord) :
    (entryOffsetBytes record).length = entryOffsetRecordLen := by
  simp [entryOffsetBytes, entryOffsetRecordLen]

theorem batchDirBytes_length (record : BatchDirRecord) :
    (batchDirBytes record).length = batchDirRecordLen := by
  simp [batchDirBytes, batchDirRecordLen]

theorem txDirBytes_length (record : TxDirRecord) :
    (txDirBytes record).length = txDirRecordLen := by
  simp [txDirBytes, txDirRecordLen]

theorem IndexSections.bytes_length (sections : IndexSections) :
    sections.bytes.length + footerLen = sections.encodedLen := by
  simp only [IndexSections.bytes, IndexSections.encodedLen, length_append,
    flatMap_length_const entryOffsetBytes_length, flatMap_length_const (length_leBytes 8),
    flatMap_length_const batchDirBytes_length, flatMap_length_const txDirBytes_length]
  omega

end Heddle.Oplog
