import Heddle.Oplog.ContainerRead

namespace Heddle.Oplog
open Heddle Heddle.Lib

def containerBytes (header : PackedHeader) (stream : Bytes) (sections : IndexSections) : Bytes :=
  headerBytes header.entryCount header.headId ++ (stream ++ (sections.bytes ++
    footerBytes (sections.footer (headerLen + stream.length) header)))

theorem encodeCurrentContainer_ok_iff :
    encodeCurrentContainer codec data = .ok bytes ↔ ∃ offsets stream,
      encodeEntries codec headerLen data.entries = .ok (offsets, stream) ∧
      (buildIndexSections (data.entries.zip offsets)).encodedLen < 2 ^ 64 ∧
      containerBytes ⟨data.entries.length, data.headId⟩ stream
        (buildIndexSections (data.entries.zip offsets)) = bytes := by
  unfold encodeCurrentContainer
  simp only [bind_eq_ok, refuse_eq_ok, pure_eq_ok, Except.ok.injEq, Prod.exists, not_le]
  apply Iff.intro
  · intro h
    obtain ⟨offsets, stream, hentries, _, hlen, rfl⟩ := h
    exact ⟨offsets, stream, hentries, hlen, rfl⟩
  · intro h
    obtain ⟨offsets, stream, hentries, hlen, rfl⟩ := h
    exact ⟨offsets, stream, hentries, (), hlen, rfl⟩

structure IndexSections.Bounded (sections : IndexSections) : Prop where
  entryIds : ∀ record ∈ sections.entryOffsets, record.entryId < 256 ^ 8
  entryOffsets : ∀ record ∈ sections.entryOffsets, record.entryOffset < 256 ^ 8
  batchOffsets : ∀ offset ∈ sections.batchOffsets, offset < 256 ^ 8
  batchDir : ∀ record ∈ sections.batchDir, record.Bounded
  txDir : ∀ record ∈ sections.txDir, record.Bounded

/-- A container that fits in memory, with sections that fit in their bytes. -/
structure Laid (header : PackedHeader) (stream : Bytes) (sections : IndexSections) : Prop where
  memory : headerLen + stream.length + sections.encodedLen < 2 ^ 63
  count : sections.entryOffsets.length = header.entryCount
  entryCount : header.entryCount < 256 ^ 8
  headId : header.headId < 256 ^ 8
  sections : sections.Bounded

section Laid
variable {header : PackedHeader} {stream : Bytes} {sections : IndexSections}

theorem containerBytes_length :
    (containerBytes header stream sections).length =
      headerLen + stream.length + sections.encodedLen := by
  have hlen := sections.bytes_length
  simp only [containerBytes, List.length_append, headerBytes_length, footerBytes_length]
  omega

theorem Laid.footer_bounded (h : Laid header stream sections) :
    (sections.footer (headerLen + stream.length) header).Bounded := by
  have hmemory := h.memory
  have hcount := h.entryCount
  have hhead := h.headId
  simp only [IndexSections.encodedLen, headerLen, footerLen, entryOffsetRecordLen,
    batchDirRecordLen, txDirRecordLen] at hmemory
  have h8 : (256 : Nat) ^ 8 = 2 ^ 64 := by decide
  constructor
  all_goals
    simp only [IndexSections.footer, headerLen, entryOffsetRecordLen, batchDirRecordLen, h8]
    omega

theorem checkedSection_ok (h : offset + count * width ≤ footerStart) (hlt : footerStart < 2 ^ 64) :
    checkedSection offset count width footerStart name = .ok () := by
  have hend : ¬2 ^ 64 ≤ offset + count * width := Nat.not_le.2 (Nat.lt_of_le_of_lt h hlt)
  unfold checkedSection
  refine bind_eq_ok.2 ⟨(), refuse_eq_ok.2 (by omega), ?_⟩
  refine bind_eq_ok.2 ⟨(), refuse_eq_ok.2 hend, ?_⟩
  exact refuse_eq_ok.2 (by omega)

section
variable (h : Laid header stream sections)
include h

theorem Laid.footer_validate :
    (sections.footer (headerLen + stream.length) header).validate header
      (containerBytes header stream sections).length
      ((containerBytes header stream sections).length - footerLen) = .ok () := by
  have hmemory := h.memory
  have hlen : (containerBytes header stream sections).length - footerLen =
      headerLen + stream.length + sections.bytes.length := by
    have hbytes := sections.bytes_length
    rw [containerBytes_length]
    omega
  have hsections : sections.bytes.length =
      entryOffsetRecordLen * sections.entryOffsets.length + 8 * sections.batchOffsets.length +
        batchDirRecordLen * sections.batchDir.length + sections.txKeyBytes.length +
        txDirRecordLen * sections.txDir.length := by
    have hbytes := sections.bytes_length
    unfold IndexSections.encodedLen at hbytes
    omega
  have htotal : (containerBytes header stream sections).length < 2 ^ 64 := by
    rw [containerBytes_length]
    omega
  have hstart : headerLen + stream.length + sections.bytes.length < 2 ^ 64 := by omega
  rw [hlen, containerBytes_length, ← sections.bytes_length]
  unfold PackedFooter.validate
  refine bind_eq_ok.2 ⟨(), refuse_eq_ok.2 (by simp [IndexSections.footer]), ?_⟩
  refine bind_eq_ok.2 ⟨(), refuse_eq_ok.2 ?_, ?_⟩
  · simp only [IndexSections.footer]
    omega
  refine bind_eq_ok.2 ⟨(), refuse_eq_ok.2 (not_not.2 h.count), ?_⟩
  refine bind_eq_ok.2 ⟨(), ?_, ?_⟩
  · have hoffsets := Nat.mul_comm entryOffsetRecordLen sections.entryOffsets.length
    have hbatches := Nat.mul_comm batchDirRecordLen sections.batchDir.length
    have hcommits := Nat.mul_comm txDirRecordLen sections.txDir.length
    apply forM_ok_iff.2
    intro area hmem
    simp only [PackedFooter.sections, IndexSections.footer, List.mem_cons, List.not_mem_nil,
      or_false] at hmem
    rcases hmem with rfl | rfl | rfl | rfl | rfl
    all_goals
      refine bind_eq_ok.2 ⟨(), checkedSection_ok (by omega) hstart, refuse_eq_ok.2 ?_⟩
      simp only [IndexSections.footer]
      omega
  refine bind_eq_ok.2 ⟨(), refuse_eq_ok.2 (Nat.lt_irrefl _), ?_⟩
  exact refuse_eq_ok.2 (by omega)

theorem Laid.parse_footer :
    PackedFooter.parse (containerBytes header stream sections) header =
      .ok (sections.footer (headerLen + stream.length) header) := by
  have hlen : (containerBytes header stream sections).length - footerLen =
      headerLen + stream.length + sections.bytes.length := by
    have hbytes := sections.bytes_length
    rw [containerBytes_length]
    omega
  have hdrop : (containerBytes header stream sections).drop
      ((containerBytes header stream sections).length - footerLen) =
      footerBytes (sections.footer (headerLen + stream.length) header) ++ [] := by
    rw [hlen, List.append_nil, containerBytes, ← List.append_assoc, ← List.append_assoc]
    apply List.drop_left'
    simp only [List.length_append, headerBytes_length]
  unfold PackedFooter.parse
  refine bind_eq_ok.2 ⟨(), refuse_eq_ok.2 ?_, ?_⟩
  · have hbytes := sections.bytes_length
    rw [containerBytes_length]
    omega
  have hread := readFooter_reads h.footer_bounded []
  rw [← hdrop] at hread
  refine bind_eq_ok.2 ⟨_, hread, ?_⟩
  exact bind_eq_ok.2 ⟨(), h.footer_validate, rfl⟩

theorem Laid.parseHeader :
    parseHeader (containerBytes header stream sections) = .ok (header, stream ++ (sections.bytes ++
      footerBytes (sections.footer (headerLen + stream.length) header))) :=
  parseHeader_reads h.entryCount h.headId _

end

theorem readSection_ok {file : Bytes} {read : Reader HeddleError α} {write : α → Bytes}
    (h : ∀ x ∈ xs, Reads read (write x) x) (hdrop : file.drop offset = xs.flatMap write ++ rest) :
    readSection file offset xs.length read = .ok xs := by
  have hmany := @Reads.many _ _ _ read write id xs h rest
  unfold readSection
  rw [hdrop, hmany, List.map_id]
  rfl

theorem drop_sections : (containerBytes header stream sections).drop (headerLen + stream.length) =
    sections.bytes ++ footerBytes (sections.footer (headerLen + stream.length) header) := by
  rw [containerBytes, ← List.append_assoc]
  apply List.drop_left'
  rw [List.length_append, headerBytes_length]

theorem drop_section (h : (containerBytes header stream sections).drop offset = before ++ after)
    (hwidth : before.length = width) :
    (containerBytes header stream sections).drop (offset + width) = after := by
  rw [← List.drop_drop, h]
  exact List.drop_left' hwidth

theorem drop_entryOffsets : (containerBytes header stream sections).drop
    (sections.footer (headerLen + stream.length) header).entryOffsetsOffset =
      sections.entryOffsets.flatMap entryOffsetBytes ++ (sections.batchOffsets.flatMap (leBytes 8) ++
      (sections.batchDir.flatMap batchDirBytes ++ (sections.txKeyBytes ++
      (sections.txDir.flatMap txDirBytes ++
        footerBytes (sections.footer (headerLen + stream.length) header))))) := by
  have h := @drop_sections header stream sections
  simp only [IndexSections.bytes, List.append_assoc] at h
  exact h

theorem drop_batchOffsets : (containerBytes header stream sections).drop
    (sections.footer (headerLen + stream.length) header).batchOffsetsOffset =
      sections.batchOffsets.flatMap (leBytes 8) ++
      (sections.batchDir.flatMap batchDirBytes ++ (sections.txKeyBytes ++
      (sections.txDir.flatMap txDirBytes ++
        footerBytes (sections.footer (headerLen + stream.length) header)))) :=
  drop_section drop_entryOffsets (flatMap_length_const entryOffsetBytes_length _)

theorem drop_batchDir : (containerBytes header stream sections).drop
    (sections.footer (headerLen + stream.length) header).batchDirOffset =
      sections.batchDir.flatMap batchDirBytes ++ (sections.txKeyBytes ++
      (sections.txDir.flatMap txDirBytes ++
        footerBytes (sections.footer (headerLen + stream.length) header))) :=
  drop_section drop_batchOffsets (flatMap_length_const (length_leBytes 8) _)

theorem drop_txKeyBytes : (containerBytes header stream sections).drop
    (sections.footer (headerLen + stream.length) header).txKeyBytesOffset =
      sections.txKeyBytes ++ (sections.txDir.flatMap txDirBytes ++
        footerBytes (sections.footer (headerLen + stream.length) header)) :=
  drop_section drop_batchDir (flatMap_length_const batchDirBytes_length _)

theorem drop_txDir : (containerBytes header stream sections).drop
    (sections.footer (headerLen + stream.length) header).txDirOffset =
      sections.txDir.flatMap txDirBytes ++
        footerBytes (sections.footer (headerLen + stream.length) header) :=
  drop_section drop_txKeyBytes rfl

/-- What validating a laid container checks, once its sections have been read. -/
structure Consistent (codec : PayloadCodec) (bytes : Bytes) (header : PackedHeader)
    (footer : PackedFooter) (sections : IndexSections) : Prop where
  empty : header.entryCount = 0 → header.headId = 0
  tail : header.entryCount ≠ 0 →
    sections.entryOffsets.getLast?.map EntryOffsetRecord.entryId = some header.headId
  offsets : checkEntryOffsets header footer none sections.entryOffsets = .ok ()
  batchOffsets : ∀ offset ∈ sections.batchOffsets,
    headerLen ≤ offset ∧ offset < footer.entryDataEnd
  batchDir : checkBatchDir footer none 0 sections.batchDir = .ok sections.batchOffsets.length
  txDir : checkTxDir codec bytes footer sections.entryOffsets sections.txKeyBytes none
    sections.txDir = .ok ()

theorem Laid.validate_ok_iff (h : Laid header stream sections) :
    validateIndexRecords codec (containerBytes header stream sections) header
        (sections.footer (headerLen + stream.length) header) = .ok found ↔
      found = sections ∧ Consistent codec (containerBytes header stream sections) header
        (sections.footer (headerLen + stream.length) header) sections := by
  have hbounded := h.sections
  have hoffsets : readSection (containerBytes header stream sections)
      (sections.footer (headerLen + stream.length) header).entryOffsetsOffset
      (sections.footer (headerLen + stream.length) header).entryOffsetsCount readEntryOffset =
      .ok sections.entryOffsets :=
    readSection_ok (fun record hmem => readEntryOffset_reads (hbounded.entryIds record hmem)
      (hbounded.entryOffsets record hmem)) drop_entryOffsets
  have hbatchOffsets : readSection (containerBytes header stream sections)
      (sections.footer (headerLen + stream.length) header).batchOffsetsOffset
      (sections.footer (headerLen + stream.length) header).batchOffsetsCount readBatchOffset =
      .ok sections.batchOffsets :=
    readSection_ok (fun offset hmem => readBatchOffset_reads (hbounded.batchOffsets offset hmem))
      drop_batchOffsets
  have hbatchDir : readSection (containerBytes header stream sections)
      (sections.footer (headerLen + stream.length) header).batchDirOffset
      (sections.footer (headerLen + stream.length) header).batchDirCount readBatchDirRecord =
      .ok sections.batchDir :=
    readSection_ok (fun record hmem => readBatchDirRecord_reads (hbounded.batchDir record hmem))
      drop_batchDir
  have hkeys : takeBytes fileEof (sections.footer (headerLen + stream.length) header).txKeyBytesLen
      ((containerBytes header stream sections).drop
        (sections.footer (headerLen + stream.length) header).txKeyBytesOffset) =
      .ok (sections.txKeyBytes, _) :=
    takeBytes_ok_iff.2 ⟨drop_txKeyBytes, rfl⟩
  have htxDir : readSection (containerBytes header stream sections)
      (sections.footer (headerLen + stream.length) header).txDirOffset
      (sections.footer (headerLen + stream.length) header).txDirCount readTxDirRecord =
      .ok sections.txDir :=
    readSection_ok (fun record hmem => readTxDirRecord_reads (hbounded.txDir record hmem))
      drop_txDir
  unfold validateIndexRecords
  simp only [bind_eq_ok, hoffsets, hbatchOffsets, hbatchDir, hkeys, htxDir, Except.ok.injEq,
    exists_eq_left', refuse_eq_ok, forM_ok_iff, pure_eq_ok, h.count]
  apply Iff.intro
  · intro hok
    obtain ⟨_, _, _, hempty, _, htail, _, hchecked, _, hbatch, total, hdir, _, htotal, _, htx, rfl⟩ :=
      hok
    refine ⟨rfl, ⟨?_, ?_, hchecked, ?_, ?_, htx⟩⟩
    · intro hzero
      exact not_not.1 fun hne => hempty ⟨hzero, hne⟩
    · intro hne
      exact not_not.1 fun hbad => htail ⟨hne, hbad⟩
    · intro offset hmem
      have hin := hbatch offset hmem
      omega
    · rw [hdir, not_not.1 htotal]
      rfl
  · intro hok
    obtain ⟨rfl, hempty, htail, hchecked, hbatch, hdir, htx⟩ := hok
    refine ⟨(), not_not.2 rfl, (), ?_, (), ?_, (), hchecked, (), ?_, _, hdir, (), not_not.2 rfl, (),
      htx, rfl⟩
    · exact fun hbad => hbad.2 (hempty hbad.1)
    · exact fun hbad => hbad.2 (htail hbad.1)
    · intro offset hmem
      have hin := hbatch offset hmem
      omega

end Laid

end Heddle.Oplog
