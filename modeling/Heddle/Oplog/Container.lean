import Heddle.Lib.GroupBy
import Heddle.Oplog.Entry
import Mathlib.Data.List.Lex

namespace Heddle.Oplog
open Heddle Heddle.Lib

def magic : Bytes := utf8 "LMOPLOG" ++ [0]
def indexMagic : Bytes := utf8 "LMOPIDX" ++ [0]
def currentContainerVersion : Nat := 4
def currentOpRecordSchemaVersion : Nat := 4
def indexVersion : Nat := 1
def headerLen : Nat := 32
def footerLen : Nat := 120
def entryOffsetRecordLen : Nat := 16
def batchDirRecordLen : Nat := 48
def txDirRecordLen : Nat := 32

structure OplogData where
  entries : List OpEntry
  headId : Nat
  headId_lt : headId < 256 ^ 8

structure PackedHeader where
  entryCount : Nat
  headId : Nat
  deriving DecidableEq

structure PackedFooter where
  entryDataEnd : Nat
  entryOffsetsOffset : Nat
  entryOffsetsCount : Nat
  batchOffsetsOffset : Nat
  batchOffsetsCount : Nat
  batchDirOffset : Nat
  batchDirCount : Nat
  txKeyBytesOffset : Nat
  txKeyBytesLen : Nat
  txDirOffset : Nat
  txDirCount : Nat
  entryCount : Nat
  headId : Nat
  deriving DecidableEq

structure EntryOffsetRecord where
  entryId : Nat
  entryOffset : Nat
  deriving DecidableEq

structure BatchDirRecord where
  batchId : Nat
  newestEntryId : Nat
  firstOffsetIndex : Nat
  entryCount : Nat
  scopeState : Nat
  deriving DecidableEq

structure TxDirRecord where
  keyOffset : Nat
  keyLen : Nat
  commitEntryId : Nat
  batchId : Nat
  deriving DecidableEq

structure IndexSections where
  entryOffsets : List EntryOffsetRecord
  batchOffsets : List Nat
  batchDir : List BatchDirRecord
  txKeyBytes : Bytes
  txDir : List TxDirRecord
  deriving DecidableEq

structure PackedOpLogIndex where
  file : Bytes
  header : PackedHeader
  footer : PackedFooter
  sections : IndexSections

/-! Writing -/

def scopeState (scopes : List (Option String)) : Nat :=
  match scopes with
  | [] => 0
  | first :: rest => if rest.all (· = first) then (if first.isSome then 1 else 0) else 2

/-- Entries of one batch are kept by index, then by id. -/
def BatchOrder (a b : OpEntry × Nat) : Prop :=
  a.1.batchIndex < b.1.batchIndex ∨ a.1.batchIndex = b.1.batchIndex ∧ a.1.id ≤ b.1.id

instance : DecidableRel BatchOrder := fun a b => by
  unfold BatchOrder
  infer_instance

structure BatchGroup where
  batchId : Nat
  newestEntryId : Nat
  entries : List (OpEntry × Nat)

def batchGroup (batchId : Nat) (entries : List (OpEntry × Nat)) : BatchGroup :=
  let entries := entries.insertionSort BatchOrder
  ⟨batchId, ((entries.map fun e => e.1.id).max?).getD 0, entries⟩

def batchGroups (entries : List (OpEntry × Nat)) : List BatchGroup :=
  sortBy (fun group => OrderDual.toDual group.newestEntryId)
    ((groupBy (fun e => effectiveBatchId e.1) entries).map fun g => batchGroup g.1 g.2)

/-- The directory of the batches. The count is cut down to 32 bits. -/
def batchDirFrom : Nat → List BatchGroup → List BatchDirRecord
  | _, [] => []
  | first, group :: groups =>
    { batchId := group.batchId, newestEntryId := group.newestEntryId, firstOffsetIndex := first
      entryCount := group.entries.length % 256 ^ 4
      scopeState := scopeState (group.entries.map fun e => e.1.scope) } ::
    batchDirFrom (first + group.entries.length) groups

/-- Byte strings are compared by the values of their bytes. -/
def byteKey (bytes : Bytes) : List Nat := bytes.map UInt8.toNat

def commitId? (entry : OpEntry) : Option String :=
  match entry.operation with
  | .transactionCommit transactionId _ => some transactionId
  | _ => none

def txFirst (entries : List OpEntry) : List (String × OpEntry) :=
  (firstBy (fun commit : String × OpEntry => byteKey (utf8 commit.1))
    (entries.filterMap fun e => (commitId? e).map fun id => (id, e))).map Prod.snd

def txDirFrom : Nat → List (String × OpEntry) → List TxDirRecord
  | _, [] => []
  | offset, commit :: commits =>
    { keyOffset := offset, keyLen := (utf8 commit.1).length % 256 ^ 4
      commitEntryId := commit.2.id, batchId := effectiveBatchId commit.2 } ::
    txDirFrom (offset + (utf8 commit.1).length) commits

def buildIndexSections (entries : List (OpEntry × EntryOffsetRecord)) : IndexSections :=
  let groups := batchGroups (entries.map fun e => (e.1, e.2.entryOffset))
  let commits := txFirst (entries.map Prod.fst)
  { entryOffsets := entries.map Prod.snd
    batchOffsets := groups.flatMap fun group => group.entries.map Prod.snd
    batchDir := batchDirFrom 0 groups
    txKeyBytes := commits.flatMap fun commit => utf8 commit.1
    txDir := txDirFrom 0 commits }

def encodeEntries (codec : PayloadCodec) :
    Nat → List OpEntry → Except HeddleError (List EntryOffsetRecord × Bytes)
  | _, [] => .ok ([], [])
  | offset, entry :: entries => do
    let bytes ← encodeEntry codec entry
    let (offsets, rest) ← encodeEntries codec (offset + bytes.length) entries
    return (⟨entry.id, offset⟩ :: offsets, bytes ++ rest)

def headerBytes (entryCount headId : Nat) : Bytes :=
  magic ++ (leBytes 4 currentContainerVersion ++ (leBytes 4 currentOpRecordSchemaVersion ++
    (leBytes 8 entryCount ++ leBytes 8 headId)))

def entryOffsetBytes (record : EntryOffsetRecord) : Bytes :=
  leBytes 8 record.entryId ++ leBytes 8 record.entryOffset

def batchDirBytes (record : BatchDirRecord) : Bytes :=
  leBytes 8 record.batchId ++ (leBytes 8 record.newestEntryId ++
  (leBytes 8 record.firstOffsetIndex ++ (leBytes 4 record.entryCount ++
  (leBytes 1 record.scopeState ++ ([0, 0, 0] ++ (leBytes 8 0 ++ (leBytes 4 0 ++ [0, 0, 0, 0])))))))

def txDirBytes (record : TxDirRecord) : Bytes :=
  leBytes 8 record.keyOffset ++ (leBytes 4 record.keyLen ++ ([0, 0, 0, 0] ++
    (leBytes 8 record.commitEntryId ++ leBytes 8 record.batchId)))

def footerBytes (footer : PackedFooter) : Bytes :=
  indexMagic ++ (leBytes 4 indexVersion ++ (leBytes 4 footerLen ++
  (leBytes 8 footer.entryDataEnd ++ (leBytes 8 footer.entryOffsetsOffset ++
  (leBytes 8 footer.entryOffsetsCount ++ (leBytes 8 footer.batchOffsetsOffset ++
  (leBytes 8 footer.batchOffsetsCount ++ (leBytes 8 footer.batchDirOffset ++
  (leBytes 8 footer.batchDirCount ++ (leBytes 8 footer.txKeyBytesOffset ++
  (leBytes 8 footer.txKeyBytesLen ++ (leBytes 8 footer.txDirOffset ++
  (leBytes 8 footer.txDirCount ++ (leBytes 8 footer.entryCount ++
    leBytes 8 footer.headId))))))))))))))

def IndexSections.bytes (sections : IndexSections) : Bytes :=
  sections.entryOffsets.flatMap entryOffsetBytes ++ (sections.batchOffsets.flatMap (leBytes 8) ++
  (sections.batchDir.flatMap batchDirBytes ++ (sections.txKeyBytes ++
    sections.txDir.flatMap txDirBytes)))

def IndexSections.footer (sections : IndexSections) (entryDataEnd : Nat) (header : PackedHeader) :
    PackedFooter :=
  let batchOffsetsOffset := entryDataEnd + entryOffsetRecordLen * sections.entryOffsets.length
  let batchDirOffset := batchOffsetsOffset + 8 * sections.batchOffsets.length
  let txKeyBytesOffset := batchDirOffset + batchDirRecordLen * sections.batchDir.length
  { entryDataEnd
    entryOffsetsOffset := entryDataEnd
    entryOffsetsCount := sections.entryOffsets.length
    batchOffsetsOffset
    batchOffsetsCount := sections.batchOffsets.length
    batchDirOffset
    batchDirCount := sections.batchDir.length
    txKeyBytesOffset
    txKeyBytesLen := sections.txKeyBytes.length
    txDirOffset := txKeyBytesOffset + sections.txKeyBytes.length
    txDirCount := sections.txDir.length
    entryCount := header.entryCount
    headId := header.headId }

def IndexSections.encodedLen (sections : IndexSections) : Nat :=
  entryOffsetRecordLen * sections.entryOffsets.length + 8 * sections.batchOffsets.length +
    batchDirRecordLen * sections.batchDir.length + sections.txKeyBytes.length +
    txDirRecordLen * sections.txDir.length + footerLen

def encodeCurrentContainer (codec : PayloadCodec) (data : OplogData) : Except HeddleError Bytes := do
  let header : PackedHeader := ⟨data.entries.length, data.headId⟩
  let (offsets, stream) ← encodeEntries codec headerLen data.entries
  let sections := buildIndexSections (data.entries.zip offsets)
  refuse (2 ^ 64 ≤ sections.encodedLen) (.invalidObject "oplog index section too large")
  return headerBytes header.entryCount header.headId ++ (stream ++ (sections.bytes ++
    footerBytes (sections.footer (headerLen + stream.length) header)))

/-! Reading -/

def validateVersion (storage : String) (found supported : Nat) : Except HeddleError Unit := do
  refuse (found < supported) (.storageFormatTooOld storage found supported)
  refuse (supported < found) (.storageFormatTooNew storage found supported)

def parseHeader : Reader HeddleError PackedHeader := do
  let found ← takeBytes cursorEof 8
  liftRead (refuse (found ≠ magic) (.invalidObject "invalid oplog magic"))
  let version ← takeLe cursorEof 4
  liftRead (validateVersion "packed oplog container" version.1 currentContainerVersion)
  let schema ← takeLe cursorEof 4
  liftRead (validateVersion "oplog record schema" schema.1 currentOpRecordSchemaVersion)
  let entryCount ← takeLe cursorEof 8
  let headId ← takeLe cursorEof 8
  return ⟨entryCount.1, headId.1⟩

def checkedSection (offset count width footerStart : Nat) (name : String) :
    Except HeddleError Unit := do
  refuse (2 ^ 64 ≤ count * width) (.invalidObject ("oplog " ++ name ++ " section overflow"))
  refuse (2 ^ 64 ≤ offset + count * width) (.invalidObject ("oplog " ++ name ++ " section overflow"))
  refuse (footerStart < offset ∨ footerStart < offset + count * width)
    (.invalidObject ("oplog " ++ name ++ " section points outside file"))

def PackedFooter.sections (footer : PackedFooter) : List (Nat × Nat × Nat × String) :=
  [(footer.entryOffsetsOffset, footer.entryOffsetsCount, entryOffsetRecordLen, "entry offsets"),
    (footer.batchOffsetsOffset, footer.batchOffsetsCount, 8, "batch offsets"),
    (footer.batchDirOffset, footer.batchDirCount, batchDirRecordLen, "batch directory"),
    (footer.txKeyBytesOffset, footer.txKeyBytesLen, 1, "tx keys"),
    (footer.txDirOffset, footer.txDirCount, txDirRecordLen, "tx dir")]

def PackedFooter.validate (footer : PackedFooter) (header : PackedHeader)
    (fileLen footerStart : Nat) : Except HeddleError Unit := do
  refuse (footer.entryCount ≠ header.entryCount ∨ footer.headId ≠ header.headId)
    (.invalidObject "oplog header/footer entry metadata disagreement")
  refuse (footer.entryDataEnd < headerLen ∨ footerStart < footer.entryDataEnd)
    (.invalidObject "oplog entry section points outside file")
  refuse (footer.entryOffsetsCount ≠ header.entryCount)
    (.invalidObject "oplog footer entry count disagrees with offset table")
  footer.sections.forM fun (offset, count, width, name) => do
    checkedSection offset count width footerStart name
    refuse (offset < footer.entryDataEnd ∧ 0 < count)
      (.invalidObject ("oplog " ++ name ++ " section overlaps entry data"))
  refuse (footer.entryOffsetsOffset < footer.entryDataEnd)
    (.invalidObject "oplog entry offsets start before entry data ends")
  refuse (footerStart + footerLen ≠ fileLen)
    (.invalidObject "oplog footer length disagrees with file length")

def readFooter : Reader HeddleError PackedFooter := do
  let found ← takeBytes cursorEof 8
  liftRead (refuse (found ≠ indexMagic) (.invalidObject "invalid oplog index magic"))
  let version ← takeLe cursorEof 4
  liftRead (refuse (version.1 ≠ indexVersion)
    (.invalidObject ("unsupported oplog index version " ++ toString version.1)))
  let len ← takeLe cursorEof 4
  liftRead (refuse (len.1 ≠ footerLen) (.invalidObject "oplog index footer length mismatch"))
  let entryDataEnd ← takeLe cursorEof 8
  let entryOffsetsOffset ← takeLe cursorEof 8
  let entryOffsetsCount ← takeLe cursorEof 8
  let batchOffsetsOffset ← takeLe cursorEof 8
  let batchOffsetsCount ← takeLe cursorEof 8
  let batchDirOffset ← takeLe cursorEof 8
  let batchDirCount ← takeLe cursorEof 8
  let txKeyBytesOffset ← takeLe cursorEof 8
  let txKeyBytesLen ← takeLe cursorEof 8
  let txDirOffset ← takeLe cursorEof 8
  let txDirCount ← takeLe cursorEof 8
  let entryCount ← takeLe cursorEof 8
  let headId ← takeLe cursorEof 8
  return {
    entryDataEnd := entryDataEnd.1, entryOffsetsOffset := entryOffsetsOffset.1
    entryOffsetsCount := entryOffsetsCount.1, batchOffsetsOffset := batchOffsetsOffset.1
    batchOffsetsCount := batchOffsetsCount.1, batchDirOffset := batchDirOffset.1
    batchDirCount := batchDirCount.1, txKeyBytesOffset := txKeyBytesOffset.1
    txKeyBytesLen := txKeyBytesLen.1, txDirOffset := txDirOffset.1, txDirCount := txDirCount.1
    entryCount := entryCount.1, headId := headId.1 }

def PackedFooter.parse (bytes : Bytes) (header : PackedHeader) :
    Except HeddleError PackedFooter := do
  refuse (bytes.length < headerLen + footerLen) (.invalidObject "oplog missing index footer")
  let footerStart := bytes.length - footerLen
  let (footer, _) ← readFooter (bytes.drop footerStart)
  footer.validate header bytes.length footerStart
  return footer

def decodeCurrentContainer (codec : PayloadCodec) (bytes : Bytes) :
    Except HeddleError (List OpEntry × Nat) := do
  let (header, rest) ← parseHeader bytes
  let footer ← PackedFooter.parse bytes header
  refuse (footer.entryDataEnd < headerLen)
    (.invalidObject "oplog footer points before the entry stream")
  let (entries, left) ← takeMany (parseCurrentEntry codec) header.entryCount
    (rest.take (footer.entryDataEnd - headerLen))
  refuse (left ≠ []) (.invalidObject "oplog entry/index boundary disagreement")
  return (entries, header.headId)

def readSection (file : Bytes) (offset count : Nat) (read : Reader HeddleError α) :
    Except HeddleError (List α) :=
  (takeMany read count (file.drop offset)).map Prod.fst

def readEntryOffset : Reader HeddleError EntryOffsetRecord := do
  let entryId ← takeLe fileEof 8
  let entryOffset ← takeLe fileEof 8
  return ⟨entryId.1, entryOffset.1⟩

def readBatchOffset : Reader HeddleError Nat := do
  let offset ← takeLe fileEof 8
  return offset.1

def readBatchDirRecord : Reader HeddleError BatchDirRecord := do
  let batchId ← takeLe fileEof 8
  let newestEntryId ← takeLe fileEof 8
  let firstOffsetIndex ← takeLe fileEof 8
  let entryCount ← takeLe fileEof 4
  let scopeState ← takeLe fileEof 1
  let _padding ← takeBytes fileEof 3
  let _scopeKeyOff ← takeLe fileEof 8
  let _scopeKeyLen ← takeLe fileEof 4
  let _padding ← takeBytes fileEof 4
  return ⟨batchId.1, newestEntryId.1, firstOffsetIndex.1, entryCount.1, scopeState.1⟩

def readTxDirRecord : Reader HeddleError TxDirRecord := do
  let keyOffset ← takeLe fileEof 8
  let keyLen ← takeLe fileEof 4
  let _padding ← takeBytes fileEof 4
  let commitEntryId ← takeLe fileEof 8
  let batchId ← takeLe fileEof 8
  return ⟨keyOffset.1, keyLen.1, commitEntryId.1, batchId.1⟩

def txRecordKey (keyBytes : Bytes) (record : TxDirRecord) : Except HeddleError Bytes := do
  refuse (keyBytes.length < record.keyOffset + record.keyLen)
    (.invalidObject "transaction key range points outside key section")
  return (keyBytes.drop record.keyOffset).take record.keyLen

def checkEntryOffsets (header : PackedHeader) (footer : PackedFooter) :
    Option Nat → List EntryOffsetRecord → Except HeddleError Unit
  | _, [] => .ok ()
  | lastId, record :: records => do
    refuse (record.entryOffset < headerLen ∨ footer.entryDataEnd ≤ record.entryOffset)
      (.invalidObject "oplog entry offset points outside entry section")
    refuse (∃ id ∈ lastId, record.entryId ≤ id)
      (.invalidObject "oplog entry offsets are not sorted by id")
    checkEntryOffsets header footer (some record.entryId) records

def checkBatchDir (footer : PackedFooter) :
    Option Nat → Nat → List BatchDirRecord → Except HeddleError Nat
  | _, total, [] => .ok total
  | prevNewest, total, record :: records => do
    refuse (∃ id ∈ prevNewest, id ≤ record.newestEntryId)
      (.invalidObject "oplog batch directory is not newest-first")
    refuse (footer.batchOffsetsCount < record.firstOffsetIndex + record.entryCount)
      (.invalidObject "oplog batch directory range points outside offset list")
    checkBatchDir footer (some record.newestEntryId) (total + record.entryCount) records

def checkCommit (codec : PayloadCodec) (bytes : Bytes) (footer : PackedFooter)
    (offsets : List EntryOffsetRecord) (key : Bytes) (record : TxDirRecord) :
    Except HeddleError Unit := do
  let found ← orElseErr (.invalidObject "oplog transaction directory references a missing entry")
    (offsets.find? fun offset => offset.entryId = record.commitEntryId)
  refuse (footer.entryDataEnd ≤ found.entryOffset)
    (.invalidObject "oplog transaction directory points past entry data")
  let (entry, _) ← parseCurrentEntry codec
    ((bytes.take footer.entryDataEnd).drop found.entryOffset)
  let transactionId ← orElseErr
    (.invalidObject "oplog transaction directory references a non-commit entry") (commitId? entry)
  refuse (utf8 transactionId ≠ key)
    (.invalidObject "oplog transaction directory key disagrees with commit transaction_id")

def checkTxDir (codec : PayloadCodec) (bytes : Bytes) (footer : PackedFooter)
    (offsets : List EntryOffsetRecord) (keyBytes : Bytes) :
    Option Bytes → List TxDirRecord → Except HeddleError Unit
  | _, [] => .ok ()
  | prevKey, record :: records => do
    let key ← txRecordKey keyBytes record
    refuse (∃ prev ∈ prevKey, byteKey key ≤ byteKey prev)
      (.invalidObject "oplog transaction directory is not sorted")
    checkCommit codec bytes footer offsets key record
    checkTxDir codec bytes footer offsets keyBytes (some key) records

def validateIndexRecords (codec : PayloadCodec) (bytes : Bytes) (header : PackedHeader)
    (footer : PackedFooter) : Except HeddleError IndexSections := do
  let offsets ← readSection bytes footer.entryOffsetsOffset footer.entryOffsetsCount readEntryOffset
  refuse (offsets.length ≠ header.entryCount)
    (.invalidObject "oplog entry-offset count disagrees with header")
  refuse (header.entryCount = 0 ∧ header.headId ≠ 0)
    (.invalidObject "empty oplog has non-zero head_id")
  refuse (header.entryCount ≠ 0 ∧
      (offsets.getLast?.map EntryOffsetRecord.entryId) ≠ some header.headId)
    (.invalidObject "oplog entry-offset tail disagrees with head_id")
  checkEntryOffsets header footer none offsets
  let batchOffsets ← readSection bytes footer.batchOffsetsOffset footer.batchOffsetsCount
    readBatchOffset
  batchOffsets.forM fun offset =>
    refuse (offset < headerLen ∨ footer.entryDataEnd ≤ offset)
      (.invalidObject "oplog batch directory points outside entry section")
  let batchDir ← readSection bytes footer.batchDirOffset footer.batchDirCount readBatchDirRecord
  let total ← checkBatchDir footer none 0 batchDir
  refuse (total ≠ footer.batchOffsetsCount)
    (.invalidObject "oplog batch offset list disagrees with batch directory")
  let (keyBytes, _) ← takeBytes fileEof footer.txKeyBytesLen (bytes.drop footer.txKeyBytesOffset)
  let txDir ← readSection bytes footer.txDirOffset footer.txDirCount readTxDirRecord
  checkTxDir codec bytes footer offsets keyBytes none txDir
  return ⟨offsets, batchOffsets, batchDir, keyBytes, txDir⟩

def PackedOpLogIndex.open (codec : PayloadCodec) (bytes : Bytes) :
    Except HeddleError PackedOpLogIndex := do
  let (header, _) ← parseHeader bytes
  let footer ← PackedFooter.parse bytes header
  let sections ← validateIndexRecords codec bytes header footer
  return ⟨bytes, header, footer, sections⟩

end Heddle.Oplog
