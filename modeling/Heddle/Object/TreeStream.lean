import Heddle.Object.LeanCodec
import Heddle.Lib.Paging

namespace Heddle
open Heddle.Lib

def treeLeanEncodingVersion : UInt8 := 6

structure TreePageLimits where
  maxEntries : Nat
  maxDecodedBytes : Nat
  maxEntries_pos : 0 < maxEntries
  maxDecodedBytes_pos : 0 < maxDecodedBytes

structure TreeResumeCursor where
  treeId : ContentHash
  encodingVersion : UInt8
  ordinal : Nat
  byteOffset : Nat
  prevName : Option String
  deriving DecidableEq

def TreeResumeCursor.startForVersion (treeId : ContentHash) (encodingVersion : UInt8) :
    TreeResumeCursor where
  treeId := treeId
  encodingVersion := encodingVersion
  ordinal := 0
  byteOffset := treeHeaderLen
  prevName := none

inductive TreeReaderLayout where
  | raw
  | lean (bodyStart : Nat)
  | blocked (header : TreeBlockHeader)

structure DecodedStreamEntry where
  entry : TreeEntry ContentHash
  position : Option UInt32
  consumed : Nat

structure TreePage where
  entries : List (TreeEntry ContentHash)
  resumeCursor : TreeResumeCursor

/-- The reader. The two caches of a blocked layout stand beside it, and a hasher is the content it
was fed. -/
structure TreeEntryReader where
  source : BytesTreeSource
  header : TreeHeader
  layout : TreeReaderLayout
  cache : Option DecodedBlock := none
  validatedBlocks : List Bool := []
  cursor : TreeResumeCursor
  hasher : Option Bytes
  leanHashEntries : Option (List (TreeEntry ContentHash))
  decodedLogicalLen : Nat := 0
  startedAtZero : Bool
  pending : Option DecodedStreamEntry := none
  finished : Bool := false

section Open

def TreeReaderLayout.isLean : TreeReaderLayout → Bool
  | .lean _ => true
  | _ => false

def validateCursor (header : TreeHeader) (layout : TreeReaderLayout) (cursor : TreeResumeCursor) :
    Except TreeStreamError Unit :=
  let payloadEnd := match layout with
    | .raw => treeHeaderLen + header.payloadLen
    | .lean bodyStart => bodyStart + header.payloadLen
    | .blocked blockHeader => treeHeaderLen + blockHeader.rawPayloadLen
  let payloadStart := match layout with
    | .lean bodyStart => bodyStart
    | _ => treeHeaderLen
  if cursor.encodingVersion ≠ header.version then
    .error (.cursorMismatch ("encoding version " ++ toString cursor.encodingVersion.toNat ++
      " is not " ++ toString header.version.toNat))
  else if cursor.treeId ≠ header.treeId then
    .error (.cursorMismatch "cursor tree id does not match the opened object")
  else if cursor.ordinal > header.entryCount then
    .error (.cursorMismatch "cursor ordinal is past the declared entry count")
  else if cursor.ordinal = 0 then
    refuse (cursor.byteOffset ≠ payloadStart ∨ cursor.prevName.isSome)
      (.cursorMismatch "start cursor must be the first entry boundary")
  else if cursor.ordinal = header.entryCount then
    refuse (cursor.byteOffset ≠ payloadEnd)
      (.cursorMismatch "end cursor is not the declared payload end")
  else
    refuse (cursor.byteOffset < payloadStart ∨ cursor.byteOffset ≥ payloadEnd)
      (.cursorMismatch "cursor byte offset is not inside the payload")

def openLean (source : BytesTreeSource) (expectedId : ContentHash) :
    Except TreeStreamError (TreeHeader × TreeReaderLayout) := do
  let count ← (sourceInput source).takeVarint 4
  refuse (source.bytes.length < count.2) (.truncatedFrame count.2)
  return ({
    version := treeLeanEncodingVersion
    treeId := expectedId
    entryCount := count.1
    payloadLen := source.bytes.length - count.2
    logicalLen := 0 }, .lean count.2)

def openBlocked (source : BytesTreeSource) (header : TreeHeader) :
    Except TreeStreamError TreeReaderLayout := do
  let preamble ← source.readExactAt treeHeaderLen treeBlockPreambleLen
  let blockHeader ← decodeBlockHeader header preamble source.bytes.length
  return .blocked blockHeader

def openHeadered (source : BytesTreeSource) (expectedId : ContentHash) :
    Except TreeStreamError (TreeHeader × TreeReaderLayout) := do
  let headerBuf ← source.readExactAt 0 treeHeaderLen
  let header ← decodeHeader headerBuf
  refuse (header.treeId ≠ expectedId) (.hashMismatch expectedId header.treeId)
  let expectedLen := treeHeaderLen + header.payloadLen
  refuse (source.bytes.length < expectedLen) (.truncatedFrame source.bytes.length)
  refuse (source.bytes.length > expectedLen) (.trailingBytes (source.bytes.length - expectedLen))
  if header.version = treeBlockEncodingVersion then do
    let layout ← openBlocked source header
    return (header, layout)
  else return (header, .raw)

def openLayout (source : BytesTreeSource) (expectedId : ContentHash) :
    Except TreeStreamError (TreeHeader × TreeReaderLayout) := do
  let magic ← source.readExactAt 0 4
  refuse (magic = treeRedactedMagic)
    (.malformed "HRT1 redacted projection must not enter the tree stream")
  refuse (magic = treeSaltedMagic)
    (.malformed "HSR1 salted trees are decoded eagerly, not streamed")
  if magic = treeLeanMagic then openLean source expectedId else openHeadered source expectedId

def startCursor (expectedId : ContentHash) (header : TreeHeader) (layout : TreeReaderLayout) :
    TreeResumeCursor :=
  let cursor := TreeResumeCursor.startForVersion expectedId header.version
  match layout with
  | .lean bodyStart => { cursor with byteOffset := bodyStart }
  | _ => cursor

def initialBlocks : TreeReaderLayout → List Bool
  | .blocked blockHeader => List.replicate blockHeader.blockCount false
  | _ => []

end Open

section Read
variable (decompress : Bytes → Nat → Except String Bytes)

def readRawEntry (source : BytesTreeSource) (header : TreeHeader) (offset : Nat) :
    Except TreeStreamError DecodedStreamEntry := do
  let lenBuf ← source.readExactAt offset 4
  let frameLen := ofLeBytes lenBuf
  let frameEnd := offset + 4 + frameLen
  refuse (frameEnd > treeHeaderLen + header.payloadLen ∨ frameEnd > source.bytes.length)
    (.truncatedFrame offset)
  let frame ← source.readExactAt (offset + 4) frameLen
  let item ← decodeEntryFrame frame
  return { entry := item.1, position := item.2, consumed := 4 + frameLen }

/-- A lean body never carries a Git layout. -/
def readLeanEntry (source : BytesTreeSource) (offset : Nat) (prevName : Option String) :
    Except TreeStreamError DecodedStreamEntry := do
  let item ← readCompactEntry source offset (prevName.getD "")
  return { entry := item.1, position := none, consumed := item.2 - offset }

/-- The first entry of a block is never compressed. -/
def readBlockAnchor (source : BytesTreeSource) (index : TreeBlockIndex) :
    Except TreeStreamError DecodedStreamEntry := do
  let lenBytes ← source.readExactAt index.storedOffset 4
  let frameLen := ofLeBytes lenBytes
  let consumed := 4 + frameLen
  refuse (consumed > index.storedLen ∨ consumed > index.rawLen) (.truncatedFrame index.storedOffset)
  let frame ← source.readExactAt (index.storedOffset + 4) frameLen
  let item ← decodeEntryFrame frame
  return { entry := item.1, position := item.2, consumed := consumed }

def readBlockFrame (cached : DecodedBlock) (within blockLogicalStart : Nat)
    (cursor : TreeResumeCursor) : Except TreeStreamError DecodedStreamEntry := do
  let frameAt ← orElseErr (.unexpectedEof (cursor.ordinal + 1) cursor.ordinal)
    cached.frames[within]?
  let frame ← orElseErr (.truncatedFrame frameAt.1)
    (sliceAt cached.raw (frameAt.1 + 4) (frameAt.2 - (frameAt.1 + 4)))
  refuse (2 ^ 64 ≤ blockLogicalStart + frameAt.1) (.malformed "tree cursor offset overflow")
  refuse (cursor.byteOffset ≠ blockLogicalStart + frameAt.1)
    (.cursorMismatch "cursor byte offset is not an entry boundary")
  let item ← decodeEntryFrame frame
  return { entry := item.1, position := item.2, consumed := frameAt.2 - frameAt.1 }

def blockAtCursor (source : BytesTreeSource) (blockHeader : TreeBlockHeader)
    (cursor : TreeResumeCursor) : Except TreeStreamError (TreeBlockIndex × Nat) := do
  let index ← readBlockIndex source blockHeader (cursor.ordinal / blockHeader.blockEntries)
  refuse (2 ^ 64 ≤ treeHeaderLen + index.rawOffset) (.malformed "tree block raw offset overflow")
  return (index, treeHeaderLen + index.rawOffset)

def readAnchorAtCursor (source : BytesTreeSource) (index : TreeBlockIndex)
    (blockLogicalStart : Nat) (cursor : TreeResumeCursor) :
    Except TreeStreamError DecodedStreamEntry := do
  refuse (cursor.byteOffset ≠ blockLogicalStart)
    (.cursorMismatch "cursor byte offset is not the block restart boundary")
  readBlockAnchor source index

namespace TreeEntryReader

def withBlock (r : TreeEntryReader) (decoded : DecodedBlock) : TreeEntryReader :=
  { r with
    cache := some decoded
    validatedBlocks := r.validatedBlocks.set decoded.block true }

def cachedBlock (r : TreeEntryReader) (block : Nat) : Option DecodedBlock :=
  r.cache.filter (fun cached => cached.block = block)

def readBlockedEntry (r : TreeEntryReader) (blockHeader : TreeBlockHeader) :
    Except TreeStreamError DecodedStreamEntry × TreeEntryReader :=
  let block := r.cursor.ordinal / blockHeader.blockEntries
  let within := r.cursor.ordinal % blockHeader.blockEntries
  match blockAtCursor r.source blockHeader r.cursor with
  | .error err => (.error err, r)
  | .ok (index, start) =>
    if within = 0 then (readAnchorAtCursor r.source index start r.cursor, r)
    else
      match r.cachedBlock block with
      | some cached => (readBlockFrame cached within start r.cursor, r)
      | none =>
        match loadBlock decompress r.source r.header index block blockHeader with
        | .error err => (.error err, r)
        | .ok decoded => (readBlockFrame decoded within start r.cursor, r.withBlock decoded)

/-- Reads the entry at the cursor. A failed read leaves the reader where it was. -/
def readEntryAt (r : TreeEntryReader) :
    Except TreeStreamError DecodedStreamEntry × TreeEntryReader :=
  match r.layout with
  | .raw => (readRawEntry r.source r.header r.cursor.byteOffset, r)
  | .lean _ => (readLeanEntry r.source r.cursor.byteOffset r.cursor.prevName, r)
  | .blocked blockHeader => r.readBlockedEntry decompress blockHeader

def takeNextEntry (r : TreeEntryReader) :
    Except TreeStreamError DecodedStreamEntry × TreeEntryReader :=
  match r.pending with
  | some item => (.ok item, { r with pending := none })
  | none => r.readEntryAt decompress

/-- Takes an entry in: its name, its share of the hash and of the logical length, then the cursor. -/
def commitEntry (r : TreeEntryReader) (item : DecodedStreamEntry) :
    Except TreeStreamError Unit × TreeEntryReader :=
  if ∃ previous ∈ r.cursor.prevName, item.entry.name ≤ previous then (.error notSorted, r)
  else
    let fed := { r with
      hasher := r.hasher.map (· ++ item.entry.updateHasher item.position)
      leanHashEntries := r.leanHashEntries.map (· ++ [item.entry]) }
    let logicalLen := r.decodedLogicalLen + item.entry.encodedLen item.position
    if 2 ^ 64 ≤ logicalLen then (.error (.malformed "logical length overflow"), fed)
    else (.ok (), { fed with
      decodedLogicalLen := logicalLen
      cursor := { r.cursor with
        ordinal := r.cursor.ordinal + 1
        byteOffset := r.cursor.byteOffset + item.consumed
        prevName := some item.entry.name } })

/-- A resumed reader reads its first entry at once. -/
def armPendingAtCursor (r : TreeEntryReader) : Except TreeStreamError TreeEntryReader :=
  if r.cursor.ordinal = 0 ∨ r.cursor.ordinal = r.header.entryCount then .ok r
  else
    match r.readEntryAt decompress with
    | (.error err, _) => .error err
    | (.ok item, r) =>
      if ∃ previous ∈ r.cursor.prevName, item.entry.name ≤ previous then
        .error (.cursorMismatch "cursor previous name is not a valid predecessor")
      else .ok { r with pending := some item }

def openAt (source : BytesTreeSource) (expectedId : ContentHash)
    (resume : Option TreeResumeCursor) : Except TreeStreamError TreeEntryReader := do
  let opened ← openLayout source expectedId
  let cursor := resume.getD (startCursor expectedId opened.1 opened.2)
  validateCursor opened.1 opened.2 cursor
  refuse (0 < cursor.ordinal ∧ source.integrity ≠ .verifiedPlacement) .unverifiedRange
  armPendingAtCursor decompress {
    source := source
    header := opened.1
    layout := opened.2
    validatedBlocks := initialBlocks opened.2
    cursor := cursor
    hasher := if cursor.ordinal = 0 ∧ ¬ TreeReaderLayout.isLean opened.2 then some [] else none
    leanHashEntries := if cursor.ordinal = 0 ∧ TreeReaderLayout.isLean opened.2 then some [] else none
    startedAtZero := cursor.ordinal = 0 }

end TreeEntryReader
end Read

section Pages
variable (decompress : Bytes → Nat → Except String Bytes)

def TreeEntry.decodedSize (e : TreeEntry ContentHash) : Nat :=
  (utf8 e.name).length + e.target.encodedPayloadLen

def saturatingAdd (a b : Nat) : Nat := min (a + b) usizeMax

namespace TreeEntryReader

/-- The loop of `next_page`; `room` is what the entry limit leaves. A page that would grow too large
keeps the entry it read for the next one. -/
def pageLoop (limits : TreePageLimits) : Nat → List (TreeEntry ContentHash) → Nat →
    TreeEntryReader → Except TreeStreamError (List (TreeEntry ContentHash)) × TreeEntryReader
  | 0, entries, _, r => (.ok entries, r)
  | room + 1, entries, decodedBytes, r =>
    if r.cursor.ordinal < r.header.entryCount then
      match r.takeNextEntry decompress with
      | (.error err, r) => (.error err, r)
      | (.ok item, r) =>
        let size := item.entry.decodedSize
        if size > limits.maxDecodedBytes then
          (.error (.oversizedEntry size limits.maxDecodedBytes), r)
        else if entries ≠ [] ∧ saturatingAdd decodedBytes size > limits.maxDecodedBytes then
          (.ok entries, { r with pending := some item })
        else
          match r.commitEntry item with
          | (.error err, r) => (.error err, r)
          | (.ok (), r) => pageLoop limits room (entries ++ [item.entry]) (decodedBytes + size) r
    else (.ok entries, r)

def nextPage (r : TreeEntryReader) (limits : TreePageLimits) :
    Except TreeStreamError (Option TreePage) × TreeEntryReader :=
  if r.cursor.ordinal = r.header.entryCount then (.ok none, r)
  else
    match pageLoop decompress limits limits.maxEntries [] 0 r with
    | (.error err, r) => (.error err, r)
    | (.ok entries, r) => (.ok (some { entries := entries, resumeCursor := r.cursor }), r)

def nextEntryWithPosition (r : TreeEntryReader) :
    Except TreeStreamError (Option (TreeEntry ContentHash × Option UInt32)) × TreeEntryReader :=
  if r.cursor.ordinal = r.header.entryCount then (.ok none, r)
  else
    match r.takeNextEntry decompress with
    | (.error err, r) => (.error err, r)
    | (.ok item, r) =>
      match r.commitEntry item with
      | (.error err, r) => (.error err, r)
      | (.ok (), r) => (.ok (some (item.entry, item.position)), r)

end TreeEntryReader
end Pages

section Finish
variable (blake3 : Bytes → ContentHash) (decompress : Bytes → Nat → Except String Bytes)

namespace TreeEntryReader

def logicalPayloadEnd (r : TreeEntryReader) : Nat :=
  match r.layout with
  | .raw => treeHeaderLen + r.header.payloadLen
  | .lean _ => r.source.bytes.length
  | .blocked blockHeader => treeHeaderLen + blockHeader.rawPayloadLen

def validateBlock (r : TreeEntryReader) (blockHeader : TreeBlockHeader) (expected : Nat × Nat)
    (block : Nat) : Except TreeStreamError (Nat × Nat) := do
  let index ← readBlockIndex r.source blockHeader block
  refuse (index.rawOffset ≠ expected.1 ∨ index.storedOffset ≠ expected.2)
    (.malformed "tree blocks are not contiguous")
  if r.startedAtZero ∧ r.validatedBlocks[block]? ≠ some true then do
    let _ ← loadBlock decompress r.source r.header index block blockHeader
    return (expected.1 + index.rawLen, expected.2 + index.storedLen)
  else return (expected.1 + index.rawLen, expected.2 + index.storedLen)

def validateCompleteBlockLayout (r : TreeEntryReader) : Except TreeStreamError Unit :=
  match r.layout with
  | .raw => .ok ()
  | .lean _ => .ok ()
  | .blocked blockHeader => do
    let ends ← (List.range blockHeader.blockCount).foldlM (r.validateBlock decompress blockHeader)
      (0, blockHeader.indexEnd)
    refuse (ends.1 ≠ blockHeader.rawPayloadLen ∨ ends.2 ≠ r.source.bytes.length)
      (.malformed "tree block lengths do not match the header")

/-- The tree id, from the entries read since the start of the body. -/
def verifyTreeId (r : TreeEntryReader) : Except TreeStreamError Unit :=
  match r.hasher with
  | some content => do
    refuse (r.decodedLogicalLen ≠ r.header.logicalLen) logicalLenMismatch
    let found := computeTypedWithLen blake3 treeEmptyPrefix r.header.logicalLen content
    refuse (found ≠ r.header.treeId) (.hashMismatch r.header.treeId found)
  | none =>
    match r.leanHashEntries with
    | some entries => do
      let tree ← liftTree (Tree.tryFromDecodedLayout entries [])
      let found := tree.hash blake3
      refuse (found ≠ r.header.treeId) (.hashMismatch r.header.treeId found)
    | none => refuse (r.source.integrity ≠ .verifiedPlacement) .unverifiedRange

/-- `finish_and_verify`; a reader that fails here is spent. -/
def finishAndVerify (r : TreeEntryReader) : Except TreeStreamError TreeEntryReader := do
  refuse (r.cursor.ordinal ≠ r.header.entryCount)
    (.unexpectedEof r.header.entryCount r.cursor.ordinal)
  refuse (r.cursor.byteOffset ≠ r.logicalPayloadEnd)
    (.trailingBytes (max (r.logicalPayloadEnd - r.cursor.byteOffset)
      (r.cursor.byteOffset - r.logicalPayloadEnd)))
  r.verifyTreeId blake3
  r.validateCompleteBlockLayout decompress
  return { r with hasher := none, leanHashEntries := none, finished := true }

/-- The loop of a full collect; every entry moves the cursor, so `fuel` is what is left to read. -/
def collectWith (push : σ → TreeEntry ContentHash × Option UInt32 → Except TreeStreamError σ) :
    Nat → TreeEntryReader → σ → Except TreeStreamError (σ × TreeEntryReader)
  | 0, r, collected => .ok (collected, r)
  | fuel + 1, r, collected =>
    match r.nextEntryWithPosition decompress with
    | (.error err, _) => .error err
    | (.ok none, r) => .ok (collected, r)
    | (.ok (some item), r) => do
      let collected ← push collected item
      collectWith push fuel r collected

def collectEntries (r : TreeEntryReader) :
    Except TreeStreamError (List (TreeEntry ContentHash) × TreeEntryReader) :=
  collectWith decompress (fun entries item => .ok (entries ++ [item.1])) (r.header.entryCount + 1) r []

/-- Pages of one size up to the end; a page takes an entry, so `fuel` is what is left to read. -/
def readPages (limits : TreePageLimits) :
    Nat → TreeEntryReader → Except TreeStreamError (List TreePage × TreeEntryReader)
  | 0, r => .ok ([], r)
  | fuel + 1, r =>
    match r.nextPage decompress limits with
    | (.error err, _) => .error err
    | (.ok none, r) => .ok ([], r)
    | (.ok (some page), r) => do
      let rest ← readPages limits fuel r
      return (page :: rest.1, rest.2)

def readBody (source : BytesTreeSource) (expectedId : ContentHash) (limits : TreePageLimits) :
    Except TreeStreamError (List TreePage) := do
  let r ← openAt decompress source expectedId none
  let pages ← readPages decompress limits (r.header.entryCount + 1) r
  let _ ← pages.2.finishAndVerify blake3 decompress
  return pages.1

def pagesRun : List TreePageLimits → TreeEntryReader →
    List (Except TreeStreamError (Option TreePage)) × TreeEntryReader
  | [], r => ([], r)
  | limits :: rest, r =>
    let first := r.nextPage decompress limits
    let run := pagesRun rest first.2
    (first.1 :: run.1, run.2)

end TreeEntryReader

def Tree.decodeCanonicalStreamed (data : Bytes) : Except TreeStreamError (Tree ContentHash) := do
  let header ← decodeHeader data
  let reader ← TreeEntryReader.openAt decompress ⟨data, .sequentialVerify⟩ header.treeId none
  let collected ← TreeEntryReader.collectWith decompress DecodedEntries.push
    (header.entryCount + 1) reader {}
  let _ ← collected.2.finishAndVerify blake3 decompress
  let tree ← liftTree (tryFromDecodedLayout collected.1.entries collected.1.positions)
  let found := tree.hash blake3
  refuse (found ≠ header.treeId) (.hashMismatch header.treeId found)
  return tree

def Tree.decodeCanonical (data : Bytes) : Except TreeStreamError (Tree ContentHash) :=
  if isSaltedTree data then decodeSaltedV4 blake3 data
  else if isRedactedTree data then
    .error (.malformed "HRT1 redacted projection cannot be decoded as a full tree")
  else do
    let header ← decodeHeader data
    if header.version = treeBlockEncodingVersion then decodeCanonicalStreamed blake3 decompress data
    else decodeRaw blake3 data header

end Finish
end Heddle
