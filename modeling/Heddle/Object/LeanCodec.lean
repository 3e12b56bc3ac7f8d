import Heddle.Object.Canonical

namespace Heddle
open Heddle.Lib

/-- How far a tree body may be trusted before its hash is checked. -/
inductive TreeBodyIntegrity where
  | verifiedPlacement
  | sequentialVerify
  deriving DecidableEq

structure BytesTreeSource where
  bytes : Bytes
  integrity : TreeBodyIntegrity

namespace BytesTreeSource

def readExactAt (source : BytesTreeSource) (offset len : Nat) : Except TreeStreamError Bytes :=
  orElseErr (.truncatedFrame offset) (sliceAt source.bytes offset len)

@[simp] theorem readExactAt_eq_ok {source : BytesTreeSource} :
    source.readExactAt offset len = .ok slice ↔ sliceAt source.bytes offset len = some slice :=
  orElseErr_eq_ok

end BytesTreeSource

/-- Where a compact decoder reads from: one byte, or the bytes of a named field. -/
structure CompactInput where
  byte : Nat → Except TreeStreamError UInt8
  field : String → Nat → Nat → Except TreeStreamError Bytes

def sliceInput (bytes : Bytes) : CompactInput where
  byte offset := orElseErr (.truncatedFrame offset) bytes[offset]?
  field what offset len := do
    refuse (2 ^ 64 ≤ offset + len) (.malformed (what ++ " overflow"))
    orElseErr (.truncatedFrame offset) (sliceAt bytes offset len)

/-- The streaming reader asks its source. An offset past a read never overflows: the read was in
the body. -/
def sourceInput (source : BytesTreeSource) : CompactInput where
  byte offset := do
    let byte ← source.readExactAt offset 1
    return byte.headD 0
  field _ offset len := source.readExactAt offset len

section Varint

def varintOverflow : TreeStreamError := .malformed "varint overflow"

def varintShifts : List Nat := (List.range 10).map (7 * ·)

/-- A bit shifted past the word is dropped. -/
def takeVarintFrom (byte : Nat → Except TreeStreamError UInt8) :
    List Nat → Nat → Nat → Except TreeStreamError (Nat × Nat)
  | [], _, _ => .error varintOverflow
  | shift :: shifts, value, offset => do
    let b ← byte offset
    let next := value ||| ((b &&& 0x7f).toNat <<< shift) % 2 ^ 64
    if b &&& 0x80 = 0 then return (next, offset + 1)
    else takeVarintFrom byte shifts next (offset + 1)

def CompactInput.takeVarint (input : CompactInput) (offset : Nat) :
    Except TreeStreamError (Nat × Nat) :=
  takeVarintFrom input.byte varintShifts 0 offset

end Varint

section Compact

/-- The target of a compact entry and the offset after it. The two decoders read a spoollink in
their own order. -/
def compactTarget (input : CompactInput)
    (takeSpoollink : Nat → Except TreeStreamError ((SpoolId × StateId) × Nat)) (name : String)
    (kind : EntryType) (mode : FileMode) (offset : Nat) :
    Except TreeStreamError (TreeEntry ContentHash × Nat) :=
  let takeHash : Except TreeStreamError ContentHash := do
    let bytes ← input.field "compact hash" offset 32
    orElseErr (.malformed "compact hash is not 32 bytes") (ContentHash.ofSlice bytes)
  match kind with
  | .blob => do
    let hash ← takeHash
    let entry ← liftTree (TreeEntry.file name hash (mode = .executable))
    return (entry, offset + 32)
  | .tree => do
    let hash ← takeHash
    let entry ← liftTree (TreeEntry.directory name hash)
    return (entry, offset + 32)
  | .symlink => do
    let hash ← takeHash
    let entry ← liftTree (TreeEntry.symlink name hash)
    return (entry, offset + 32)
  | .gitlink => do
    let tag ← input.byte offset
    let format ← liftTree (gitFormatFromTag tag)
    let oid ← input.field "compact gitlink length" (offset + 1) format.rawLen
    let target ← orElseErr (.malformed "invalid compact gitlink: ")
      (GitObjectId.fromRaw format oid)
    let entry ← liftTree (TreeEntry.gitlink name target)
    return (entry, offset + 1 + format.rawLen)
  | .spoollink => do
    let link ← takeSpoollink offset
    let entry ← liftTree (TreeEntry.spoollink name link.1.1 link.1.2)
    return (entry, link.2)

def compactEntry (input : CompactInput)
    (takeSpoollink : Nat → Except TreeStreamError ((SpoolId × StateId) × Nat)) (offset : Nat)
    (previous : String) : Except TreeStreamError (TreeEntry ContentHash × Nat) := do
  let tag ← input.byte offset
  let mode ← orElseErr (.malformed ("invalid compact entry mode " ++ toString (tag >>> 3).toNat))
    (FileMode.fromByte (tag >>> 3))
  let kind ← orElseErr (.malformed ("invalid compact entry kind " ++ toString (tag &&& 7).toNat))
    (EntryType.fromByte (tag &&& 7))
  let shared ← input.takeVarint (offset + 1)
  let suffixLen ← input.takeVarint shared.2
  refuse (shared.1 > (utf8 previous).length) (.malformed "compact name prefix exceeds predecessor")
  let suffix ← input.field "compact name length" suffixLen.2 suffixLen.1
  let name ← orElseErr (.malformed "compact entry name is not UTF-8")
    (fromUtf8 ((utf8 previous).take shared.1 ++ suffix))
  let entry ← compactTarget input takeSpoollink name kind mode (suffixLen.2 + suffixLen.1)
  refuse (entry.1.mode ≠ mode) (.malformed ("compact entry kind/mode mismatch for " ++
    entry.1.name ++ ": " ++ kind.debug ++ "/" ++ mode.debug))
  return entry

def sliceSpoollink (bytes : Bytes) (offset : Nat) :
    Except TreeStreamError ((SpoolId × StateId) × Nat) := do
  let input := sliceInput bytes
  let spoolLen ← input.takeVarint offset
  let spoolBytes ← input.field "compact spool length" spoolLen.2 spoolLen.1
  let spool ← orElseErr (.malformed "compact spool id is not UTF-8") (fromUtf8 spoolBytes)
  let stateBytes ← input.field "compact state" (spoolLen.2 + spoolLen.1) 32
  let state ← orElseErr (.malformed "compact state is not 32 bytes") (ContentHash.ofSlice stateBytes)
  let spoolId ← mapErr (fun err => .malformed ("invalid compact spool id: " ++ err))
    (SpoolId.parse spool)
  return ((spoolId, ⟨state.bytes⟩), spoolLen.2 + spoolLen.1 + 32)

def sourceSpoollink (source : BytesTreeSource) (offset : Nat) :
    Except TreeStreamError ((SpoolId × StateId) × Nat) := do
  let input := sourceInput source
  let spoolLen ← input.takeVarint offset
  let spoolBytes ← input.field "compact spool" spoolLen.2 spoolLen.1
  let spool ← orElseErr (.malformed "compact spool id is not UTF-8") (fromUtf8 spoolBytes)
  let spoolId ← mapErr (fun err => .malformed ("invalid compact spool id: " ++ err))
    (SpoolId.parse spool)
  let stateBytes ← input.field "compact state" (spoolLen.2 + spoolLen.1) 32
  let state ← orElseErr (.malformed "compact state is not 32 bytes") (ContentHash.ofSlice stateBytes)
  return ((spoolId, ⟨state.bytes⟩), spoolLen.2 + spoolLen.1 + 32)

def decodeCompactEntry (bytes : Bytes) (offset : Nat) (previous : String) :
    Except TreeStreamError (TreeEntry ContentHash × Nat) :=
  compactEntry (sliceInput bytes) (sliceSpoollink bytes) offset previous

def readCompactEntry (source : BytesTreeSource) (offset : Nat) (previous : String) :
    Except TreeStreamError (TreeEntry ContentHash × Nat) :=
  compactEntry (sourceInput source) (sourceSpoollink source) offset previous

end Compact

section Decode

def notSorted : TreeStreamError :=
  .invalid (.invalidStructure "entries must be strictly sorted by name")

def decodeLeanFrom (data : Bytes) : Nat → String → Nat → List (TreeEntry ContentHash) →
    Except TreeStreamError (List (TreeEntry ContentHash) × Nat)
  | 0, _, offset, entries => .ok (entries, offset)
  | wanted + 1, previous, offset, entries => do
    let entry ← decodeCompactEntry data offset previous
    refuse (previous ≠ "" ∧ entry.1.name ≤ previous) notSorted
    decodeLeanFrom data wanted entry.1.name entry.2 (entries ++ [entry.1])

def decodeLeanEntries (data : Bytes) (wanted : Nat) :
    Except TreeStreamError (List (TreeEntry ContentHash) × Nat) := do
  refuse (¬isLeanTree data) (.malformed "bytes are not an HLR1 tree anchor")
  let count ← (sliceInput data).takeVarint 4
  let entries ← decodeLeanFrom data (min wanted count.1) "" count.2 []
  refuse (min wanted count.1 = count.1 ∧ entries.2 ≠ data.length)
    (.trailingBytes (data.length - entries.2))
  return entries

def usizeMax : Nat := 2 ^ 64 - 1

/-- A complete lean body, checked against its object key. -/
def decodeLean (blake3 : Bytes → ContentHash) (data : Bytes) (expected : ContentHash) :
    Except TreeStreamError (Tree ContentHash) := do
  let decoded ← decodeLeanEntries data usizeMax
  refuse (decoded.2 ≠ data.length) (.trailingBytes (data.length - decoded.2))
  let tree ← liftTree (Tree.tryFromDecodedLayout decoded.1 [])
  let found := tree.hash blake3
  refuse (found ≠ expected) (.hashMismatch expected found)
  return tree

end Decode

def treeBlockEntries : Nat := 256
def treeBlockPreambleLen : Nat := 16
def treeBlockIndexLen : Nat := 24
def treeBlockCodecZstd : UInt8 := 1
def treeBlockMaxEntryFrameLen : Nat := 4 + 1 + 1 + 2 + 65535 + 2 + 65535 + 32
def treeBlockMaxRawLen : Nat := treeBlockEntries * treeBlockMaxEntryFrameLen
def treeBlockMaxExpansionRatio : Nat := 128 * 1024

structure TreeBlockHeader where
  blockEntries : Nat
  blockCount : Nat
  entryCount : Nat
  rawPayloadLen : Nat
  indexEnd : Nat
  deriving DecidableEq

structure TreeBlockIndex where
  rawOffset : Nat
  storedOffset : Nat
  storedLen : Nat
  rawLen : Nat
  deriving DecidableEq

structure DecodedBlock where
  block : Nat
  raw : Bytes
  frames : List (Nat × Nat)

def decodeBlockHeader (header : TreeHeader) (preamble : Bytes) (objectLen : Nat) :
    Except TreeStreamError TreeBlockHeader := do
  refuse (header.version ≠ treeBlockEncodingVersion) (.malformed "tree does not use block compression")
  refuse (preamble.length ≠ treeBlockPreambleLen) (.truncatedFrame treeHeaderLen)
  refuse (preamble.headD 0 ≠ treeBlockCodecZstd)
    (.malformed ("unsupported tree block codec " ++ toString (preamble.headD 0).toNat))
  refuse ((preamble.drop 1).headD 0 ≠ 0) (.malformed "unsupported tree block flags")
  let blockEntries := ofLeBytes ((preamble.drop 2).take 2)
  refuse (blockEntries = 0) (.malformed "tree block size must be nonzero")
  refuse (blockEntries > treeBlockEntries) (.malformed ("tree block entry count " ++
    toString blockEntries ++ " exceeds maximum " ++ toString treeBlockEntries))
  let blockCount := ofLeBytes ((preamble.drop 4).take 4)
  let rawPayloadLen := ofLeBytes ((preamble.drop 8).take 8)
  -- `div_ceil`
  refuse (blockCount ≠ (header.entryCount + blockEntries - 1) / blockEntries)
    (.malformed "tree block count does not match entry count")
  let indexEnd := treeHeaderLen + treeBlockPreambleLen + blockCount * treeBlockIndexLen
  let expectedObjectLen := treeHeaderLen + header.payloadLen
  refuse (2 ^ 64 ≤ expectedObjectLen) (.malformed "tree object length overflow")
  refuse (indexEnd > expectedObjectLen ∨ expectedObjectLen ≠ objectLen) (.truncatedFrame objectLen)
  return {
    blockEntries := blockEntries
    blockCount := blockCount
    entryCount := header.entryCount
    rawPayloadLen := rawPayloadLen
    indexEnd := indexEnd }

def validateBlockLengths (storedLen rawLen maxRawLen : Nat) : Except TreeStreamError Unit := do
  refuse (rawLen > maxRawLen) (.malformed ("tree block raw length " ++ toString rawLen ++
    " exceeds maximum " ++ toString maxRawLen))
  refuse (storedLen = 0 ∨ rawLen = 0) (.malformed "invalid empty or overlapping tree block")
  refuse (rawLen > storedLen * treeBlockMaxExpansionRatio)
    (.malformed ("tree block raw length " ++ toString rawLen ++ " exceeds " ++
      toString treeBlockMaxExpansionRatio ++ ":1 expansion limit for " ++ toString storedLen ++
      " stored bytes"))

def decodeBlockIndex (bytes : Bytes) (block : Nat) (blockHeader : TreeBlockHeader)
    (objectLen : Nat) : Except TreeStreamError TreeBlockIndex := do
  refuse (bytes.length ≠ treeBlockIndexLen ∨ blockHeader.blockCount ≤ block)
    (.malformed "invalid tree block index entry")
  let index : TreeBlockIndex := {
    rawOffset := ofLeBytes (bytes.take 8)
    storedOffset := ofLeBytes ((bytes.drop 8).take 8)
    storedLen := ofLeBytes ((bytes.drop 16).take 4)
    rawLen := ofLeBytes ((bytes.drop 20).take 4) }
  let firstEntry := block * blockHeader.blockEntries
  refuse (blockHeader.entryCount < firstEntry) (.malformed "tree block starts past entries")
  let entries := min (blockHeader.entryCount - firstEntry) blockHeader.blockEntries
  validateBlockLengths index.storedLen index.rawLen (entries * treeBlockMaxEntryFrameLen)
  refuse (index.storedOffset < blockHeader.indexEnd)
    (.malformed "invalid empty or overlapping tree block")
  refuse (index.storedOffset + index.storedLen > objectLen) (.truncatedFrame index.storedOffset)
  return index

def blockAnchorEnd (stored : Bytes) : Except TreeStreamError Nat := do
  let lenBytes ← orElseErr (.truncatedFrame 0) (sliceAt stored 0 4)
  let finish := 4 + ofLeBytes lenBytes
  refuse (finish > stored.length) (.truncatedFrame 0)
  return finish

section Blocks
variable (decompress : Bytes → Nat → Except String Bytes)

/-- `decompress` is the zstd library: the data of a compressed tail, of at most a given length. -/
def decompressBlockTail (data : Bytes) (capacity : Nat) : Except TreeStreamError Bytes := do
  refuse (capacity > treeBlockMaxRawLen) (.malformed ("tree block tail length " ++
    toString capacity ++ " exceeds maximum " ++ toString treeBlockMaxRawLen))
  let decoded ← mapErr .compression (decompress data capacity)
  refuse (decoded.length ≠ capacity) (.malformed "decoded tree block tail length mismatch")
  return decoded

/-- A stored block: kept raw, or an anchor frame followed by a compressed tail. -/
def decodeBlockPayload (stored : Bytes) (rawLen : Nat) : Except TreeStreamError Bytes := do
  validateBlockLengths stored.length rawLen treeBlockMaxRawLen
  if stored.length = rawLen then return stored
  else do
    let anchorEnd ← blockAnchorEnd stored
    refuse (anchorEnd ≥ rawLen) (.malformed "compressed tree block has no tail")
    let tail ← decompressBlockTail decompress (stored.drop anchorEnd) (rawLen - anchorEnd)
    let raw := stored.take anchorEnd ++ tail
    refuse (raw.length ≠ rawLen) (.malformed "decoded tree block length mismatch")
    return raw

def decodeBlockFramesFrom (raw : Bytes) : Nat → Nat → List (Nat × Nat) →
    Except TreeStreamError (List (Nat × Nat) × Nat)
  | 0, offset, frames => .ok (frames, offset)
  | expected + 1, offset, frames => do
    let lenBytes ← orElseErr (.truncatedFrame offset) (sliceAt raw offset 4)
    let frameEnd := offset + 4 + ofLeBytes lenBytes
    refuse (frameEnd > raw.length) (.truncatedFrame offset)
    decodeBlockFramesFrom raw expected frameEnd (frames ++ [(offset, frameEnd)])

def decodeBlockFrames (raw : Bytes) (expectedEntries : Nat) :
    Except TreeStreamError (List (Nat × Nat)) := do
  let frames ← decodeBlockFramesFrom raw expectedEntries 0 []
  refuse (frames.2 ≠ raw.length) (.trailingBytes (raw.length - frames.2))
  return frames.1

def readBlockIndex (source : BytesTreeSource) (blockHeader : TreeBlockHeader) (block : Nat) :
    Except TreeStreamError TreeBlockIndex := do
  let bytes ← source.readExactAt (treeHeaderLen + treeBlockPreambleLen + block * treeBlockIndexLen)
    treeBlockIndexLen
  decodeBlockIndex bytes block blockHeader source.bytes.length

def loadBlock (source : BytesTreeSource) (header : TreeHeader) (index : TreeBlockIndex)
    (block : Nat) (blockHeader : TreeBlockHeader) : Except TreeStreamError DecodedBlock := do
  let stored ← source.readExactAt index.storedOffset index.storedLen
  let raw ← decodeBlockPayload decompress stored index.rawLen
  let firstEntry := block * blockHeader.blockEntries
  refuse (header.entryCount < firstEntry) (.malformed "tree block starts past entries")
  let expectedEntries := min (header.entryCount - firstEntry) blockHeader.blockEntries
  let frames ← decodeBlockFrames raw expectedEntries
  return { block := block, raw := raw, frames := frames }

end Blocks

end Heddle
