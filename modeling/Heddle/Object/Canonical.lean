import Heddle.Object.Frame
import Heddle.Object.PartialTree
import Heddle.Lib.Framing

namespace Heddle
open Heddle.Lib

def treeCanonicalMagic : Bytes := utf8 "HTR4"
def treeLeanMagic : Bytes := utf8 "HLR1"
def treeSaltedMagic : Bytes := utf8 "HSR1"
def treeRedactedMagic : Bytes := utf8 "HRT1"

def treeEncodingVersion : UInt8 := 4
def treeBlockEncodingVersion : UInt8 := 5
def treeSaltedEncodingVersion : UInt8 := 1
def treeRedactedEncodingVersion : UInt8 := 1
def treeHeaderLen : Nat := 61
def treeRedactedHeaderLen : Nat := 45

def isCanonicalTree (bytes : Bytes) : Bool := bytes.take 4 = treeCanonicalMagic
def isLeanTree (bytes : Bytes) : Bool := bytes.take 4 = treeLeanMagic
def isSaltedTree (bytes : Bytes) : Bool := bytes.take 4 = treeSaltedMagic
def isRedactedTree (bytes : Bytes) : Bool := bytes.take 4 = treeRedactedMagic

@[ext] structure TreeHeader where
  version : UInt8
  treeId : ContentHash
  entryCount : Nat
  payloadLen : Nat
  logicalLen : Nat
  deriving DecidableEq

def TreeHeader.encode (header : TreeHeader) (magic : Bytes) : Bytes :=
  magic ++ header.version :: (header.treeId.asBytes ++ leBytes 8 header.entryCount ++
    leBytes 8 header.payloadLen ++ leBytes 8 header.logicalLen)

def headerVersion (data : Bytes) : UInt8 := (data.drop 4).headD 0

def headerFields (data : Bytes) : Except TreeStreamError TreeHeader := do
  let treeId ← orElseErr (.malformed "tree id slice is not 32 bytes")
    (ContentHash.ofSlice ((data.drop 5).take 32))
  return {
    version := headerVersion data
    treeId := treeId
    entryCount := ofLeBytes ((data.drop 37).take 8)
    payloadLen := ofLeBytes ((data.drop 45).take 8)
    logicalLen := ofLeBytes ((data.drop 53).take 8) }

def decodeHeader (data : Bytes) : Except TreeStreamError TreeHeader := do
  refuse (data.length < treeHeaderLen) (.truncatedFrame 0)
  refuse (¬isCanonicalTree data) (.malformed "bytes are not a canonical HTR4 tree")
  let version := headerVersion data
  refuse (version ≠ treeEncodingVersion ∧ version ≠ treeBlockEncodingVersion)
    (.unsupportedVersion version)
  headerFields data

section Encode

/-- The loop of both encoders: the payload so far and the logical length. -/
def encodeBody (encode : α → Except TreeStreamError Bytes) (encodedLen : α → Nat)
    (name : α → String) (items : List α) : Except TreeStreamError (Bytes × Nat) :=
  items.foldlM (fun state item => do
    let logicalLen := state.2 + encodedLen item
    refuse (2 ^ 64 ≤ logicalLen) (.malformed "logical length overflow")
    let frame ← encode item
    refuse (2 ^ 32 ≤ frame.length) (.malformed ("entry '" ++ name item ++ "' frame exceeds u32"))
    return (state.1 ++ framed frame, logicalLen)) ([], 0)

/-- The salt rides in front of the entry's frame. -/
def encodeSaltedEntryFrame (e : TreeEntry ContentHash) (salt : Vector UInt8 32) :
    Except TreeStreamError Bytes := do
  let inner ← encodeEntryFrame e none
  return salt.toList ++ inner

variable (blake3 : Bytes → ContentHash)

def Tree.encodeSaltedV4 (t : Tree ContentHash) : Except TreeStreamError Bytes := do
  refuse (t.scheme ≠ .v4Salted) (.malformed "HSR1 encoding requires a v4 salted tree")
  liftTree t.validate
  let body ← encodeBody (fun p => encodeSaltedEntryFrame p.1 p.2) (fun p => p.1.encodedLen none)
    (fun p => p.1.name) t.salted
  let header : TreeHeader := {
    version := treeSaltedEncodingVersion
    treeId := t.hash blake3
    entryCount := t.entries.length
    payloadLen := body.1.length
    logicalLen := body.2 }
  return header.encode treeSaltedMagic ++ body.1

def Tree.encodeCanonical (t : Tree ContentHash) : Except TreeStreamError Bytes :=
  if t.scheme = .v4Salted then t.encodeSaltedV4 blake3
  else do
    liftTree t.validate
    let body ← encodeBody (fun p => encodeEntryFrame p.1 p.2) (fun p => p.1.encodedLen p.2)
      (fun p => p.1.name) t.positioned
    let header : TreeHeader := {
      version := treeEncodingVersion
      treeId := t.hash blake3
      entryCount := t.entries.length
      payloadLen := body.1.length
      logicalLen := body.2 }
    return header.encode treeCanonicalMagic ++ body.1

end Encode

section Decode

/-- Every entry records a source position, or none does. -/
def pushPosition (positions : List UInt32) (index : Nat) :
    Option UInt32 → Except TreeStreamError (List UInt32)
  | some position =>
    if positions.length = index then .ok (positions ++ [position])
    else .error (.malformed "source positions must be recorded on every entry or none")
  | none =>
    if positions = [] then .ok []
    else .error (.malformed "source positions must be recorded on every entry or none")

structure DecodedEntries where
  entries : List (TreeEntry ContentHash) := []
  positions : List UInt32 := []

def DecodedEntries.push (decoded : DecodedEntries) (item : TreeEntry ContentHash × Option UInt32) :
    Except TreeStreamError DecodedEntries := do
  let positions ← pushPosition decoded.positions decoded.entries.length item.2
  return { entries := decoded.entries ++ [item.1], positions := positions }

def Tree.tryFromDecodedLayout (entries : List (TreeEntry ContentHash))
    (sourcePositions : List UInt32) : Except TreeError (Tree ContentHash) := do
  let tree : Tree ContentHash := { entries := entries, sourcePositions := sourcePositions }
  tree.validate
  return tree

def Tree.tryFromDecodedEntriesSaltedV4 (entries : List (TreeEntry ContentHash))
    (salts : List (Vector UInt8 32)) : Except TreeError (Tree ContentHash) := do
  refuse (entries.length ≠ salts.length) (.invalidStructure ("v4 tree has " ++
    toString entries.length ++ " entries but " ++ toString salts.length ++ " salts"))
  let tree : Tree ContentHash := { entries := entries, scheme := .v4Salted, salts := salts }
  tree.validate
  return tree

def logicalLenMismatch : TreeStreamError :=
  .malformed "declared logical length does not match entries"

variable (blake3 : Bytes → ContentHash)

def Tree.decodeRaw (data : Bytes) (header : TreeHeader) :
    Except TreeStreamError (Tree ContentHash) := do
  let expectedLen := treeHeaderLen + header.payloadLen
  refuse (data.length < expectedLen) (.truncatedFrame data.length)
  refuse (data.length > expectedLen) (.trailingBytes (data.length - expectedLen))
  let decoded ← foldFrames .truncatedFrame (fun (decoded : DecodedEntries) frame => do
      let item ← decodeEntryFrame frame
      decoded.push item) data data.length header.entryCount treeHeaderLen {}
  refuse (decoded.2 ≠ data.length) (.trailingBytes (data.length - decoded.2))
  let tree ← liftTree (tryFromDecodedLayout decoded.1.entries decoded.1.positions)
  let found := tree.hash blake3
  refuse (found ≠ header.treeId) (.hashMismatch header.treeId found)
  refuse ((tree.positioned.map (fun p => p.1.encodedLen p.2)).sum ≠ header.logicalLen)
    logicalLenMismatch
  return tree

def decodeSaltedEntryFrame (frame : Bytes) :
    Except TreeStreamError (TreeEntry ContentHash × Vector UInt8 32) := do
  refuse (frame.length < 32) (.truncatedFrame 0)
  let salt ← orElseErr (.malformed "salted frame salt is not 32 bytes")
    (ContentHash.ofSlice (frame.take 32))
  let item ← decodeEntryFrame (frame.drop 32)
  refuse item.2.isSome (.malformed "salted v4 entries do not record a git source position")
  return (item.1, salt.bytes)

def decodeSaltedV4 (data : Bytes) : Except TreeStreamError (Tree ContentHash) := do
  refuse (¬isSaltedTree data) (.malformed "bytes are not an HSR1 salted tree")
  refuse (data.length < treeHeaderLen) (.truncatedFrame 0)
  let version := headerVersion data
  refuse (version ≠ treeSaltedEncodingVersion) (.unsupportedVersion version)
  let header ← headerFields data
  let expectedLen := treeHeaderLen + header.payloadLen
  refuse (data.length < expectedLen) (.truncatedFrame data.length)
  refuse (data.length > expectedLen) (.trailingBytes (data.length - expectedLen))
  let decoded ← foldFrames .truncatedFrame
    (fun (items : List (TreeEntry ContentHash × Vector UInt8 32)) frame => do
      let item ← decodeSaltedEntryFrame frame
      return items ++ [item]) data data.length header.entryCount treeHeaderLen []
  refuse (decoded.2 ≠ data.length) (.trailingBytes (data.length - decoded.2))
  let tree ← liftTree (Tree.tryFromDecodedEntriesSaltedV4 (decoded.1.map Prod.fst)
    (decoded.1.map Prod.snd))
  let found := tree.hash blake3
  refuse (found ≠ header.treeId) (.hashMismatch header.treeId found)
  refuse ((tree.entries.map (fun e => e.encodedLen none)).sum ≠ header.logicalLen)
    logicalLenMismatch
  return tree

end Decode
end Heddle
