import Heddle.Lib.SortedEdit
import Heddle.Object.LeanEncode

namespace Heddle
open Heddle.Lib

def treeDeltaMagic : Bytes := utf8 "HDC1"
def treeDeltaEncodingVersion : UInt8 := 1
def treeDeltaHeaderLen : Nat := 59
def treeDeltaMaxOps : Nat := 512

def isDeltaTree (bytes : Bytes) : Bool := bytes.take 4 = treeDeltaMagic

abbrev TreeDeltaOp := Edit String (TreeEntry ContentHash)

abbrev TreeDeltaOp.name (op : TreeDeltaOp) : String := op.keyBy TreeEntry.name

/-- A header with its porches: how many operations and anchor entries the first entry and the first
hundred entries rest on, and where these operations end. -/
structure TreeDeltaHeader where
  anchor : ContentHash
  resultCount : Nat
  opCount : Nat
  firstOpCount : Nat
  firstBaseCount : Nat
  firstEnd : Nat
  hundredOpCount : Nat
  hundredBaseCount : Nat
  hundredEnd : Nat
  deriving DecidableEq

def treeDelta (anchor current : Tree ContentHash) : List TreeDeltaOp :=
  diffBy TreeEntry.name anchor.entries current.entries

def applyTreeDelta (anchor : Tree ContentHash) (ops : List TreeDeltaOp) :
    Except TreeStreamError (Tree ContentHash) := do
  refuse (anchor.scheme = .v4Salted)
    (.malformed "cannot apply an HDC1 delta to a v4 salted anchor")
  liftTree (Tree.tryFromDecodedLayout (editBy TreeEntry.name anchor.entries ops) [])

section Encode

def deltaPrefixCounts (anchor current : Tree ContentHash) (ops : List TreeDeltaOp) (count : Nat) :
    Except TreeStreamError (Nat × Nat) :=
  match (current.entries.take count).getLast? with
  | none => .ok (0, 0)
  | some last => do
    let opCount := (ops.takeWhile fun op => op.name ≤ last.name).length
    let baseCount := (anchor.entries.takeWhile fun e => e.name ≤ last.name).length
    refuse (2 ^ 16 ≤ opCount) (.malformed "delta porch op count exceeds u16")
    refuse (2 ^ 16 ≤ baseCount) (.malformed "delta porch anchor count exceeds u16")
    return (opCount, baseCount)

def encodeDeltaOp (previous : String) : TreeDeltaOp → Except TreeStreamError Bytes
  | .remove name => .ok (0 :: encodeSharedName previous name)
  | .upsert e => do
    let bytes ← encodeLeanEntry e previous
    return 1 :: bytes

def opsNotSorted : TreeStreamError := .malformed "tree delta operations must be strictly sorted"

def encodeDeltaOps (previous : String) : List TreeDeltaOp → Except TreeStreamError (List Bytes)
  | [] => .ok []
  | op :: ops => do
    let bytes ← encodeDeltaOp previous op
    refuse (previous ≠ "" ∧ op.name ≤ previous) opsNotSorted
    let rest ← encodeDeltaOps op.name ops
    return bytes :: rest

def deltaEndFor (frames : List Bytes) (count : Nat) : Except TreeStreamError Nat := do
  refuse (frames.length < count) (.malformed "delta porch exceeds operation count")
  let stop := treeDeltaHeaderLen + (frames.take count).flatten.length
  refuse (2 ^ 64 ≤ stop) (.malformed "delta porch offset overflow")
  refuse (2 ^ 32 ≤ stop) (.malformed "delta porch offset exceeds u32")
  return stop

def TreeDeltaHeader.encode (header : TreeDeltaHeader) : Bytes :=
  treeDeltaMagic ++ ([treeDeltaEncodingVersion] ++ (header.anchor.asBytes ++
    (leBytes 4 header.resultCount ++ (leBytes 2 header.opCount ++ (leBytes 2 header.firstOpCount ++
      (leBytes 2 header.firstBaseCount ++ (leBytes 4 header.firstEnd ++
        (leBytes 2 header.hundredOpCount ++ (leBytes 2 header.hundredBaseCount ++
          leBytes 4 header.hundredEnd)))))))))

variable (blake3 : Bytes → ContentHash)

def encodeTreeDelta (anchorId : ContentHash) (anchor current : Tree ContentHash)
    (ops : List TreeDeltaOp) : Except TreeStreamError Bytes := do
  refuse (anchor.scheme = .v4Salted ∨ current.scheme = .v4Salted)
    (.malformed "cannot encode a v4 salted tree as an HDC1 delta; use HSR1")
  refuse (anchor.hasGitLayout || current.hasGitLayout)
    (.malformed "cannot encode a tree with a git source layout as an HDC1 delta; use HTR4")
  liftTree anchor.validate
  liftTree current.validate
  refuse (anchor.hash blake3 ≠ anchorId) (.hashMismatch anchorId (anchor.hash blake3))
  refuse (ops.length > treeDeltaMaxOps) (.malformed ("tree delta has " ++ toString ops.length ++
    " operations; maximum is " ++ toString treeDeltaMaxOps))
  let applied ← applyTreeDelta anchor ops
  refuse (applied ≠ current) (.malformed "tree delta operations do not reconstruct the result")
  refuse (2 ^ 32 ≤ current.entries.length) (.malformed "delta result count exceeds u32")
  refuse (2 ^ 16 ≤ ops.length) (.malformed "delta operation count exceeds u16")
  let first ← deltaPrefixCounts anchor current ops 1
  let hundred ← deltaPrefixCounts anchor current ops 100
  let frames ← encodeDeltaOps "" ops
  let firstEnd ← deltaEndFor frames first.1
  let hundredEnd ← deltaEndFor frames hundred.1
  let header : TreeDeltaHeader := {
    anchor := anchorId
    resultCount := current.entries.length
    opCount := ops.length
    firstOpCount := first.1
    firstBaseCount := first.2
    firstEnd := firstEnd
    hundredOpCount := hundred.1
    hundredBaseCount := hundred.2
    hundredEnd := hundredEnd }
  refuse (header.encode.length ≠ treeDeltaHeaderLen)
    (.malformed "internal HDC1 header length mismatch")
  return header.encode ++ frames.flatten

end Encode

section Decode

def readLeAt (data : Bytes) (offset width : Nat) : Except TreeStreamError Nat := do
  let bytes ← orElseErr (.truncatedFrame offset) (sliceAt data offset width)
  return ofLeBytes bytes

def deltaHeaderFields (data : Bytes) : Except TreeStreamError TreeDeltaHeader := do
  let anchor ← orElseErr (.malformed "delta anchor hash is not 32 bytes")
    (ContentHash.ofSlice ((data.drop 5).take 32))
  let resultCount ← readLeAt data 37 4
  let opCount ← readLeAt data 41 2
  let firstOpCount ← readLeAt data 43 2
  let firstBaseCount ← readLeAt data 45 2
  let firstEnd ← readLeAt data 47 4
  let hundredOpCount ← readLeAt data 51 2
  let hundredBaseCount ← readLeAt data 53 2
  let hundredEnd ← readLeAt data 55 4
  return {
    anchor := anchor
    resultCount := resultCount
    opCount := opCount
    firstOpCount := firstOpCount
    firstBaseCount := firstBaseCount
    firstEnd := firstEnd
    hundredOpCount := hundredOpCount
    hundredBaseCount := hundredBaseCount
    hundredEnd := hundredEnd }

def TreeDeltaHeader.outOfBounds (header : TreeDeltaHeader) (objectLen : Nat) : Prop :=
  header.opCount > treeDeltaMaxOps ∨ header.firstOpCount > header.opCount ∨
    header.hundredOpCount > header.opCount ∨ header.firstEnd < treeDeltaHeaderLen ∨
    header.hundredEnd < header.firstEnd ∨ header.hundredEnd > objectLen

instance (header : TreeDeltaHeader) (objectLen : Nat) : Decidable (header.outOfBounds objectLen) :=
  inferInstanceAs (Decidable (_ ∨ _))

/-- The header of a delta from the front of its bytes, its offsets checked against the whole. -/
def decodeTreeDeltaHeaderPrefix (data : Bytes) (objectLen : Nat) :
    Except TreeStreamError TreeDeltaHeader := do
  refuse (data.length < treeDeltaHeaderLen) (.truncatedFrame 0)
  refuse (¬isDeltaTree data) (.malformed "bytes are not an HDC1 tree delta")
  let version := headerVersion data
  refuse (version ≠ treeDeltaEncodingVersion) (.unsupportedVersion version)
  let header ← deltaHeaderFields data
  refuse (header.outOfBounds objectLen) (.malformed "invalid HDC1 porch or operation bounds")
  return header

def decodeDeltaOp (data : Bytes) (offset : Nat) (previous : String) :
    Except TreeStreamError (TreeDeltaOp × Nat) := do
  let input := sliceInput data
  let opcode ← input.byte offset
  if opcode = 0 then
    let shared ← input.takeVarint (offset + 1)
    let suffixLen ← input.takeVarint shared.2
    refuse (shared.1 > (utf8 previous).length)
      (.malformed "delta name prefix exceeds predecessor")
    let suffix ← input.field "delta name length" suffixLen.2 suffixLen.1
    let name ← orElseErr (.malformed "delta name is not UTF-8")
      (fromUtf8 ((utf8 previous).take shared.1 ++ suffix))
    return (.remove name, suffixLen.2 + suffixLen.1)
  else if opcode = 1 then
    let entry ← decodeCompactEntry data (offset + 1) previous
    return (.upsert entry.1, entry.2)
  else .error (.malformed ("invalid tree delta opcode " ++ toString opcode.toNat))

def decodeDeltaOpsFrom (data : Bytes) : Nat → String → Nat → List TreeDeltaOp →
    Except TreeStreamError (List TreeDeltaOp × Nat)
  | 0, _, offset, ops => .ok (ops, offset)
  | wanted + 1, previous, offset, ops => do
    let op ← decodeDeltaOp data offset previous
    refuse (previous ≠ "" ∧ op.1.name ≤ previous) opsNotSorted
    decodeDeltaOpsFrom data wanted op.1.name op.2 (ops ++ [op.1])

/-- The first `wanted` operations of a delta of `objectLen` bytes, from the front of its bytes. -/
def decodeTreeDeltaOpsPrefix (data : Bytes) (objectLen wanted : Nat) :
    Except TreeStreamError (TreeDeltaHeader × List TreeDeltaOp × Nat) := do
  let header ← decodeTreeDeltaHeaderPrefix data objectLen
  refuse (wanted > header.opCount)
    (.malformed "partial delta operation count exceeds object")
  let decoded ← decodeDeltaOpsFrom data wanted "" treeDeltaHeaderLen []
  refuse ((wanted = header.firstOpCount ∧ decoded.2 ≠ header.firstEnd) ∨
      (wanted = header.hundredOpCount ∧ decoded.2 ≠ header.hundredEnd))
    (.malformed "HDC1 porch offset does not match decoded operations")
  return (header, decoded.1, decoded.2)

def decodeTreeDeltaHeader (data : Bytes) : Except TreeStreamError TreeDeltaHeader :=
  decodeTreeDeltaHeaderPrefix data data.length

def decodeTreeDeltaOps (data : Bytes) (wanted : Nat) :
    Except TreeStreamError (TreeDeltaHeader × List TreeDeltaOp × Nat) :=
  decodeTreeDeltaOpsPrefix data data.length wanted

variable (blake3 : Bytes → ContentHash)

def decodeTreeDelta (data : Bytes) (anchor : Tree ContentHash) (expected : ContentHash) :
    Except TreeStreamError (Tree ContentHash) := do
  let header ← decodeTreeDeltaHeader data
  let decoded ← decodeTreeDeltaOps data header.opCount
  refuse (decoded.2.2 ≠ data.length) (.trailingBytes (data.length - decoded.2.2))
  let anchorFound := anchor.hash blake3
  refuse (anchorFound ≠ decoded.1.anchor) (.hashMismatch decoded.1.anchor anchorFound)
  let tree ← applyTreeDelta anchor decoded.2.1
  refuse (tree.entries.length ≠ decoded.1.resultCount)
    (.malformed "delta result count does not match reconstructed tree")
  let found := tree.hash blake3
  refuse (found ≠ expected) (.hashMismatch expected found)
  return tree

end Decode
end Heddle
