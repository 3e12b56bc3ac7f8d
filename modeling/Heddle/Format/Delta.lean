import Heddle.Object.Frame

namespace Heddle.Format
open Heddle Heddle.Lib

def minMatchLengthLarge : Nat := 16
def minMatchLengthSmall : Nat := 8
def maxMatchCandidates : Nat := 1024
def matchChunkSize : Nat := 32
def maxCopyLength : Nat := 0xFFFFFF
def indexBlockSize : Nat := 16
def maxIndexBytes : Nat := 4 * 1024 * 1024
def denseIndexBelow : Nat := 1024

def byteOf (n i : Nat) : UInt8 := UInt8.ofNat (n / 256 ^ i)

/-- The header flag of a copy field's byte, and which byte of the field it stands for. -/
abbrev FieldFlag := UInt8 × Nat

def offsetFlags : List FieldFlag := [(0x01, 0), (0x02, 1), (0x04, 2), (0x08, 3)]

def sizeFlags : List FieldFlag := [(0x10, 0), (0x20, 1), (0x40, 2)]

section Index

structure IndexEntry where
  key : UInt32
  offset : UInt32
  deriving DecidableEq

structure DeltaIndex where
  entries : List IndexEntry

def beKey : Bytes → UInt32
  | [a, b, c, d] => a.toUInt32 <<< 24 ||| b.toUInt32 <<< 16 ||| c.toUInt32 <<< 8 ||| d.toUInt32
  | _ => 0

def IndexEntry.le (a b : IndexEntry) : Prop := a.key < b.key ∨ (a.key = b.key ∧ a.offset ≤ b.offset)

instance : DecidableRel IndexEntry.le := fun _ _ => inferInstanceAs (Decidable (_ ∨ _))

def divCeil (n m : Nat) : Nat := (n + (m - 1)) / m

def indexStride (baseLen lastOffset : Nat) : Nat :=
  if baseLen < denseIndexBelow then 1
  else
    let maxEntries := maxIndexBytes / 8
    divCeil (max (divCeil (lastOffset + 1) maxEntries) indexBlockSize) indexBlockSize *
      indexBlockSize

/-- The base is sampled at every `stride`th position that a 32-bit offset reaches. -/
def buildIndex (base : Bytes) : DeltaIndex :=
  if base.length < 4 then { entries := [] }
  else
    let lastOffset := min (base.length - 4) (2 ^ 32 - 1)
    let stride := indexStride base.length lastOffset
    let entries := (List.range (lastOffset / stride + 1)).map fun i =>
      { key := beKey ((base.drop (i * stride)).take 4), offset := UInt32.ofNat (i * stride) }
    { entries := entries.insertionSort IndexEntry.le }

end Index

section Match
variable (base target : Bytes)

def matchChunks (basePos targetPos maxLen len : Nat) : Nat :=
  if len + matchChunkSize ≤ maxLen ∧ (base.drop (basePos + len)).take matchChunkSize =
      (target.drop (targetPos + len)).take matchChunkSize then
    matchChunks basePos targetPos maxLen (len + matchChunkSize)
  else len
termination_by maxLen - len
decreasing_by
  rename_i h
  simp only [matchChunkSize] at *
  omega

def matchBytes (basePos targetPos maxLen len : Nat) : Nat :=
  if len < maxLen ∧ base[basePos + len]? = target[targetPos + len]? then
    matchBytes basePos targetPos maxLen (len + 1)
  else len
termination_by maxLen - len

/-- How far base and target agree, as long as every copy of the match starts at a 32-bit offset. -/
def matchLength (basePos targetPos : Nat) : Nat :=
  let maxLen := min (min (base.length - basePos) (target.length - targetPos))
    (2 ^ 32 - 1 - basePos + 1)
  matchBytes base target basePos targetPos maxLen
    (matchChunks base target basePos targetPos maxLen 0)

def bestOf (pos : Nat) : List IndexEntry → Nat × Nat → Nat × Nat
  | [], best => best
  | entry :: entries, best =>
    let length := matchLength base target entry.offset.toNat pos
    let best := if length > best.2 then (entry.offset.toNat, length) else best
    if length = target.length - pos then best else bestOf pos entries best

/-- The longest match at `pos` among the positions with its key: the lowest one, when there are too
many, and the last `maxMatchCandidates` of them. -/
def findBestMatch (index : DeltaIndex) (pos : Nat) (key : Option UInt32) (minMatch : Nat) :
    Option (Nat × Nat) := do
  let key ← key
  -- The run of the key in the sorted index.
  let offsets := index.entries.filter fun entry => entry.key = key
  let lowest ← offsets.head?
  let remaining := target.length - pos
  if offsets.length > maxMatchCandidates then
    let best := bestOf base target pos [lowest] (0, 0)
    if matchLength base target lowest.offset.toNat pos = remaining then return best
    let best := bestOf base target pos
      (offsets.drop (offsets.length - (maxMatchCandidates - 1))) best
    if best.2 ≥ minMatch then return best else none
  else
    let best := bestOf base target pos offsets (0, 0)
    if best.2 ≥ minMatch then return best else none

end Match

section Encode

def putField (value : Nat) (flags : List FieldFlag) : Bytes :=
  flags.filterMap fun flag => if byteOf value flag.2 ≠ 0 then some (byteOf value flag.2) else none

def fieldFlags (value : Nat) (flags : List FieldFlag) : UInt8 :=
  flags.foldl (fun cmd flag => if byteOf value flag.2 ≠ 0 then cmd ||| flag.1 else cmd) 0

/-- The lowest offset byte is always there, so that no command is the reserved `0x80`; the length
`0x10000` has no bytes. -/
def emitCopyInstruction (offset length : Nat) : Bytes :=
  let offset := offset % 2 ^ 32
  let length := length % 2 ^ 32
  let size := if length ≠ 0x10000 then length else 0
  (0x80 ||| 0x01 ||| fieldFlags offset offsetFlags.tail ||| fieldFlags size sizeFlags) ::
    (byteOf offset 0 :: (putField offset offsetFlags.tail ++ putField size sizeFlags))

def emitCopy (offset remaining : Nat) : Bytes :=
  if 0 < remaining then
    let chunk := min remaining maxCopyLength
    emitCopyInstruction offset chunk ++ emitCopy (offset + chunk) (remaining - chunk)
  else []
termination_by remaining
decreasing_by
  simp only [maxCopyLength]
  omega

def encodeInsert (data : Bytes) : Bytes :=
  if data = [] then []
  else UInt8.ofNat ((data.take 128).length - 1) :: (data.take 128 ++ encodeInsert (data.drop 128))
termination_by data.length
decreasing_by
  rename_i h
  have hpos := List.length_pos_iff.2 h
  rw [List.length_drop]
  omega

def minMatchFor (targetLen : Nat) : Nat :=
  if targetLen < 1024 then minMatchLengthSmall else minMatchLengthLarge

def targetKey (target : Bytes) (pos : Nat) : Option UInt32 :=
  (sliceAt target pos 4).map beKey

def rollTargetKey (key : Option UInt32) (target : Bytes) (pos : Nat) : Option UInt32 := do
  let next ← target[pos + 3]?
  let key ← key
  return key <<< 8 ||| next.toUInt32

variable (index : DeltaIndex) (base target : Bytes)

/-- Walks a literal until a match starts or `steps` bytes are taken: where it ends, and the key
there. -/
def literalRun (minMatch : Nat) : Nat → Nat → Option UInt32 → Nat × Option UInt32
  | 0, pos, key => (pos, key)
  | steps + 1, pos, key =>
    if pos < target.length then
      let key := rollTargetKey key target (pos + 1)
      if (findBestMatch base target index (pos + 1) key minMatch).isSome then (pos + 1, key)
      else literalRun minMatch steps (pos + 1) key
    else (pos, key)

/-- The loop of `encode_with_index`. A round moves on by at least one byte, so `fuel` rounds are
enough for as many bytes. -/
def encodeFrom (minMatch : Nat) : Nat → Nat → Option UInt32 → Bytes
  | 0, _, _ => []
  | fuel + 1, pos, key =>
    if pos < target.length then
      match findBestMatch base target index pos key minMatch with
      | some (offset, length) =>
        emitCopy offset length ++
          encodeFrom minMatch fuel (pos + length) (targetKey target (pos + length))
      | none =>
        let run := literalRun index base target minMatch 127 pos key
        let literal := (target.drop pos).take (run.1 - pos)
        (UInt8.ofNat literal.length - 1) ::
          (literal ++ encodeFrom minMatch fuel run.1 run.2)
    else []

def encodeWithIndex : Bytes :=
  if base = [] then encodeInsert target
  else encodeFrom index base target (minMatchFor target.length) target.length 0 (targetKey target 0)

def encode : Bytes :=
  if base = [] then encodeInsert target
  else encodeWithIndex (buildIndex base) base target

def copyInstructionSizeOne (offset length : Nat) : Nat :=
  let offset := offset % 2 ^ 32
  let length := length % 2 ^ 32
  let nonzero (value : Nat) (flags : List FieldFlag) :=
    (flags.filter fun flag => byteOf value flag.2 ≠ 0).length
  1 + 1 + nonzero offset offsetFlags.tail +
    if length ≠ 0x10000 then nonzero length sizeFlags else 0

def copyInstructionSize (offset remaining : Nat) : Nat :=
  if 0 < remaining then
    let chunk := min remaining maxCopyLength
    copyInstructionSizeOne offset chunk + copyInstructionSize (offset + chunk) (remaining - chunk)
  else 0
termination_by remaining
decreasing_by
  simp only [maxCopyLength]
  omega

def estimateFrom (minMatch : Nat) : Nat → Nat → Option UInt32 → Nat
  | 0, _, _ => 0
  | fuel + 1, pos, key =>
    if pos < target.length then
      match findBestMatch base target index pos key minMatch with
      | some (offset, length) =>
        copyInstructionSize offset length +
          estimateFrom minMatch fuel (pos + length) (targetKey target (pos + length))
      | none =>
        let run := literalRun index base target minMatch 127 pos key
        1 + (run.1 - pos) + estimateFrom minMatch fuel run.1 run.2
    else 0

def estimateDeltaSizeWithIndex : Nat :=
  if base = [] then target.length + divCeil target.length 128
  else
    estimateFrom index base target (minMatchFor target.length) target.length 0 (targetKey target 0)

def estimateDeltaSize : Nat :=
  if base = [] then target.length + divCeil target.length 128
  else estimateDeltaSizeWithIndex (buildIndex base) base target

end Encode

section Decode

inductive DeltaError where
  | outputLimitExceeded (attempted maxOutput : Nat)
  | truncatedLiteral (instructionOffset length available : Nat)
  | truncatedCopyInstruction (instructionOffset expectedBytes available : Nat)
  | invalidBaseRange (instructionOffset copyOffset copyEnd baseLen : Nat)
  | reservedInstruction (instructionOffset : Nat)
  deriving DecidableEq

def ensureOutputLimit (currentLen appendLen : Nat) (maxOutput : UInt64) : Except DeltaError Unit := do
  let attempted := currentLen + appendLen
  refuse (2 ^ 64 ≤ attempted) (.outputLimitExceeded (2 ^ 64 - 1) maxOutput.toNat)
  refuse (attempted > maxOutput.toNat) (.outputLimitExceeded attempted maxOutput.toNat)

def takeField (header : UInt8) : List FieldFlag → Nat → Bytes → Nat × Bytes
  | [], value, bytes => (value, bytes)
  | flag :: flags, value, bytes =>
    if header &&& flag.1 ≠ 0 then
      takeField header flags (value ||| (bytes.headD 0).toNat <<< (8 * flag.2)) bytes.tail
    else takeField header flags value bytes

def expectedBytes (header : UInt8) : Nat :=
  ((offsetFlags ++ sizeFlags).filter fun flag => header &&& flag.1 ≠ 0).length

/-- The loop of `decode`: the output so far and the delta from `pos` on. -/
def decodeFrom (base : Bytes) (maxOutput : UInt64) (pos : Nat) (target : Bytes) :
    Bytes → Except DeltaError Bytes
  | [] => .ok target
  | header :: rest =>
    if header &&& 0x80 = 0 then do
      let len := header.toNat + 1
      refuse (rest.length < len) (.truncatedLiteral pos len rest.length)
      ensureOutputLimit target.length len maxOutput
      decodeFrom base maxOutput (pos + 1 + len) (target ++ rest.take len) (rest.drop len)
    else do
      refuse (header = 0x80) (.reservedInstruction pos)
      let expected := expectedBytes header
      refuse (rest.length < expected) (.truncatedCopyInstruction pos expected rest.length)
      let offset := takeField header offsetFlags 0 (rest.take expected)
      let size := takeField header sizeFlags 0 offset.2
      let length := if size.1 = 0 then 0x10000 else size.1
      let copyEnd := offset.1 + length
      refuse (2 ^ 64 ≤ copyEnd) (.invalidBaseRange pos offset.1 (2 ^ 64 - 1) base.length)
      refuse (copyEnd > base.length) (.invalidBaseRange pos offset.1 copyEnd base.length)
      ensureOutputLimit target.length length maxOutput
      decodeFrom base maxOutput (pos + 1 + expected)
        (target ++ (base.drop offset.1).take length) (rest.drop expected)
termination_by delta => delta.length
decreasing_by
  · simp only [List.length_drop, List.length_cons]
    omega
  · simp only [List.length_drop, List.length_cons]
    omega

def decode (base delta : Bytes) (maxOutput : UInt64) : Except DeltaError Bytes :=
  decodeFrom base maxOutput 0 [] delta

end Decode
end Heddle.Format
