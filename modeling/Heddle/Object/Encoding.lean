import Heddle.Object.Tree
import Heddle.Lib.ByteCodec

namespace Heddle
open Heddle.Lib
open List hiding Vector format tail toString

@[ext] structure ContentHash where
  bytes : Vector UInt8 32
  deriving DecidableEq

namespace ContentHash

def asBytes (hash : ContentHash) : Bytes := hash.bytes.toList

@[simp] theorem asBytes_length (hash : ContentHash) : hash.asBytes.length = 32 :=
  hash.bytes.length_toList

theorem asBytes_injective : Function.Injective asBytes := by
  intro a b h
  exact ContentHash.ext (Vector.toList_inj.1 h)

def ofSlice (slice : Bytes) : Option ContentHash :=
  if h : slice.length = 32 then some ⟨⟨slice.toArray, h⟩⟩ else none

@[simp] theorem ofSlice_asBytes (hash : ContentHash) : ofSlice hash.asBytes = some hash := by
  rw [ofSlice, dif_pos hash.asBytes_length]
  rfl

theorem asBytes_of_ofSlice {hash : ContentHash} (h : ofSlice slice = some hash) : hash.asBytes = slice := by
  unfold ofSlice at h
  split at h
  · cases h
    rfl
  · cases h

end ContentHash

/-- The typed hash of `content`; `blake3` is the hash function itself. -/
def computeTypedWithLen (blake3 : Bytes → ContentHash) (typePrefix : String) (contentLen : Nat)
    (content : Bytes) : ContentHash :=
  blake3 (utf8 typePrefix ++ leBytes 8 contentLen ++ [0] ++ content)

def computeTyped (blake3 : Bytes → ContentHash) (typePrefix : String) (content : Bytes) :
    ContentHash :=
  computeTypedWithLen blake3 typePrefix content.length content

def treeEmptyPrefix : String := "tree"
def treeV4LeafPrefix : String := "tree-v4-leaf"
def treeV4NodePrefix : String := "tree-v4-node"

def FileMode.toByte : FileMode → UInt8
  | .normal => 0
  | .executable => 1
  | .symlink => 2
  | .gitlink => 3
  | .spoollink => 4

def FileMode.fromByte (b : UInt8) : Option FileMode :=
  if b = 0 then some .normal
  else if b = 1 then some .executable
  else if b = 2 then some .symlink
  else if b = 3 then some .gitlink
  else if b = 4 then some .spoollink
  else none

@[simp] theorem FileMode.fromByte_toByte (mode : FileMode) :
    FileMode.fromByte mode.toByte = some mode := by
  cases mode <;> rfl

theorem FileMode.toByte_of_fromByte (h : FileMode.fromByte b = some mode) : mode.toByte = b := by
  unfold fromByte at h
  split_ifs at h with h0 h1 h2 h3 h4
  all_goals cases h
  all_goals exact Eq.symm ‹_›

def EntryType.toByte : EntryType → UInt8
  | .blob => 0
  | .tree => 1
  | .symlink => 2
  | .gitlink => 3
  | .spoollink => 4

def EntryType.fromByte (b : UInt8) : Option EntryType :=
  if b = 0 then some .blob
  else if b = 1 then some .tree
  else if b = 2 then some .symlink
  else if b = 3 then some .gitlink
  else if b = 4 then some .spoollink
  else none

@[simp] theorem EntryType.fromByte_toByte (kind : EntryType) :
    EntryType.fromByte kind.toByte = some kind := by
  cases kind <;> rfl

theorem EntryType.toByte_of_fromByte (h : EntryType.fromByte b = some kind) : kind.toByte = b := by
  unfold fromByte at h
  split_ifs at h with h0 h1 h2 h3 h4
  all_goals cases h
  all_goals exact Eq.symm ‹_›

theorem EntryType.toByte_injective : Function.Injective EntryType.toByte := by
  intro a b h
  have hback := congrArg EntryType.fromByte h
  rwa [fromByte_toByte, fromByte_toByte, Option.some.injEq] at hback

inductive GitObjectFormat where
  | sha1
  | sha256
  deriving DecidableEq

def GitObjectFormat.rawLen : GitObjectFormat → Nat
  | .sha1 => 20
  | .sha256 => 32

def GitObjectId.format : GitObjectId → GitObjectFormat
  | .sha1 _ => .sha1
  | .sha256 _ => .sha256

@[simp] theorem GitObjectId.asBytes_length (target : GitObjectId) :
    target.asBytes.length = target.format.rawLen := by
  cases target with
  | sha1 bytes => exact bytes.length_toList
  | sha256 bytes => exact bytes.length_toList

/-- What the library says of another length is left out: every caller has checked the length. -/
def GitObjectId.fromRaw (format : GitObjectFormat) (raw : Bytes) : Option GitObjectId :=
  match format with
  | .sha1 => if h : raw.length = 20 then some (.sha1 ⟨raw.toArray, h⟩) else none
  | .sha256 => if h : raw.length = 32 then some (.sha256 ⟨raw.toArray, h⟩) else none

@[simp] theorem GitObjectId.fromRaw_asBytes (target : GitObjectId) :
    GitObjectId.fromRaw target.format target.asBytes = some target := by
  cases target with
  | sha1 bytes => exact dif_pos bytes.length_toList
  | sha256 bytes => exact dif_pos bytes.length_toList

theorem GitObjectId.asBytes_of_fromRaw {format : GitObjectFormat}
    (h : GitObjectId.fromRaw format raw = some target) :
    target.format = format ∧ target.asBytes = raw := by
  cases format with
  | sha1 =>
    simp only [fromRaw] at h
    split at h
    · cases h
      exact ⟨rfl, rfl⟩
    · cases h
  | sha256 =>
    simp only [fromRaw] at h
    split at h
    · cases h
      exact ⟨rfl, rfl⟩
    · cases h

def gitFormatToTag : GitObjectFormat → UInt8
  | .sha1 => 1
  | .sha256 => 2

def gitFormatFromTag (tag : UInt8) : Except TreeError GitObjectFormat :=
  if tag = 1 then .ok .sha1
  else if tag = 2 then .ok .sha256
  else .error (.invalidStructure ("unknown git object format tag " ++ toString tag.toNat))

@[simp] theorem gitFormatFromTag_toTag (format : GitObjectFormat) :
    gitFormatFromTag (gitFormatToTag format) = .ok format := by
  cases format <;> rfl

theorem gitFormatToTag_of_fromTag (h : gitFormatFromTag tag = .ok format) :
    gitFormatToTag format = tag := by
  unfold gitFormatFromTag at h
  split_ifs at h with h1 h2
  all_goals cases h
  all_goals exact Eq.symm ‹_›

theorem gitFormatToTag_injective : Function.Injective gitFormatToTag := by
  intro a b h
  cases a <;> cases b <;> first | rfl | exact absurd h (by decide)

def TreeEntryTarget.payload : TreeEntryTarget ContentHash → Bytes
  | .blob hash _ => hash.asBytes
  | .tree hash => hash.asBytes
  | .symlink hash => hash.asBytes
  | .gitlink target => gitFormatToTag target.format :: target.asBytes
  | .spoollink spoolId stateId =>
    leBytes 4 (utf8 spoolId.text).length ++ utf8 spoolId.text ++ stateId.bytes.toList

def TreeEntryTarget.encodedPayloadLen : TreeEntryTarget ContentHash → Nat
  | .blob .. => 32
  | .tree .. => 32
  | .symlink .. => 32
  | .gitlink target => target.asBytes.length
  | .spoollink spoolId _ => 4 + (utf8 spoolId.text).length + 32

def TreeEntryTarget.writePayload (target : TreeEntryTarget ContentHash) (layoutFlags : UInt8) :
    Bytes :=
  (target.mode.toByte ||| layoutFlags) :: target.entryType.toByte :: target.payload

def entryFlagRawGitMode : UInt8 := 0x80
def entryFlagSourcePosition : UInt8 := 0x40
def entryLayoutFlags : UInt8 := entryFlagRawGitMode ||| entryFlagSourcePosition

/-- The flags and the plain mode byte of a stored mode byte. -/
def splitLayoutFlags (byte : UInt8) : UInt8 × UInt8 :=
  (byte &&& entryLayoutFlags, byte &&& ~~~entryLayoutFlags)

def layoutTrailerLen (flags : UInt8) : Nat :=
  (if flags &&& entryFlagRawGitMode ≠ 0 then 5 else 0) +
    (if flags &&& entryFlagSourcePosition ≠ 0 then 4 else 0)

def layoutFlagsOf (rawGitMode sourcePosition : Bool) : UInt8 :=
  (if rawGitMode then entryFlagRawGitMode else 0) |||
    (if sourcePosition then entryFlagSourcePosition else 0)

section
variable (rawGitMode sourcePosition : Bool)

theorem layoutTrailerLen_flagsOf :
    layoutTrailerLen (layoutFlagsOf rawGitMode sourcePosition) =
      (if rawGitMode then 5 else 0) + (if sourcePosition then 4 else 0) := by
  cases rawGitMode <;> cases sourcePosition <;> decide

theorem layoutFlagsOf_rawGitMode :
    layoutFlagsOf rawGitMode sourcePosition &&& entryFlagRawGitMode ≠ 0 ↔ rawGitMode = true := by
  cases rawGitMode <;> cases sourcePosition <;> decide

theorem layoutFlagsOf_sourcePosition :
    layoutFlagsOf rawGitMode sourcePosition &&& entryFlagSourcePosition ≠ 0 ↔
      sourcePosition = true := by
  cases rawGitMode <;> cases sourcePosition <;> decide

end

theorem splitLayoutFlags_or (mode : FileMode) (rawGitMode sourcePosition : Bool) :
    splitLayoutFlags (mode.toByte ||| layoutFlagsOf rawGitMode sourcePosition) =
      (layoutFlagsOf rawGitMode sourcePosition, mode.toByte) := by
  cases mode <;> cases rawGitMode <;> cases sourcePosition <;> decide

namespace TreeEntry

def layoutFlags (e : TreeEntry H) (sourcePosition : Option UInt32) : UInt8 :=
  layoutFlagsOf e.gitMode.isSome sourcePosition.isSome

def rawModeBytes (mode : RawGitMode) : Bytes := leBytes 4 mode.value.toNat ++ [mode.leadingZeros]

def positionBytes : Option UInt32 → Bytes
  | some position => leBytes 4 position.toNat
  | none => []

def layoutTrailer (e : TreeEntry H) (sourcePosition : Option UInt32) : Bytes :=
  (match e.gitMode with
    | some mode => rawModeBytes mode
    | none => []) ++ positionBytes sourcePosition

@[simp] theorem rawModeBytes_length (mode : RawGitMode) : (rawModeBytes mode).length = 5 := by
  simp only [rawModeBytes, length_append, length_leBytes, length_cons, length_nil]

theorem rawModeBytes_injective : Function.Injective rawModeBytes := by
  intro a b h
  obtain ⟨hvalue, hzeros⟩ := append_inj' h rfl
  have hnat := leBytes_inj a.value.toNat_lt b.value.toNat_lt hvalue
  cases a
  cases b
  simp only [cons.injEq, and_true] at hzeros
  simp only [RawGitMode.mk.injEq]
  exact ⟨UInt32.toNat_inj.1 hnat, hzeros⟩

theorem layoutTrailer_length (e : TreeEntry H) (sourcePosition : Option UInt32) :
    (e.layoutTrailer sourcePosition).length = layoutTrailerLen (e.layoutFlags sourcePosition) := by
  rw [layoutFlags, layoutTrailerLen_flagsOf]
  cases hm : e.gitMode <;> cases sourcePosition <;>
    simp only [layoutTrailer, positionBytes, hm, length_append, rawModeBytes_length,
      length_leBytes, length_nil] <;> rfl

def encodedLen (e : TreeEntry ContentHash) (sourcePosition : Option UInt32) : Nat :=
  1 + 1 + e.target.encodedPayloadLen + (utf8 e.name).length + 1 +
    layoutTrailerLen (e.layoutFlags sourcePosition)

def updateHasher (e : TreeEntry ContentHash) (sourcePosition : Option UInt32) : Bytes :=
  e.target.writePayload (e.layoutFlags sourcePosition) ++ utf8 e.name ++ [0] ++
    e.layoutTrailer sourcePosition

end TreeEntry

namespace Tree

def salted (t : Tree H) : List (TreeEntry H × Vector UInt8 32) := t.entries.zip t.salts

def positioned (t : Tree H) : List (TreeEntry H × Option UInt32) :=
  t.entries.zipIdx.map (fun p => (p.1, t.sourcePositions[p.2]?))

def flatHashV3 (blake3 : Bytes → ContentHash) (t : Tree ContentHash) : ContentHash :=
  computeTypedWithLen blake3 treeEmptyPrefix
    (t.positioned.map (fun p => p.1.encodedLen p.2)).sum
    (t.positioned.flatMap (fun p => p.1.updateHasher p.2))

def v4LeafPreimage (e : TreeEntry ContentHash) (salt : Vector UInt8 32) : Bytes :=
  salt.toList ++ e.target.writePayload (e.layoutFlags none) ++
    leBytes 2 (utf8 e.name).length ++ utf8 e.name ++ e.layoutTrailer none

def v4LeafHash (blake3 : Bytes → ContentHash) (e : TreeEntry ContentHash)
    (salt : Vector UInt8 32) : ContentHash :=
  computeTyped blake3 treeV4LeafPrefix (v4LeafPreimage e salt)

end Tree

@[simp] theorem utf8_length (s : String) : (utf8 s).length = s.utf8ByteSize := rfl

theorem validateName_length (h : validateName name = .ok ()) : (utf8 name).length ≤ 65535 := by
  simp only [validateName] at h
  split_ifs at h with h1 h2 h3 h4 h5
  rw [utf8_length]
  omega

/-- What the payload of a target says, once the lengths of two spool ids are known to agree. -/
theorem TreeEntryTarget.eq_of_payload {a b : TreeEntryTarget ContentHash}
    (hkind : a.entryType = b.entryType) (hmode : a.mode = b.mode)
    (hspool : ∀ spoolId stateId spoolId' stateId', a = .spoollink spoolId stateId →
      b = .spoollink spoolId' stateId' →
      (utf8 spoolId.text).length = (utf8 spoolId'.text).length)
    (h : a.payload ++ rest = b.payload ++ rest') : a = b ∧ rest = rest' := by
  cases a with
  | blob hash executable =>
    cases b with
    | blob hash' executable' =>
      obtain ⟨hhash, hrest⟩ := append_inj h (by simp [payload])
      have hexec : executable = executable' := by
        cases executable <;> cases executable' <;> first | rfl | cases hmode
      exact ⟨by rw [ContentHash.asBytes_injective hhash, hexec], hrest⟩
    | tree | symlink | gitlink | spoollink => cases hkind
  | tree hash =>
    cases b with
    | tree hash' =>
      obtain ⟨hhash, hrest⟩ := append_inj h (by simp [payload])
      exact ⟨by rw [ContentHash.asBytes_injective hhash], hrest⟩
    | blob | symlink | gitlink | spoollink => cases hkind
  | symlink hash =>
    cases b with
    | symlink hash' =>
      obtain ⟨hhash, hrest⟩ := append_inj h (by simp [payload])
      exact ⟨by rw [ContentHash.asBytes_injective hhash], hrest⟩
    | blob | tree | gitlink | spoollink => cases hkind
  | gitlink target =>
    cases b with
    | gitlink target' =>
      simp only [payload, cons_append, cons.injEq] at h
      have hformat := gitFormatToTag_injective h.1
      obtain ⟨hoid, hrest⟩ := append_inj h.2
        (by rw [GitObjectId.asBytes_length, GitObjectId.asBytes_length, hformat])
      exact ⟨by rw [GitObjectId.asBytes_injective hoid], hrest⟩
    | blob | tree | symlink | spoollink => cases hkind
  | spoollink spoolId stateId =>
    cases b with
    | spoollink spoolId' stateId' =>
      have hlen := hspool _ _ _ _ rfl rfl
      simp only [payload, append_assoc] at h
      obtain ⟨_, h⟩ := append_inj h (by simp)
      obtain ⟨htext, h⟩ := append_inj h hlen
      obtain ⟨hstate, hrest⟩ := append_inj h (by simp)
      refine ⟨?_, hrest⟩
      cases stateId
      cases stateId'
      rw [SpoolId.ext (utf8_injective htext)]
      congr 2
      exact Vector.toList_inj.1 hstate
    | blob | tree | symlink | gitlink => cases hkind

theorem TreeEntryTarget.spool_length_mod
    (h : (spoollink spoolId stateId : TreeEntryTarget ContentHash).payload ++ rest =
      (spoollink spoolId' stateId' : TreeEntryTarget ContentHash).payload ++ rest') :
    (utf8 spoolId.text).length % 256 ^ 4 = (utf8 spoolId'.text).length % 256 ^ 4 := by
  simp only [payload, append_assoc] at h
  obtain ⟨hcount, _⟩ := append_inj h (by simp)
  have hmod := congrArg ofLeBytes hcount
  rwa [ofLeBytes_leBytes_mod, ofLeBytes_leBytes_mod] at hmod

theorem TreeEntryTarget.eq_of_kind_mode {a b : TreeEntryTarget ContentHash}
    (hkind : a.entryType = b.entryType) (hmode : a.mode = b.mode) (hrest : rest.length = tail ∧
      rest'.length = tail' ∧ tail < 2 ^ 17 ∧ tail' < 2 ^ 17)
    (h : a.payload ++ rest = b.payload ++ rest') : a = b ∧ rest = rest' := by
  apply eq_of_payload hkind hmode _ h
  rintro spoolId stateId spoolId' stateId' rfl rfl
  have hmod := spool_length_mod h
  have htotal := congrArg length h
  simp only [payload, length_append, length_leBytes, Vector.length_toList] at htotal
  omega

namespace TreeEntry

theorem layoutFlagsOf_injective (h : layoutFlagsOf a b = layoutFlagsOf c d) : a = c ∧ b = d := by
  revert h
  cases a <;> cases b <;> cases c <;> cases d <;> decide

theorem modeByte_inj {mode mode' : FileMode}
    (h : mode.toByte ||| layoutFlagsOf a b = mode'.toByte ||| layoutFlagsOf c d) :
    mode = mode' ∧ a = c ∧ b = d := by
  have hsplit := congrArg splitLayoutFlags h
  rw [splitLayoutFlags_or, splitLayoutFlags_or, Prod.mk.injEq] at hsplit
  have hmode := congrArg FileMode.fromByte hsplit.2
  rw [FileMode.fromByte_toByte, FileMode.fromByte_toByte, Option.some.injEq] at hmode
  exact ⟨hmode, layoutFlagsOf_injective hsplit.1⟩

end TreeEntry

namespace Tree

theorem v4LeafPreimage_inj (he : e.validate = .ok ()) (he' : e'.validate = .ok ())
    (h : v4LeafPreimage e salt = v4LeafPreimage e' salt') : e = e' ∧ salt = salt' := by
  simp only [v4LeafPreimage, TreeEntryTarget.writePayload, append_assoc] at h
  obtain ⟨hsalt, h⟩ := append_inj h (by simp)
  simp only [cons_append, cons.injEq] at h
  obtain ⟨hbyte, hkind, h⟩ := h
  obtain ⟨hmode, hraw, _⟩ := TreeEntry.modeByte_inj hbyte
  have hname := validateName_length (TreeEntry.validate_name he)
  have hname' := validateName_length (TreeEntry.validate_name he')
  have htrailer := e.layoutTrailer_length none
  have htrailer' := e'.layoutTrailer_length none
  have hflags : e'.layoutFlags none = e.layoutFlags none := by
    rw [TreeEntry.layoutFlags, TreeEntry.layoutFlags, hraw]
  rw [hflags] at htrailer'
  have hshort : layoutTrailerLen (e.layoutFlags none) ≤ 9 := by
    rw [TreeEntry.layoutFlags, layoutTrailerLen_flagsOf]
    split <;> split <;> omega
  obtain ⟨htarget, h⟩ := TreeEntryTarget.eq_of_kind_mode (EntryType.toByte_injective hkind) hmode
    ⟨rfl, rfl, by simp only [length_append, length_leBytes]; omega,
      by simp only [length_append, length_leBytes]; omega⟩ h
  obtain ⟨hcount, h⟩ := append_inj h (by simp)
  have hlen := leBytes_inj (by omega) (by omega) hcount
  obtain ⟨htext, h⟩ := append_inj h hlen
  have hgit : e.gitMode = e'.gitMode := by
    simp only [TreeEntry.layoutTrailer, TreeEntry.positionBytes, append_nil] at h
    cases hm : e.gitMode with
    | none =>
      rw [hm] at hraw
      exact (Option.isNone_iff_eq_none.1 (Option.isSome_eq_false_iff.1 hraw.symm)).symm
    | some mode =>
      rw [hm] at hraw h
      obtain ⟨mode', hm'⟩ := Option.isSome_iff_exists.1 hraw.symm
      rw [hm'] at h
      rw [hm', TreeEntry.rawModeBytes_injective h]
  cases e
  cases e'
  simp only [TreeEntry.mk.injEq]
  exact ⟨⟨utf8_injective htext, htarget, hgit⟩, Vector.toList_inj.1 hsalt⟩

end Tree

end Heddle
