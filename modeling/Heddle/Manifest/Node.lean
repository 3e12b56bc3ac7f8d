import Heddle.Lib.Numeral
import Heddle.SourceTarget.NodeCodec
import Mathlib.Data.Prod.Lex

namespace Heddle.Manifest
open Heddle.Lib List
open Heddle.Lib.MsgPack (beBytes)

def manifestNodeMagic : Bytes := utf8 "WPMF"
def manifestFormatVersion : UInt8 := 1
def manifestRouteDomain : Bytes := utf8 "weft-plan-manifest-key-v1"
def manifestBranchWidth : Nat := 32
def manifestRouteLevels : Nat := 52
def manifestLeafMaxEntries : Nat := 16
def tagLeaf : UInt8 := 0
def tagBranch : UInt8 := 1

inductive ManifestObjectKind where
  | blob
  | tree
  deriving DecidableEq

namespace ManifestObjectKind

def toByte : ManifestObjectKind → UInt8
  | .blob => 0
  | .tree => 1

def fromByte (byte : UInt8) : Option ManifestObjectKind :=
  if byte = 0 then some .blob else if byte = 1 then some .tree else none

theorem fromByte_eq_some : fromByte byte = some kind ↔ byte = kind.toByte := by
  unfold fromByte
  constructor
  · intro h
    split at h
    · cases h
      assumption
    · split at h
      · cases h
        assumption
      · cases h
  · intro h
    subst h
    cases kind with
    | blob => rfl
    | tree => rfl

theorem toByte_injective {kind kind' : ManifestObjectKind} (h : kind.toByte = kind'.toByte) :
    kind = kind' :=
  Option.some.inj ((fromByte_eq_some.2 rfl).symm.trans (fromByte_eq_some.2 h))

end ManifestObjectKind

@[ext] structure ManifestKey where
  kind : ManifestObjectKind
  hash : ContentHash
  deriving DecidableEq

/-- Kind first, then the bytes of the hash. -/
instance : LinearOrder ManifestKey :=
  LinearOrder.lift' (fun key => toLex (key.kind.toByte.toNat, key.hash)) fun a b h => by
    obtain ⟨hkind, hhash⟩ := Prod.mk.inj (toLex_inj.1 h)
    exact ManifestKey.ext (ManifestObjectKind.toByte_injective (UInt8.toNat_inj.1 hkind)) hhash

abbrev ManifestRoute := ContentHash

def ManifestRoute.group (route : ManifestRoute) (level : Nat) : Nat := SourceTarget.group route level

@[ext] structure ManifestObject where
  kind : ManifestObjectKind
  hash : ContentHash
  decodedSize : UInt64
  deriving DecidableEq

def ManifestObject.key (object : ManifestObject) : ManifestKey := ⟨object.kind, object.hash⟩

theorem ManifestObject.ext_key {a b : ManifestObject} (hkey : a.key = b.key)
    (hsize : a.decodedSize = b.decodedSize) : a = b :=
  ManifestObject.ext (congrArg ManifestKey.kind hkey) (congrArg ManifestKey.hash hkey) hsize

instance : LinearOrder ManifestObject :=
  LinearOrder.lift' (fun object => toLex (object.key, object.decodedSize.toNat)) fun a b h => by
    obtain ⟨hkey, hsize⟩ := Prod.mk.inj (toLex_inj.1 h)
    exact ManifestObject.ext_key hkey (UInt64.toNat_inj.1 hsize)

section Route
variable (blake3 : Bytes → ContentHash)

def ManifestKey.route (key : ManifestKey) : ManifestRoute :=
  blake3 (manifestRouteDomain ++ [key.kind.toByte] ++ key.hash.asBytes)

def ManifestObject.route (object : ManifestObject) : ManifestRoute := object.key.route blake3

end Route

@[ext] structure ManifestChild where
  slot : Nat
  hash : ContentHash
  objectCount : UInt64
  decodedBytes : UInt64
  deriving DecidableEq

@[ext] structure ManifestLeaf where
  entries : List ManifestObject
  sorted : SortedBy ManifestObject.key entries
  fits : entries.length < 256 ^ 2
  deriving DecidableEq

@[ext] structure ManifestBranch where
  depth : UInt8
  children : List ManifestChild
  sorted : SortedBy ManifestChild.slot children
  inRange : ∀ child ∈ children, child.slot < manifestBranchWidth
  nonempty : children ≠ []
  deriving DecidableEq

inductive ManifestNode where
  | leaf (node : ManifestLeaf)
  | branch (node : ManifestBranch)
  deriving DecidableEq

inductive ManifestNodeError where
  | duplicateObjectKey (key : ManifestKey)
  | leafCountOverflow (count : Nat)
  | emptyBranchBitmap
  | slotOutOfRange (slot : Nat)
  | duplicateBranchSlot (slot : Nat)
  deriving DecidableEq

inductive ManifestDecodeError where
  | badMagic
  | unsupportedVersion (version : UInt8)
  | unknownNodeTag (tag : UInt8)
  | unknownObjectKind (kind : UInt8)
  | truncated
  | trailingBytes
  | entriesOutOfOrder
  | duplicateObjectKey (key : ManifestKey)
  | emptyBranchBitmap
  | nonCanonicalEncoding
  | addressMismatch (expected actual : ContentHash)
  deriving DecidableEq

section Construct

def findRepeat [LinearOrder κ] (key : α → κ) (xs : List α) : Option (α × α) :=
  (xs.zip xs.tail).find? fun window => key window.1 = key window.2

theorem sortedBy_of_findRepeat [LinearOrder κ] {key : α → κ}
    (hle : xs.Pairwise fun a b => key a ≤ key b) (h : findRepeat key xs = none) :
    SortedBy key xs := by
  induction xs with
  | nil => exact List.Pairwise.nil
  | cons x xs ih =>
    obtain ⟨hx, hxs⟩ := pairwise_cons.1 hle
    cases xs with
    | nil => exact pairwise_singleton _ _
    | cons y ys =>
      have hfind : (((x, y) :: (y :: ys).zip ys).find? fun window => key window.1 = key window.2) = none :=
        h
      rw [find?_cons] at hfind
      split at hfind
      · cases hfind
      · rename_i hne
        have hlt : key x < key y := (hx y mem_cons_self).lt_of_ne (of_decide_eq_false hne)
        have htail := ih hxs hfind
        refine sortedBy_cons.2 ⟨?_, htail⟩
        intro z hz
        rcases mem_cons.1 hz with rfl | hz
        · exact hlt
        · exact hlt.trans ((sortedBy_cons.1 htail).1 z hz)

theorem findRepeat_of_sorted [LinearOrder κ] {key : α → κ} (h : SortedBy key xs) :
    findRepeat key xs = none := by
  rw [findRepeat, find?_eq_none]
  intro window hwindow hsame
  induction xs with
  | nil => cases hwindow
  | cons x xs ih =>
    obtain ⟨hx, hxs⟩ := sortedBy_cons.1 h
    cases xs with
    | nil => cases hwindow
    | cons y ys =>
      rcases mem_cons.1 hwindow with rfl | hwindow
      · exact (hx y mem_cons_self).ne (of_decide_eq_true hsame)
      · exact ih hxs hwindow

theorem sortBy_le [LinearOrder κ] (key : α → κ) (xs : List α) :
    (sortBy key xs).Pairwise fun a b => key a ≤ key b := by
  have htotal : Std.Total (fun a b : α => key a ≤ key b) := ⟨fun a b => le_total (key a) (key b)⟩
  have htrans : IsTrans α (fun a b : α => key a ≤ key b) := ⟨fun _ _ _ => le_trans⟩
  exact pairwise_insertionSort _ xs

def ManifestLeaf.new (entries : List ManifestObject) : Except ManifestNodeError ManifestLeaf :=
  match h : findRepeat ManifestObject.key (sortBy ManifestObject.key entries) with
  | some window => .error (.duplicateObjectKey window.1.key)
  | none =>
    if hfits : (sortBy ManifestObject.key entries).length < 256 ^ 2 then
      .ok ⟨sortBy ManifestObject.key entries, sortedBy_of_findRepeat (sortBy_le _ _) h, hfits⟩
    else .error (.leafCountOverflow (sortBy ManifestObject.key entries).length)

def ManifestBranch.new (depth : UInt8) (children : List ManifestChild) :
    Except ManifestNodeError ManifestBranch :=
  if hnil : sortBy ManifestChild.slot children = [] then .error .emptyBranchBitmap
  else match hrange : (sortBy ManifestChild.slot children).find? fun child =>
      manifestBranchWidth ≤ child.slot with
    | some child => .error (.slotOutOfRange child.slot)
    | none => match h : findRepeat ManifestChild.slot (sortBy ManifestChild.slot children) with
      | some window => .error (.duplicateBranchSlot window.1.slot)
      | none => .ok {
          depth
          children := sortBy ManifestChild.slot children
          sorted := sortedBy_of_findRepeat (sortBy_le _ _) h
          inRange := fun child hchild =>
            Nat.lt_of_not_le fun hle => find?_eq_none.1 hrange child hchild (decide_eq_true hle)
          nonempty := hnil }

end Construct

def ManifestLeaf.decodedBytes (leaf : ManifestLeaf) : Option Nat :=
  leaf.entries.foldlM (fun total entry => checkedAdd (2 ^ 64) total entry.decodedSize.toNat) 0

def ManifestBranch.bitmap (branch : ManifestBranch) : Nat :=
  branch.children.foldl (fun bits child => bits ||| 1 <<< child.slot) 0

def entryBytes (entry : ManifestObject) : Bytes :=
  entry.kind.toByte :: (entry.hash.asBytes ++ beBytes 8 entry.decodedSize.toNat)

def childBytes (child : ManifestChild) : Bytes :=
  child.hash.asBytes ++ beBytes 8 child.objectCount.toNat ++ beBytes 8 child.decodedBytes.toNat

def ManifestNode.encode : ManifestNode → Bytes
  | .leaf node =>
    manifestNodeMagic ++ [manifestFormatVersion] ++ [tagLeaf] ++ beBytes 2 node.entries.length ++
      node.entries.flatMap entryBytes
  | .branch node =>
    manifestNodeMagic ++ [manifestFormatVersion] ++ [tagBranch] ++ [node.depth] ++
      beBytes 4 node.bitmap ++ node.children.flatMap childBytes

section Decode

abbrev NodeReader (α : Type) := Reader ManifestDecodeError α

def takeHash : NodeReader ContentHash := return ⟨← takeVector .truncated 32⟩

def Ascending (previous : Option ManifestKey) (entries : List ManifestObject) : Prop :=
  (∀ key ∈ previous, ∀ entry ∈ entries, key < entry.key) ∧ SortedBy ManifestObject.key entries

theorem ascending_nil (previous : Option ManifestKey) : Ascending previous [] :=
  ⟨fun _ _ => nofun, List.Pairwise.nil⟩

theorem ascending_cons : Ascending previous (entry :: entries) ↔
    (∀ key ∈ previous, key < entry.key) ∧ Ascending (some entry.key) entries := by
  unfold Ascending
  rw [sortedBy_cons]
  constructor
  · intro ⟨hprevious, hentry, hentries⟩
    refine ⟨fun key hkey => hprevious key hkey entry mem_cons_self, ?_, hentries⟩
    intro key hkey
    exact Option.mem_some.1 hkey ▸ hentry
  · intro ⟨hprevious, hentry, hentries⟩
    refine ⟨?_, hentry entry.key rfl, hentries⟩
    intro key hkey next hnext
    rcases mem_cons.1 hnext with rfl | hnext
    · exact hprevious key hkey
    · exact (hprevious key hkey).trans (hentry entry.key rfl next hnext)

def checkOrder (previous : Option ManifestKey) (key : ManifestKey) :
    Except ManifestDecodeError (PLift (∀ prev ∈ previous, prev < key)) :=
  match previous with
  | none => .ok ⟨nofun⟩
  | some prev =>
    if heq : prev = key then .error (.duplicateObjectKey key)
    else if hgt : key < prev then .error .entriesOutOfOrder
    else .ok ⟨fun _ hprev => Option.mem_some.1 hprev ▸ (not_lt.1 hgt).lt_of_ne heq⟩

def readEntries : (count : Nat) → (previous : Option ManifestKey) →
    NodeReader { entries : List ManifestObject // entries.length = count ∧ Ascending previous entries }
  | 0, previous => pure ⟨[], rfl, ascending_nil previous⟩
  | count + 1, previous => do
    let kindByte ← takeByte .truncated
    let kind ← liftRead ((ManifestObjectKind.fromByte kindByte).elim
      (.error (.unknownObjectKind kindByte)) .ok)
    let hash ← takeHash
    let decodedSize ← takeU64 .truncated
    let entry : ManifestObject := ⟨kind, hash, decodedSize⟩
    let order ← liftRead (checkOrder previous entry.key)
    let entries ← readEntries count (some entry.key)
    return ⟨entry :: entries.1, congrArg Nat.succ entries.2.1, ascending_cons.2 ⟨order.down, entries.2.2⟩⟩

def readChildren (bitmap : Nat) : (slots : List Nat) →
    NodeReader { children : List ManifestChild // children.map ManifestChild.slot = slots.filter bitmap.testBit }
  | [] => pure ⟨[], rfl⟩
  | slot :: slots =>
    if hbit : bitmap.testBit slot then do
      let hash ← takeHash
      let objectCount ← takeU64 .truncated
      let decodedBytes ← takeU64 .truncated
      let children ← readChildren bitmap slots
      return ⟨⟨slot, hash, objectCount, decodedBytes⟩ :: children.1, by
        rw [map_cons, children.2, filter_cons_of_pos hbit]⟩
    else do
      let children ← readChildren bitmap slots
      return ⟨children.1, by rw [children.2, filter_cons_of_neg hbit]⟩

def readLeaf : NodeReader ManifestNode := do
  let count ← takeBe .truncated 2
  let entries ← readEntries count.1 none
  return .leaf ⟨entries.1, entries.2.2.2, entries.2.1.trans_lt count.2⟩

theorem slots_of_bitmap {bitmap : Nat} (hbits : bitmap < 256 ^ 4)
    (h : children.map ManifestChild.slot = (List.range manifestBranchWidth).filter bitmap.testBit) :
    SortedBy ManifestChild.slot children ∧ (∀ child ∈ children, child.slot < manifestBranchWidth) ∧
      bitmap = Lib.bitmap (children.map ManifestChild.slot) := by
  obtain ⟨hsorted, hlt, hbitmap⟩ := (slots_eq_filter_iff (show bitmap < 2 ^ 32 from hbits)).1 h
  exact ⟨pairwise_map.1 hsorted, fun child hchild => hlt _ (mem_map_of_mem hchild), hbitmap⟩

theorem children_ne_nil {bitmap : Nat} (hbits : bitmap < 256 ^ 4) (hzero : bitmap ≠ 0)
    (h : children.map ManifestChild.slot = (List.range manifestBranchWidth).filter bitmap.testBit) :
    children ≠ [] := by
  intro hnil
  subst hnil
  exact slots_ne_nil (show bitmap < 2 ^ 32 from hbits) hzero h.symm

def readBranch : NodeReader ManifestNode := do
  let depth ← takeByte .truncated
  let bitmap ← takeBe .truncated 4
  if hzero : bitmap.1 = 0 then liftRead (.error .emptyBranchBitmap)
  else do
    let children ← readChildren bitmap.1 (List.range manifestBranchWidth)
    return .branch {
      depth
      children := children.1
      sorted := (slots_of_bitmap bitmap.2 children.2).1
      inRange := (slots_of_bitmap bitmap.2 children.2).2.1
      nonempty := children_ne_nil bitmap.2 hzero children.2 }

def readNode : NodeReader ManifestNode := do
  let magic ← takeVector .truncated 4
  liftRead (refuse (magic.toList ≠ manifestNodeMagic) .badMagic)
  let version ← takeByte .truncated
  liftRead (refuse (version ≠ manifestFormatVersion) (.unsupportedVersion version))
  let tag ← takeByte .truncated
  if tag = tagLeaf then readLeaf
  else if tag = tagBranch then readBranch
  else liftRead (.error (.unknownNodeTag tag))

def ManifestNode.decodeInner (bytes : Bytes) : Except ManifestDecodeError ManifestNode := do
  let (node, rest) ← readNode bytes
  refuse (rest ≠ []) .trailingBytes
  return node

def ManifestNode.decode (bytes : Bytes) : Except ManifestDecodeError ManifestNode := do
  let node ← decodeInner bytes
  refuse (node.encode ≠ bytes) .nonCanonicalEncoding
  return node

def ManifestNode.decodeAddressed (blake3 : Bytes → ContentHash) (bytes : Bytes) (expected : ContentHash) :
    Except ManifestDecodeError ManifestNode := do
  let node ← decode bytes
  refuse (blake3 bytes ≠ expected) (.addressMismatch expected (blake3 bytes))
  return node

end Decode

end Heddle.Manifest
