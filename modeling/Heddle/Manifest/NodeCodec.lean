import Heddle.Manifest.Node

namespace Heddle.Manifest
open Heddle.Lib
open List hiding count tail
open Heddle.Lib.MsgPack (beBytes)

section Fields

theorem takeHash_ok_iff {hash : ContentHash} :
    takeHash bytes = .ok (hash, rest) ↔ bytes = hash.asBytes ++ rest := by
  unfold takeHash
  simp only [read_bind_ok_iff, takeVector_ok_iff, read_pure_ok_iff]
  constructor
  · rintro ⟨taken, _, rfl, rfl, rfl⟩
    rfl
  · intro h
    exact ⟨hash.bytes, rest, h, rfl, rfl⟩

theorem readKind_ok_iff :
    (ManifestObjectKind.fromByte byte).elim (.error e) (.ok : ManifestObjectKind → Except ManifestDecodeError _) =
      .ok kind ↔ byte = kind.toByte := by
  rw [← ManifestObjectKind.fromByte_eq_some]
  cases ManifestObjectKind.fromByte byte with
  | none => exact ⟨nofun, nofun⟩
  | some found => rw [Option.elim_some, Except.ok.injEq, Option.some.injEq]

theorem checkOrder_ok (order : PLift (∀ prev ∈ previous, prev < key)) :
    checkOrder previous key = .ok order := by
  cases previous with
  | none => rfl
  | some prev =>
    have hlt := order.down prev rfl
    rw [checkOrder, dif_neg hlt.ne, dif_neg hlt.not_gt]

end Fields

section Nodes

theorem readEntries_ok_iff :
    readEntries count previous bytes = .ok (entries, rest) ↔
      bytes = entries.1.flatMap entryBytes ++ rest := by
  induction count generalizing previous bytes rest with
  | zero =>
    rw [readEntries, read_pure_ok_iff]
    have hnil : entries.1 = [] := length_eq_zero_iff.1 entries.2.1
    constructor
    · rintro ⟨rfl, rfl⟩
      rfl
    · intro h
      rw [hnil] at h
      exact ⟨Subtype.ext hnil.symm, h⟩
  | succ count ih =>
    simp only [readEntries, read_bind_ok_iff, takeByte_ok_iff, liftRead_ok_iff, readKind_ok_iff,
      takeHash_ok_iff, takeU64_ok_iff, read_pure_ok_iff, ih]
    constructor
    · rintro ⟨_, _, rfl, kind, _, ⟨rfl, rfl⟩, hash, _, rfl, size, _, rfl, order, _, ⟨-, rfl⟩, tail, _,
        rfl, rfl, rfl⟩
      rw [flatMap_cons, entryBytes, cons_append, cons_append, append_assoc,
        append_assoc]
    · obtain ⟨entries, hlen, hascend⟩ := entries
      cases entries with
      | nil => cases hlen
      | cons entry entries =>
        intro hbytes
        obtain ⟨horder, htail⟩ := ascending_cons.1 hascend
        rw [flatMap_cons, entryBytes, cons_append, cons_append, append_assoc,
          append_assoc] at hbytes
        exact ⟨_, _, hbytes, entry.kind, _, ⟨rfl, rfl⟩, entry.hash, _, rfl, entry.decodedSize, _, rfl,
          ⟨horder⟩, _, ⟨checkOrder_ok _, rfl⟩, ⟨entries, Nat.succ.inj hlen, htail⟩, rest, rfl, rfl, rfl⟩

theorem readChildren_ok_iff {bitmap : Nat} {bytes rest : Bytes} {children :
    { children : List ManifestChild // children.map ManifestChild.slot = slots.filter bitmap.testBit }} :
    readChildren bitmap slots bytes = .ok (children, rest) ↔
      bytes = children.1.flatMap childBytes ++ rest := by
  induction slots generalizing bytes rest with
  | nil =>
    rw [readChildren, read_pure_ok_iff]
    have hnil : children.1 = [] := map_eq_nil_iff.1 children.2
    constructor
    · rintro ⟨rfl, rfl⟩
      rfl
    · intro h
      rw [hnil] at h
      exact ⟨Subtype.ext hnil.symm, h⟩
  | cons slot slots ih =>
    obtain ⟨children, hslots⟩ := children
    rw [readChildren]
    by_cases hbit : bitmap.testBit slot
    · rw [dif_pos hbit]
      simp only [read_bind_ok_iff, takeHash_ok_iff, takeU64_ok_iff, read_pure_ok_iff, ih,
        Subtype.mk.injEq]
      constructor
      · rintro ⟨hash, _, rfl, count, _, rfl, size, _, rfl, tail, _, rfl, rfl, rfl⟩
        rw [flatMap_cons, childBytes]
        simp only [append_assoc]
      · intro hbytes
        rw [filter_cons_of_pos hbit] at hslots
        cases children with
        | nil => cases hslots
        | cons child children =>
          obtain ⟨hslot, htail⟩ := cons.inj hslots
          rw [flatMap_cons, childBytes] at hbytes
          simp only [append_assoc] at hbytes
          refine ⟨child.hash, _, hbytes, child.objectCount, _, rfl, child.decodedBytes, _, rfl,
            ⟨children, htail⟩, rest, rfl, ?_, rfl⟩
          rw [← hslot]
    · rw [dif_neg hbit]
      simp only [read_bind_ok_iff, read_pure_ok_iff, ih, Subtype.mk.injEq]
      rw [filter_cons_of_neg hbit] at hslots
      constructor
      · rintro ⟨tail, _, rfl, rfl, rfl⟩
        rfl
      · intro hbytes
        exact ⟨⟨children, hslots⟩, rest, hbytes, rfl, rfl⟩

section
variable (branch : ManifestBranch)

theorem bitmap_eq :
    branch.bitmap = Lib.bitmap (branch.children.map ManifestChild.slot) := by
  rw [ManifestBranch.bitmap, Lib.bitmap, foldl_map]

theorem slots_lt :
    ∀ slot ∈ branch.children.map ManifestChild.slot, slot < manifestBranchWidth := by
  intro slot hslot
  obtain ⟨child, hchild, rfl⟩ := mem_map.1 hslot
  exact branch.inRange child hchild

theorem bitmap_fits : branch.bitmap < 256 ^ 4 := by
  rw [bitmap_eq]
  exact bitmap_lt (slots_lt branch)

theorem slots_eq : branch.children.map ManifestChild.slot =
    (range manifestBranchWidth).filter branch.bitmap.testBit := by
  apply (slots_eq_filter_iff (show branch.bitmap < 2 ^ manifestBranchWidth from bitmap_fits branch)).2
  exact ⟨pairwise_map.2 branch.sorted, slots_lt branch, bitmap_eq branch⟩

theorem bitmap_ne_zero : branch.bitmap ≠ 0 := by
  intro hzero
  have hslots := slots_eq branch
  have hempty : (range manifestBranchWidth).filter (Nat.testBit 0) = [] := by decide
  rw [hzero, hempty, map_eq_nil_iff] at hslots
  exact branch.nonempty hslots

end

def ManifestNode.body : ManifestNode → Bytes
  | .leaf node => beBytes 2 node.entries.length ++ node.entries.flatMap entryBytes
  | .branch node => node.depth :: (beBytes 4 node.bitmap ++ node.children.flatMap childBytes)

theorem readLeaf_ok_iff :
    readLeaf bytes = .ok (node, rest) ↔
      ∃ leaf, node = .leaf leaf ∧ bytes = (ManifestNode.leaf leaf).body ++ rest := by
  unfold readLeaf
  simp only [read_bind_ok_iff, takeBe_ok_iff, readEntries_ok_iff, read_pure_ok_iff, ManifestNode.body,
    append_assoc]
  constructor
  · rintro ⟨count, _, rfl, entries, _, rfl, rfl, rfl⟩
    exact ⟨_, rfl, by rw [entries.2.1]⟩
  · rintro ⟨leaf, rfl, rfl⟩
    exact ⟨⟨leaf.entries.length, leaf.fits⟩, _, rfl, ⟨leaf.entries, rfl, fun _ => nofun, leaf.sorted⟩,
      rest, rfl, rfl, rfl⟩

theorem readBranch_ok_iff :
    readBranch bytes = .ok (node, rest) ↔
      ∃ branch, node = .branch branch ∧ bytes = (ManifestNode.branch branch).body ++ rest := by
  unfold readBranch
  simp only [read_bind_ok_iff, takeByte_ok_iff, takeBe_ok_iff, ManifestNode.body, cons_append,
    append_assoc]
  constructor
  · rintro ⟨depth, _, rfl, bitmap, _, rfl, hread⟩
    split at hread
    · exact absurd (liftRead_ok_iff.1 hread).1 nofun
    · simp only [read_bind_ok_iff, readChildren_ok_iff, read_pure_ok_iff] at hread
      obtain ⟨children, _, rfl, rfl, rfl⟩ := hread
      refine ⟨_, rfl, ?_⟩
      rw [bitmap_eq, ← (slots_of_bitmap bitmap.2 children.2).2.2]
  · rintro ⟨branch, rfl, rfl⟩
    refine ⟨branch.depth, _, rfl, ⟨branch.bitmap, bitmap_fits branch⟩, _, rfl, ?_⟩
    rw [dif_neg (bitmap_ne_zero branch)]
    simp only [read_bind_ok_iff, readChildren_ok_iff, read_pure_ok_iff]
    exact ⟨⟨branch.children, slots_eq branch⟩, rest, rfl, rfl, rfl⟩

@[simp] theorem manifestNodeMagic_length : manifestNodeMagic.length = 4 := by decide +kernel

def ManifestNode.tag : ManifestNode → UInt8
  | .leaf _ => tagLeaf
  | .branch _ => tagBranch

theorem encode_eq (node : ManifestNode) :
    node.encode = manifestNodeMagic ++ (manifestFormatVersion :: node.tag :: node.body) := by
  cases node with
  | leaf leaf =>
    simp only [ManifestNode.encode, ManifestNode.body, ManifestNode.tag, append_assoc]
    rfl
  | branch branch =>
    simp only [ManifestNode.encode, ManifestNode.body, ManifestNode.tag, append_assoc]
    rfl

theorem readNode_ok_iff :
    readNode bytes = .ok (node, rest) ↔ bytes = node.encode ++ rest := by
  unfold readNode
  simp only [read_bind_ok_iff, takeVector_ok_iff, takeByte_ok_iff, liftRead_ok_iff, refuse_eq_ok,
    not_not, encode_eq, append_assoc, cons_append]
  constructor
  · rintro ⟨magic, _, rfl, _, _, ⟨hmagic, rfl⟩, version, _, rfl, _, _, ⟨rfl, rfl⟩, tag, _, rfl, hnode⟩
    rw [hmagic]
    split at hnode
    · rename_i htag
      subst htag
      obtain ⟨leaf, rfl, rfl⟩ := readLeaf_ok_iff.1 hnode
      rfl
    · split at hnode
      · rename_i htag
        subst htag
        obtain ⟨branch, rfl, rfl⟩ := readBranch_ok_iff.1 hnode
        rfl
      · cases (liftRead_ok_iff.1 hnode).1
  · rintro rfl
    refine ⟨⟨manifestNodeMagic.toArray, manifestNodeMagic_length⟩, _, rfl, (), _, ⟨rfl, rfl⟩,
      manifestFormatVersion, _, rfl, (), _, ⟨rfl, rfl⟩, node.tag, _, rfl, ?_⟩
    cases node with
    | leaf leaf =>
      have htag : (ManifestNode.leaf leaf).tag = tagLeaf := rfl
      rw [if_pos htag]
      exact readLeaf_ok_iff.2 ⟨leaf, rfl, rfl⟩
    | branch branch =>
      have htag : (ManifestNode.branch branch).tag = tagBranch := rfl
      have hne : (ManifestNode.branch branch).tag ≠ tagLeaf := by
        rw [htag]
        decide
      rw [if_neg hne, if_pos htag]
      exact readBranch_ok_iff.2 ⟨branch, rfl, rfl⟩

theorem decode_ok_iff :
    ManifestNode.decode bytes = .ok node ↔ bytes = node.encode := by
  simp only [ManifestNode.decode, ManifestNode.decodeInner, bind_eq_ok, Prod.exists, readNode_ok_iff,
    refuse_eq_ok, not_not, pure_eq_ok, Except.ok.injEq]
  constructor
  · rintro ⟨_, ⟨_, _, _, _, _, rfl⟩, _, hencode, rfl⟩
    exact hencode.symm
  · rintro rfl
    exact ⟨node, ⟨node, [], (append_nil _).symm, (), rfl, rfl⟩, (), rfl, rfl⟩

@[simp] theorem decode_encoded (node : ManifestNode) : ManifestNode.decode node.encode = .ok node :=
  decode_ok_iff.2 rfl

theorem encode_injective {node node' : ManifestNode} (h : node.encode = node'.encode) : node = node' :=
  Except.ok.inj ((decode_encoded node).symm.trans (decode_ok_iff.2 h))

theorem decodeAddressed_ok_iff : ManifestNode.decodeAddressed blake3 bytes expected = .ok node ↔
      bytes = node.encode ∧ blake3 bytes = expected := by
  simp only [ManifestNode.decodeAddressed, bind_eq_ok, decode_ok_iff, refuse_eq_ok, not_not,
    pure_eq_ok, Except.ok.injEq]
  constructor
  · rintro ⟨_, hbytes, _, hhash, rfl⟩
    exact ⟨hbytes, hhash⟩
  · rintro ⟨hbytes, hhash⟩
    exact ⟨node, hbytes, (), hhash, rfl⟩

end Nodes

end Heddle.Manifest
