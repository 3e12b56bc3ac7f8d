import Heddle.Manifest.Levels

namespace Heddle.Manifest
open Heddle.Lib List

def nodeLinks (bytes : Bytes) : Option (List ContentHash) :=
  match ManifestNode.decode bytes with
  | .ok (.leaf _) => some []
  | .ok (.branch branch) => some (branch.children.map ManifestChild.hash)
  | .error _ => none

theorem nodeLinks_leaf (leaf : ManifestLeaf) : nodeLinks (ManifestNode.leaf leaf).encode = some [] := by
  rw [nodeLinks, decode_encoded]

theorem nodeLinks_branch (branch : ManifestBranch) :
    nodeLinks (ManifestNode.branch branch).encode = some (branch.children.map ManifestChild.hash) := by
  rw [nodeLinks, decode_encoded]

def HoldsAll (store : NodeSource) (inserted : Inserted) : Prop :=
  ∀ node ∈ inserted, store node.1 = some node.2

section Trie
variable (blake3 : Bytes → ContentHash)

/-- The branch that stands for `entries` at `depth`, up to the addresses of its children. -/
structure IsBranch (entries : List ManifestObject) (depth : Nat) (branch : ManifestBranch) : Prop where
  depth_eq : branch.depth = .ofNat depth
  lt : depth < manifestRouteLevels
  large : manifestLeafMaxEntries < entries.length
  sorted : SortedBy ManifestObject.key entries
  slots : branch.children.map ManifestChild.slot =
    (List.range manifestBranchWidth).filter (taken blake3 entries depth)
  count : ∀ child ∈ branch.children,
    child.objectCount = .ofNat (bucket blake3 entries depth child.slot).length
  bytes : ∀ child ∈ branch.children,
    child.decodedBytes = .ofNat (total (bucket blake3 entries depth child.slot))

inductive Trie (store : NodeSource) : Nat → ContentHash → List ManifestObject → Prop where
  | leaf {hash : ContentHash} {leaf : ManifestLeaf}
    (hhash : blake3 (ManifestNode.leaf leaf).encode = hash)
    (hstore : store hash = some (ManifestNode.leaf leaf).encode)
    (hsmall : leaf.entries.length ≤ manifestLeafMaxEntries ∨ manifestRouteLevels ≤ depth) :
    Trie store depth hash leaf.entries
  | branch {hash : ContentHash} {branch : ManifestBranch}
    (hhash : blake3 (ManifestNode.branch branch).encode = hash)
    (hstore : store hash = some (ManifestNode.branch branch).encode)
    (hbranch : IsBranch blake3 entries depth branch)
    (hchildren : ∀ child ∈ branch.children,
      Trie store (depth + 1) child.hash (bucket blake3 entries depth child.slot)) :
    Trie store depth hash entries

structure Built (entries : List ManifestObject) (depth : Nat) (summary : Summary) (inserted : Inserted) :
    Prop where
  count : summary.objectCount = entries.length
  bytes : summary.decodedBytes = total entries
  fits : total entries < 2 ^ 64
  addressed : ∀ node ∈ inserted, blake3 node.2 = node.1
  root_mem : summary.hash ∈ inserted.map Prod.fst
  closed : ∀ node ∈ inserted, ∃ below, nodeLinks node.2 = some below ∧
    ∀ hash ∈ below, hash ∈ inserted.map Prod.fst
  reached : ∀ store, HoldsAll store inserted → ∀ node ∈ inserted,
    Reaches nodeLinks store summary.hash node.1
  trie : ∀ store, HoldsAll store inserted → Trie blake3 store depth summary.hash entries

theorem bucket_sorted (h : SortedBy ManifestObject.key entries) (depth slot : Nat) :
    SortedBy ManifestObject.key (bucket blake3 entries depth slot) :=
  sortedBy_filter h _

theorem built_leaf (h : SortedBy ManifestObject.key entries)
    (hsmall : entries.length ≤ manifestLeafMaxEntries ∨ manifestRouteLevels ≤ depth)
    (hbuild : buildLeaf blake3 entries = .ok (summary, inserted)) :
    Built blake3 entries depth summary inserted := by
  obtain ⟨leaf, rfl, hlt, rfl, rfl⟩ := (buildLeaf_ok_iff blake3 h).1 hbuild
  exact {
    count := rfl
    bytes := rfl
    fits := hlt
    addressed := by
      intro node hnode
      rw [mem_singleton.1 hnode]
      rfl
    root_mem := mem_singleton.2 rfl
    closed := by
      intro node hnode
      rw [mem_singleton.1 hnode]
      exact ⟨[], nodeLinks_leaf leaf, nofun⟩
    reached := by
      intro store _ node hnode
      rw [mem_singleton.1 hnode]
      exact .root
    trie := fun store hstore => .leaf rfl (hstore _ (mem_singleton.2 rfl)) hsmall }

theorem sum_parts {parts : List Part}
    (hslots : parts.map Part.slot = (List.range manifestBranchWidth).filter (taken blake3 entries depth))
    (hparts : ∀ part ∈ parts,
      Built blake3 (bucket blake3 entries depth part.slot) (depth + 1) part.summary part.nodes) :
    (parts.map fun part => part.summary.objectCount).sum = entries.length ∧
      (parts.map fun part => part.summary.decodedBytes).sum = total entries := by
  have hperm := parts_perm blake3 hslots
  constructor
  · rw [← hperm.length_eq, length_flatMap]
    exact congrArg List.sum (map_congr_left fun part hpart => (hparts part hpart).count)
  · rw [← total_perm hperm, total_flatMap]
    exact congrArg List.sum (map_congr_left fun part hpart => (hparts part hpart).bytes)

theorem built_branch {parts : List Part} (hs : SortedBy ManifestObject.key entries)
    (hlt : depth < manifestRouteLevels) (hlarge : manifestLeafMaxEntries < entries.length)
    (hslots : parts.map Part.slot = (List.range manifestBranchWidth).filter (taken blake3 entries depth))
    (hparts : ∀ part ∈ parts,
      Built blake3 (bucket blake3 entries depth part.slot) (depth + 1) part.summary part.nodes)
    (hsum : (parts.map fun part => part.summary.decodedBytes).sum < 2 ^ 64)
    (hdepth : branch.depth = .ofNat depth) (hchildren : branch.children = parts.map Part.child) :
    Built blake3 entries depth
      ⟨blake3 (ManifestNode.branch branch).encode, (parts.map fun part => part.summary.objectCount).sum,
        (parts.map fun part => part.summary.decodedBytes).sum⟩
      (parts.flatMap Part.nodes ++ [insertedNode blake3 (.branch branch)]) := by
  obtain ⟨hcount, hbytes⟩ := sum_parts blake3 hslots hparts
  have hmem : ∀ node, node ∈ parts.flatMap Part.nodes ++ [insertedNode blake3 (.branch branch)] ↔
      (∃ part ∈ parts, node ∈ part.nodes) ∨ node = insertedNode blake3 (.branch branch) := by
    intro node
    rw [mem_append, mem_flatMap, mem_singleton]
  have hsub : ∀ part ∈ parts, ∀ hash ∈ part.nodes.map Prod.fst, hash ∈
      (parts.flatMap Part.nodes ++ [insertedNode blake3 (.branch branch)]).map Prod.fst := by
    intro part hpart hash hhash
    obtain ⟨node, hnode, rfl⟩ := mem_map.1 hhash
    exact mem_map_of_mem ((hmem node).2 (.inl ⟨part, hpart, hnode⟩))
  have hlinks : ∀ part ∈ parts, part.summary.hash ∈ branch.children.map ManifestChild.hash := by
    intro part hpart
    rw [hchildren, map_map]
    exact mem_map_of_mem (f := ManifestChild.hash ∘ Part.child) hpart
  have hholds : ∀ store, HoldsAll store (parts.flatMap Part.nodes ++ [insertedNode blake3 (.branch branch)]) →
      ∀ part ∈ parts, HoldsAll store part.nodes :=
    fun store hstore part hpart node hnode => hstore node ((hmem node).2 (.inl ⟨part, hpart, hnode⟩))
  exact {
    count := hcount
    bytes := hbytes
    fits := hbytes ▸ hsum
    addressed := by
      intro node hnode
      rcases (hmem node).1 hnode with ⟨part, hpart, hnode⟩ | rfl
      · exact (hparts part hpart).addressed node hnode
      · rfl
    root_mem := mem_map_of_mem (f := Prod.fst) ((hmem _).2 (.inr rfl))
    closed := by
      intro node hnode
      rcases (hmem node).1 hnode with ⟨part, hpart, hnode⟩ | rfl
      · obtain ⟨below, hbelow, hin⟩ := (hparts part hpart).closed node hnode
        exact ⟨below, hbelow, fun hash hhash => hsub part hpart hash (hin hash hhash)⟩
      · refine ⟨_, nodeLinks_branch branch, ?_⟩
        intro hash hhash
        rw [hchildren, map_map] at hhash
        obtain ⟨part, hpart, rfl⟩ := mem_map.1 hhash
        exact hsub part hpart _ (hparts part hpart).root_mem
    reached := by
      intro store hstore node hnode
      rcases (hmem node).1 hnode with ⟨part, hpart, hnode⟩ | rfl
      · have hchild : Reaches nodeLinks store (blake3 (ManifestNode.branch branch).encode)
            part.summary.hash :=
          .link .root (hstore _ ((hmem _).2 (.inr rfl))) (nodeLinks_branch branch) (hlinks part hpart)
        exact hchild.trans ((hparts part hpart).reached store (hholds store hstore part hpart) node hnode)
      · exact .root
    trie := by
      intro store hstore
      refine .branch rfl (hstore _ ((hmem _).2 (.inr rfl))) ?_ ?_
      · have hmap : branch.children.map ManifestChild.slot = parts.map Part.slot := by
          rw [hchildren, map_map]
          rfl
        refine ⟨hdepth, hlt, hlarge, hs, hmap.trans hslots, ?_, ?_⟩
        · intro child hchild
          rw [hchildren] at hchild
          obtain ⟨part, hpart, rfl⟩ := mem_map.1 hchild
          exact congrArg UInt64.ofNat (hparts part hpart).count
        · intro child hchild
          rw [hchildren] at hchild
          obtain ⟨part, hpart, rfl⟩ := mem_map.1 hchild
          exact congrArg UInt64.ofNat (hparts part hpart).bytes
      · intro child hchild
        rw [hchildren] at hchild
        obtain ⟨part, hpart, rfl⟩ := mem_map.1 hchild
        exact (hparts part hpart).trie store (hholds store hstore part hpart) }

theorem buildLevel_leaf (h : entries.length ≤ manifestLeafMaxEntries ∨ below = 0) :
    buildLevel blake3 below entries depth = buildLeaf blake3 entries := by
  cases below with
  | zero => rfl
  | succ below =>
    rw [buildLevel, if_pos]
    exact h.resolve_right (Nat.succ_ne_zero below)

theorem built_of_buildLevel (hs : SortedBy ManifestObject.key entries)
    (hdepth : below + depth = manifestRouteLevels)
    (h : buildLevel blake3 below entries depth = .ok (summary, inserted)) :
    Built blake3 entries depth summary inserted := by
  induction below generalizing entries depth summary inserted with
  | zero =>
    rw [buildLevel_leaf blake3 (.inr rfl)] at h
    exact built_leaf blake3 hs (.inr (by omega)) h
  | succ below ih =>
    rcases Nat.lt_or_ge manifestLeafMaxEntries entries.length with hlarge | hsmall
    · obtain ⟨parts, branch, hslots, hparts, hsum, hbranch, hchildren, rfl, rfl⟩ :=
        (buildLevel_branch_ok_iff blake3 hlarge).1 h
      refine built_branch blake3 hs (by omega) hlarge hslots ?_ hsum hbranch hchildren
      intro part hpart
      exact ih (bucket_sorted blake3 hs depth part.slot) (by omega) (hparts part hpart)
    · rw [buildLevel_leaf blake3 (.inl hsmall)] at h
      exact built_leaf blake3 hs (.inl hsmall) h

end Trie

end Heddle.Manifest
