import Heddle.Manifest.TrieWalk

namespace Heddle.Manifest
open Heddle.Lib List

section Total
variable {blake3 : Bytes → ContentHash}

theorem exists_parts {build : Nat → Except ManifestBuildError (Summary × Inserted)} (slots : List Nat)
    (h : ∀ slot ∈ slots, ∃ r, build slot = .ok r) : ∃ parts : List Part, parts.map Part.slot = slots ∧
      ∀ part ∈ parts, build part.slot = .ok (part.summary, part.nodes) := by
  induction slots with
  | nil => exact ⟨[], rfl, nofun⟩
  | cons slot slots ih =>
    obtain ⟨child, hchild⟩ := h slot mem_cons_self
    obtain ⟨parts, hslots, hparts⟩ := ih fun next hnext => h next (mem_cons_of_mem _ hnext)
    refine ⟨⟨slot, child.1, child.2⟩ :: parts, by rw [map_cons, hslots], ?_⟩
    intro part hpart
    rcases mem_cons.1 hpart with rfl | hpart
    · exact hchild
    · exact hparts part hpart

theorem exists_buildLeaf (hs : SortedBy ManifestObject.key entries) (hlen : entries.length < 256 ^ 2)
    (hfits : total entries < 2 ^ 64) : ∃ r, buildLeaf blake3 entries = .ok r :=
  ⟨(_, _), (buildLeaf_ok_iff blake3 hs).2 ⟨⟨entries, hs, hlen⟩, rfl, hfits, rfl, rfl⟩⟩

theorem length_of_shared {entries : List ManifestObject}
    (hfew : ∀ route, (entries.filter fun entry => entry.route blake3 = route).length < 256 ^ 2)
    (hshared : ∀ a ∈ entries, ∀ b ∈ entries, ∀ level < manifestRouteLevels,
      (a.route blake3).group level = (b.route blake3).group level) : entries.length < 256 ^ 2 := by
  cases entries with
  | nil => decide
  | cons first entries =>
    have hall : (first :: entries).filter (fun entry => entry.route blake3 = first.route blake3) =
        first :: entries := by
      rw [filter_eq_self]
      intro entry hentry
      apply decide_eq_true
      exact SourceTarget.eq_of_groups (hshared entry hentry first mem_cons_self)
    have hlen := hfew (first.route blake3)
    rwa [hall] at hlen

theorem exists_buildLevel (hs : SortedBy ManifestObject.key entries)
    (hdepth : below + depth = manifestRouteLevels) (hfits : total entries < 2 ^ 64)
    (hfew : ∀ route, (entries.filter fun entry => entry.route blake3 = route).length < 256 ^ 2)
    (hshared : ∀ a ∈ entries, ∀ b ∈ entries, ∀ level < depth,
      (a.route blake3).group level = (b.route blake3).group level) :
    ∃ r, buildLevel blake3 below entries depth = .ok r := by
  induction below generalizing entries depth with
  | zero =>
    rw [buildLevel_leaf blake3 (.inr rfl)]
    rw [Nat.zero_add] at hdepth
    exact exists_buildLeaf hs (length_of_shared hfew (hdepth ▸ hshared)) hfits
  | succ below ih =>
    rcases Nat.lt_or_ge manifestLeafMaxEntries entries.length with hlarge | hsmall
    · have hbuckets : ∀ slot ∈ (List.range manifestBranchWidth).filter (taken blake3 entries depth),
          ∃ r, buildLevel blake3 below (bucket blake3 entries depth slot) (depth + 1) = .ok r := by
        intro slot _
        apply ih (bucket_sorted blake3 hs depth slot) (by omega)
        · refine lt_of_le_of_lt ?_ hfits
          exact (filter_sublist.map _).sum_le_sum fun _ _ => Nat.zero_le _
        · intro route
          exact (filter_sublist.filter _).length_le.trans_lt (hfew route)
        · intro a ha b hb level hlevel
          obtain ⟨ha, hslot⟩ := mem_bucket.1 ha
          obtain ⟨hb, hslot'⟩ := mem_bucket.1 hb
          rcases Nat.lt_succ_iff_lt_or_eq.1 hlevel with hlt | rfl
          · exact hshared a ha b hb level hlt
          · exact hslot.trans hslot'.symm
      obtain ⟨parts, hslots, hparts⟩ := exists_parts _ hbuckets
      obtain ⟨hsorted, hrange, hne⟩ := parts_children blake3 hlarge hslots
      have hsum := (sum_parts blake3 hslots fun part hpart =>
        built_of_buildLevel blake3 (bucket_sorted blake3 hs depth part.slot) (by omega) (hparts part hpart)).2
      exact ⟨(_, _), (buildLevel_branch_ok_iff blake3 hlarge).2 ⟨parts,
        ⟨.ofNat depth, parts.map Part.child, hsorted, hrange, hne⟩, hslots, hparts, hsum ▸ hfits, rfl, rfl,
        rfl, rfl⟩⟩
    · rw [buildLevel_leaf blake3 (.inl hsmall)]
      exact exists_buildLeaf hs (hsmall.trans_lt (by decide)) hfits

end Total

section NodeMap

theorem mem_of_nodeMap {hash : ContentHash} (h : (nodeMap inserted).get hash = some bytes) :
    (hash, bytes) ∈ inserted := by
  have hfold : ∀ nodes : SortedMap ContentHash Bytes,
      (inserted.foldl (fun nodes node => nodes.put node.1 (some node.2)) nodes).get hash = some bytes →
        (hash, bytes) ∈ inserted ∨ nodes.get hash = some bytes := by
    clear h
    induction inserted with
    | nil => exact fun _ hget => .inr hget
    | cons node inserted ih =>
      intro nodes hget
      rcases ih _ hget with hmem | hput
      · exact .inl (mem_cons_of_mem _ hmem)
      · rw [SortedMap.get_put] at hput
        split at hput
        · rename_i heq
          cases hput
          exact .inl (heq ▸ mem_cons_self)
        · exact .inr hput
  exact (hfold _ h).resolve_right nofun

theorem nodeMap_isSome {hash : ContentHash} (h : hash ∈ inserted.map Prod.fst) :
    ∃ bytes, (nodeMap inserted).get hash = some bytes := by
  have hfold : ∀ nodes : SortedMap ContentHash Bytes, hash ∈ inserted.map Prod.fst ∨ (nodes.get hash).isSome →
      ((inserted.foldl (fun nodes node => nodes.put node.1 (some node.2)) nodes).get hash).isSome := by
    clear h
    induction inserted with
    | nil => exact fun _ hany => hany.resolve_left not_mem_nil
    | cons node inserted ih =>
      intro nodes hany
      apply ih
      rw [SortedMap.get_put]
      rcases hany with hmem | hsome
      · rcases mem_cons.1 hmem with rfl | hmem
        · exact .inr (by rw [if_pos rfl]; rfl)
        · exact .inl hmem
      · right
        split
        · rfl
        · exact hsome
  exact Option.isSome_iff_exists.1 (hfold _ (.inl h))

theorem holdsAll_nodeMap (haddressed : ∀ node ∈ inserted, blake3 node.2 = node.1)
    (hinj : Set.InjOn blake3 {bytes | ∃ hash, (hash, bytes) ∈ inserted}) :
    HoldsAll (nodeMap inserted).get inserted := by
  intro node hnode
  obtain ⟨bytes, hget⟩ := nodeMap_isSome (mem_map_of_mem (f := Prod.fst) hnode)
  have hmem := mem_of_nodeMap hget
  have hsame : bytes = node.2 :=
    hinj ⟨_, hmem⟩ ⟨node.1, hnode⟩ ((haddressed _ hmem).trans (haddressed node hnode).symm)
  rw [hget, hsame]

end NodeMap

section Manifest
variable (blake3 : Bytes → ContentHash)

def nodesOf (objects : List ManifestObject) : Set Bytes :=
  {bytes | ∃ entries summary inserted, uniqueEntries objects = .ok entries ∧
    buildLevel blake3 manifestRouteLevels entries 0 = .ok (summary, inserted) ∧
    ∃ hash, (hash, bytes) ∈ inserted}

theorem buildManifest_ok_iff : buildManifest blake3 objects = .ok built ↔ ∃ entries summary inserted,
    uniqueEntries objects = .ok entries ∧
      buildLevel blake3 manifestRouteLevels entries 0 = .ok (summary, inserted) ∧
      built = ⟨summary.hash, nodeMap inserted, summary.objectCount, summary.decodedBytes⟩ := by
  unfold buildManifest
  simp only [bind_eq_ok, pure_eq_ok, Except.ok.injEq, Prod.exists]
  constructor
  · rintro ⟨entries, hunique, summary, inserted, hlevel, rfl⟩
    exact ⟨entries, summary, inserted, hunique, hlevel, rfl⟩
  · rintro ⟨entries, summary, inserted, hunique, hlevel, rfl⟩
    exact ⟨entries, hunique, summary, inserted, hlevel, rfl⟩

theorem buildManifest_congr (h : ∀ object, object ∈ objects ↔ object ∈ objects')
    (hbuild : buildManifest blake3 objects = .ok built) :
    buildManifest blake3 objects' = .ok built := by
  obtain ⟨entries, summary, inserted, hunique, hlevel, hbuilt⟩ := (buildManifest_ok_iff blake3).1 hbuild
  exact (buildManifest_ok_iff blake3).2
    ⟨entries, summary, inserted, uniqueEntries_congr h hunique, hlevel, hbuilt⟩

theorem built_of_buildManifest (hbuild : buildManifest blake3 objects = .ok built) :
    ∃ entries summary inserted, uniqueEntries objects = .ok entries ∧
      Built blake3 entries 0 summary inserted ∧ nodesOf blake3 objects = {bytes | ∃ hash, (hash, bytes) ∈ inserted} ∧
      built = ⟨summary.hash, nodeMap inserted, summary.objectCount, summary.decodedBytes⟩ := by
  obtain ⟨entries, summary, inserted, hunique, hlevel, hbuilt⟩ := (buildManifest_ok_iff blake3).1 hbuild
  have hsorted := (uniqueEntries_ok_iff.1 hunique).2.1
  refine ⟨entries, summary, inserted, hunique, built_of_buildLevel blake3 hsorted rfl hlevel, ?_, hbuilt⟩
  ext bytes
  constructor
  · rintro ⟨entries', summary', inserted', hunique', hlevel', hin⟩
    cases hunique.symm.trans hunique'
    cases hlevel.symm.trans hlevel'
    exact hin
  · exact fun hin => ⟨entries, summary, inserted, hunique, hlevel, hin⟩

end Manifest

end Heddle.Manifest
