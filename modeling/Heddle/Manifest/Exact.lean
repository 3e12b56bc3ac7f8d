import Heddle.Manifest.FsckClean
import Heddle.Manifest.Rebuild

namespace Heddle.Manifest
open Heddle.Lib Heddle.PartialTree List

section Statement
variable (blake3 : Bytes → ContentHash) (source : NodeSource) (root : ContentHash)

/-- What the root reaches in the source is what was built. -/
structure ReachesExactly (built : BuiltManifest) : Prop where
  root_eq : built.root = root
  reaches : ∀ hash, Reaches nodeLinks source root hash ↔ ∃ bytes, built.nodes.get hash = some bytes
  holds : ∀ hash, Reaches nodeLinks source root hash → source hash = built.nodes.get hash

/-- The nodes that the root reaches are those that a build of some objects makes. -/
def IsBuilt : Prop := ∃ objects built, Set.InjOn blake3 (nodesOf blake3 objects) ∧
  buildManifest blake3 objects = .ok built ∧ ReachesExactly source root built

/-- The bytes that the source holds, and those of the nodes built of the objects its leaves name. -/
def knownNodes : Set Bytes :=
  {bytes | (∃ hash, source hash = some bytes) ∨
    ∃ objects, (∀ object, object ∈ objects ↔ Under source root object) ∧
      bytes ∈ nodesOf blake3 objects}

/-- The walk over the nodes, without the rebuild, reports nothing. -/
def WalkPasses : Prop := (walkFrom blake3 source none root).report = []

/-- The sizes of distinct objects under the root add up to a 64-bit number. -/
def FitsUnder : Prop := ∀ objects : List ManifestObject, objects.Nodup →
  (∀ object ∈ objects, Under source root object) → total objects < 2 ^ 64

end Statement

section Build
variable (blake3 : Bytes → ContentHash)

theorem holdsAll_of_injOn (h : Built blake3 entries 0 summary inserted)
    (hnodes : nodesOf blake3 objects = {bytes | ∃ hash, (hash, bytes) ∈ inserted})
    (hinj : Set.InjOn blake3 (nodesOf blake3 objects)) : HoldsAll (nodeMap inserted).get inserted :=
  holdsAll_nodeMap h.addressed (hnodes ▸ hinj)

theorem expandManifest_buildManifest (hbuild : buildManifest blake3 objects = .ok built)
    (hinj : Set.InjOn blake3 (nodesOf blake3 objects)) : ∃ entries, SortedBy ManifestObject.key entries ∧
      (∀ object, object ∈ entries ↔ object ∈ objects) ∧
      expandManifest blake3 built.nodes.get built.root = .ok entries ∧
      built.objectCount = entries.length ∧ built.decodedBytes = total entries := by
  obtain ⟨entries, summary, inserted, hunique, hlevel, hnodes, rfl⟩ := built_of_buildManifest blake3 hbuild
  obtain ⟨_, hsorted, hmem⟩ := uniqueEntries_ok_iff.1 hunique
  have htrie := hlevel.trie _ (holdsAll_of_injOn blake3 hlevel hnodes hinj)
  exact ⟨entries, hsorted, hmem, htrie.expandManifest, hlevel.count, hlevel.bytes⟩

theorem exists_buildManifest (hsorted : SortedBy ManifestObject.key entries)
    (hmem : ∀ object, object ∈ entries ↔ object ∈ objects) (hfits : total entries < 2 ^ 64)
    (hfew : ∀ route, (entries.filter fun entry => entry.route blake3 = route).length < 256 ^ 2) :
    ∃ built, buildManifest blake3 objects = .ok built := by
  have hall : Consistent objects := by
    intro a ha b hb hkey
    exact inj_on_of_nodup_map (sortedBy_nodup hsorted) ((hmem a).2 ha) ((hmem b).2 hb) hkey
  obtain ⟨⟨summary, inserted⟩, hlevel⟩ := exists_buildLevel hsorted
    (Nat.add_zero manifestRouteLevels) hfits hfew (fun _ _ _ _ _ hlt => absurd hlt (Nat.not_lt_zero _))
  exact ⟨_, (buildManifest_ok_iff blake3).2 ⟨entries, summary, inserted,
    uniqueEntries_ok_iff.2 ⟨hall, hsorted, hmem⟩, hlevel, rfl⟩⟩

end Build

section Fsck
variable {blake3 : Bytes → ContentHash} {source : NodeSource} {root : ContentHash} {walk : Walk}

structure Walked (blake3 : Bytes → ContentHash) (source : NodeSource) (root : ContentHash) (walk : Walk) :
    Prop where
  orderly : Orderly blake3 walk.objects
  complete : walk.expansionComplete = true
  sound : Sound blake3 nodeLinks source root
  objects : ∀ object, object ∈ walk.objects ↔ Under source root object

theorem walked_of_passes (h : WalkPasses blake3 source root) :
    Walked blake3 source root (walkFrom blake3 source none root) := by
  have hquiet : (visit blake3 source none (manifestRouteLevels + 1) root 0 true .start).2.report =
    Walk.start.report := h
  obtain ⟨found, hclean, hroot, hunder⟩ := visit_clean hquiet
  have hfound : (walkFrom blake3 source none root).objects = found := hclean.objects
  have hclosed : ∀ hash ∈ (walkFrom blake3 source none root).visited,
      Complete blake3 source (walkFrom blake3 source none root) hash :=
    fun hash hmem => (hclean.closed hash hmem).resolve_left not_mem_nil
  have hvisited : ∀ hash, Reaches nodeLinks source root hash →
      hash ∈ (walkFrom blake3 source none root).visited := by
    intro hash hreaches
    apply hreaches.closed (P := fun hash => hash ∈ (walkFrom blake3 source none root).visited) hroot
    intro parent body below hparent hbody hlinks child hchild
    obtain ⟨bytes, below', hbytes, _, hlinks', hbelow⟩ := (hclosed parent hparent).node
    cases hbody.symm.trans hbytes
    cases hlinks.symm.trans hlinks'
    exact hbelow child hchild
  refine ⟨hfound ▸ hclean.orderly, hclean.complete, ?_, ?_⟩
  · intro hash hreaches
    obtain ⟨bytes, below, hbytes, hdigest, hlinks, _⟩ := (hclosed hash (hvisited hash hreaches)).node
    exact ⟨bytes, below, hbytes, hdigest, hlinks⟩
  · intro object
    constructor
    · exact fun hmem => hunder object (hfound ▸ hmem)
    · rintro ⟨hash, leaf, hreaches, hleaf, hentry⟩
      exact (hclosed hash (hvisited hash hreaches)).entries leaf hleaf object hentry

theorem fsckManifest_eq_nil_iff : fsckManifest blake3 source root = [] ↔ WalkPasses blake3 source root ∧
    ∀ rebuilt, buildManifest blake3 (walkFrom blake3 source none root).objects = .ok rebuilt →
      rebuilt.root = root := by
  unfold fsckManifest fsckManifestWith
  simp only
  constructor
  · intro hclean
    have hreport : WalkPasses blake3 source root := by
      split at hclean
      · split at hclean
        · split at hclean
          · exact absurd hclean (append_ne_nil_of_right_ne_nil _ (cons_ne_nil _ _))
          · exact hclean
        · exact hclean
      · exact hclean
    refine ⟨hreport, ?_⟩
    intro rebuilt hrebuilt
    rw [if_pos (walked_of_passes hreport).complete, hrebuilt] at hclean
    simp only at hclean
    split at hclean
    · exact absurd hclean (append_ne_nil_of_right_ne_nil _ (cons_ne_nil _ _))
    · rename_i hroot
      exact not_not.1 hroot
  · rintro ⟨hreport, hrebuild⟩
    rw [if_pos (walked_of_passes hreport).complete]
    split
    · rename_i rebuilt hrebuilt
      rw [if_neg (not_not.2 (hrebuild rebuilt hrebuilt))]
      exact hreport
    · exact hreport

theorem nodup_of_orderly (h : Orderly blake3 objects) : objects.Nodup :=
  h.nodup.of_map _

theorem fitsUnder_iff (h : Walked blake3 source root walk) :
    FitsUnder source root ↔ total walk.objects < 2 ^ 64 := by
  constructor
  · exact fun hfits => hfits walk.objects (nodup_of_orderly h.orderly) fun object => (h.objects object).1
  · intro hfits objects hnodup hunder
    have hsub := subperm_of_subset hnodup fun object hmem => (h.objects object).2 (hunder object hmem)
    obtain ⟨part, hperm, hsublist⟩ := hsub
    rw [← total_perm hperm]
    refine lt_of_le_of_lt ?_ hfits
    exact (hsublist.map _).sum_le_sum fun _ _ => Nat.zero_le _

theorem exists_rebuild (h : Walked blake3 source root walk) (hfits : total walk.objects < 2 ^ 64) :
    ∃ rebuilt, buildManifest blake3 walk.objects = .ok rebuilt := by
  have hsorted : SortedBy ManifestObject.key (sortBy ManifestObject.key walk.objects) :=
    sortBy_sorted h.orderly.nodup
  have hperm : (sortBy ManifestObject.key walk.objects).Perm walk.objects := perm_insertionSort _ _
  apply exists_buildManifest blake3 hsorted (fun object => hperm.mem_iff)
  · rwa [total_perm hperm]
  · intro route
    rw [(hperm.filter _).length_eq]
    exact h.orderly.few route

theorem sound_of_built (h : Built blake3 entries 0 summary inserted)
    (hholds : HoldsAll store inserted) : Sound blake3 nodeLinks store summary.hash ∧
      ∀ hash, Reaches nodeLinks store summary.hash hash → hash ∈ inserted.map Prod.fst := by
  have hreached : ∀ hash, Reaches nodeLinks store summary.hash hash → hash ∈ inserted.map Prod.fst := by
    intro hash hreaches
    apply hreaches.closed (P := fun hash => hash ∈ inserted.map Prod.fst) h.root_mem
    intro parent body below hparent hbody hlinks
    obtain ⟨node, hnode, rfl⟩ := mem_map.1 hparent
    cases hbody.symm.trans (hholds node hnode)
    obtain ⟨below', hlinks', hbelow⟩ := h.closed node hnode
    cases hlinks.symm.trans hlinks'
    exact hbelow
  refine ⟨?_, hreached⟩
  intro hash hreaches
  obtain ⟨node, hnode, rfl⟩ := mem_map.1 (hreached hash hreaches)
  obtain ⟨below, hlinks, _⟩ := h.closed node hnode
  exact ⟨node.2, below, hholds node hnode, h.addressed node hnode, hlinks⟩

theorem isBuilt_of_walked (hinj : Set.InjOn blake3 (knownNodes blake3 source root))
    (h : Walked blake3 source root walk) (hrebuild : buildManifest blake3 walk.objects = .ok rebuilt)
    (hroot : rebuilt.root = root) : IsBuilt blake3 source root := by
  have hnodesKnown : nodesOf blake3 walk.objects ⊆ knownNodes blake3 source root :=
    fun bytes hbytes => .inr ⟨walk.objects, h.objects, hbytes⟩
  have hinjNodes := hinj.mono hnodesKnown
  obtain ⟨entries, summary, inserted, hunique, hlevel, hnodes, hbuilt⟩ := built_of_buildManifest blake3 hrebuild
  have hholds := holdsAll_of_injOn blake3 hlevel hnodes hinjNodes
  obtain ⟨hsound, hreached⟩ := sound_of_built hlevel hholds
  have hsame : summary.hash = root := by
    rw [hbuilt] at hroot
    exact hroot
  rw [hsame] at hsound hreached
  have hagree := h.sound.agree hsound (hinj.mono (by
    rintro bytes ⟨hash, hsource | hmap⟩
    · exact .inl ⟨hash, hsource⟩
    · apply hnodesKnown
      rw [hnodes]
      exact ⟨hash, mem_of_nodeMap hmap⟩))
  refine ⟨walk.objects, rebuilt, hinjNodes, hrebuild, hroot, ?_, ?_⟩
  · intro hash
    rw [hagree.1 hash, hbuilt]
    constructor
    · exact fun hreaches => nodeMap_isSome (hreached hash hreaches)
    · rintro ⟨bytes, hget⟩
      have hin := hlevel.reached _ hholds _ (mem_of_nodeMap hget)
      rwa [hsame] at hin
  · intro hash hreaches
    rw [hagree.2 hash hreaches, hbuilt]

theorem walk_of_built (h : Built blake3 entries 0 summary inserted) (hholds : HoldsAll source inserted) :
    WalkPasses blake3 source summary.hash ∧
      (walkFrom blake3 source none summary.hash).objects.Perm entries := by
  have htrie := h.trie source hholds
  obtain ⟨walk, hvisit, hpassed⟩ := htrie.visit (Nat.add_zero (manifestRouteLevels + 1)) (Nat.zero_le _)
    (show Fresh blake3 source Walk.start.visited 0 entries from nofun) not_mem_nil
    (show true = false → entries ≠ [] from nofun) h.fits (show Indexed none entries from nofun)
  have hwalk : walkFrom blake3 source none summary.hash = walk := congrArg Prod.snd hvisit
  obtain ⟨found, hfound, hperm⟩ := hpassed.objects
  rw [WalkPasses, hwalk, hfound]
  exact ⟨hpassed.report, hperm⟩

theorem fsck_of_isBuilt (h : IsBuilt blake3 source root) : fsckManifest blake3 source root = [] ∧
    total (walkFrom blake3 source none root).objects < 2 ^ 64 := by
  obtain ⟨objects, built, hinj, hbuild, hexact⟩ := h
  obtain ⟨entries, summary, inserted, hunique, hlevel, hnodes, rfl⟩ := built_of_buildManifest blake3 hbuild
  have hmap := holdsAll_of_injOn blake3 hlevel hnodes hinj
  have hholds : HoldsAll source inserted := by
    intro node hnode
    have hget := hmap node hnode
    rw [← hget]
    exact hexact.holds node.1 ((hexact.reaches node.1).2 ⟨node.2, hget⟩)
  obtain rfl : summary.hash = root := hexact.root_eq
  obtain ⟨hpasses, hobjects⟩ := walk_of_built hlevel hholds
  refine ⟨fsckManifest_eq_nil_iff.2 ⟨hpasses, ?_⟩, ?_⟩
  · intro rebuilt hrebuilt
    have hmem : ∀ object, object ∈ objects ↔
        object ∈ (walkFrom blake3 source none summary.hash).objects := by
      intro object
      rw [hobjects.mem_iff, (uniqueEntries_ok_iff.1 hunique).2.2]
    cases (buildManifest_congr blake3 hmem hbuild).symm.trans hrebuilt
    rfl
  · rw [total_perm hobjects]
    exact hlevel.fits

/-- The check passes what was just built. -/
theorem walk_of_buildManifest (hbuild : buildManifest blake3 objects = .ok built)
    (hinj : Set.InjOn blake3 (nodesOf blake3 objects)) : WalkPasses blake3 built.nodes.get built.root ∧
      (∀ object, object ∈ (walkFrom blake3 built.nodes.get none built.root).objects ↔ object ∈ objects) ∧
      total (walkFrom blake3 built.nodes.get none built.root).objects < 2 ^ 64 := by
  obtain ⟨entries, summary, inserted, hunique, hlevel, hnodes, rfl⟩ := built_of_buildManifest blake3 hbuild
  obtain ⟨hpasses, hobjects⟩ := walk_of_built hlevel (holdsAll_of_injOn blake3 hlevel hnodes hinj)
  refine ⟨hpasses, ?_, ?_⟩
  · intro object
    rw [hobjects.mem_iff, (uniqueEntries_ok_iff.1 hunique).2.2]
  · rw [total_perm hobjects]
    exact hlevel.fits

end Fsck

section Exact
variable (blake3 : Bytes → ContentHash) (source : NodeSource) (root : ContentHash)

theorem total_of_build (hbuild : buildManifest blake3 objects = .ok built)
    (hnodup : objects.Nodup) : total objects < 2 ^ 64 := by
  obtain ⟨entries, summary, inserted, hunique, hlevel, _⟩ := built_of_buildManifest blake3 hbuild
  obtain ⟨_, hsorted, hmem⟩ := uniqueEntries_ok_iff.1 hunique
  rw [← total_perm ((perm_ext_iff_of_nodup (nodup_of_sorted hsorted) hnodup).2 hmem)]
  exact hlevel.fits

/-- A check that finds nothing stands for a built manifest, except where the sizes overflow and the
rebuild is passed over. -/
theorem manifestExact (hinj : Set.InjOn blake3 (knownNodes blake3 source root)) :
    ((fsckManifest blake3 source root = [] ↔ IsBuilt blake3 source root) ↔
      (WalkPasses blake3 source root → FitsUnder source root)) ∧
    (∀ bytes node, ManifestNode.decode bytes = .ok node ↔ bytes = node.encode) ∧
    (∀ objects objects' built, (∀ object, object ∈ objects ↔ object ∈ objects') →
      buildManifest blake3 objects = .ok built → buildManifest blake3 objects' = .ok built) ∧
    (∀ objects built, buildManifest blake3 objects = .ok built → Set.InjOn blake3 (nodesOf blake3 objects) →
      ∃ entries, SortedBy ManifestObject.key entries ∧ (∀ object, object ∈ entries ↔ object ∈ objects) ∧
        expandManifest blake3 built.nodes.get built.root = .ok entries ∧
        built.objectCount = entries.length ∧ built.decodedBytes = total entries) ∧
    ∀ objects entries, SortedBy ManifestObject.key entries → (∀ object, object ∈ entries ↔ object ∈ objects) →
      total entries < 2 ^ 64 →
      (∀ route, (entries.filter fun entry => entry.route blake3 = route).length < 256 ^ 2) →
      ∃ built, buildManifest blake3 objects = .ok built := by
  refine ⟨⟨?_, ?_⟩, fun _ _ => decode_ok_iff, fun _ _ _ => buildManifest_congr blake3,
    fun _ _ => expandManifest_buildManifest blake3, fun _ _ => exists_buildManifest blake3⟩
  · intro hexact hpasses
    have hwalked := walked_of_passes hpasses
    rw [fitsUnder_iff hwalked]
    by_contra hlarge
    have hclean : fsckManifest blake3 source root = [] := fsckManifest_eq_nil_iff.2 ⟨hpasses,
      fun rebuilt hrebuilt => absurd (total_of_build blake3 hrebuilt (nodup_of_orderly hwalked.orderly)) hlarge⟩
    exact hlarge (fsck_of_isBuilt (hexact.1 hclean)).2
  · intro hfits
    constructor
    · intro hclean
      obtain ⟨hpasses, hrebuild⟩ := fsckManifest_eq_nil_iff.1 hclean
      have hwalked := walked_of_passes hpasses
      obtain ⟨rebuilt, hrebuilt⟩ := exists_rebuild hwalked ((fitsUnder_iff hwalked).1 (hfits hpasses))
      exact isBuilt_of_walked hinj hwalked hrebuilt (hrebuild rebuilt hrebuilt)
    · exact fun hbuilt => (fsck_of_isBuilt hbuilt).1

end Exact

section Example
variable {blake3 : Bytes → ContentHash} {source : NodeSource} {root : ContentHash}

theorem walkFrom_leaf (hstore : source root = some (ManifestNode.leaf leaf).encode)
    (hhash : blake3 (ManifestNode.leaf leaf).encode = root)
    (hsmall : leaf.entries.length ≤ manifestLeafMaxEntries) :
    walkFrom blake3 source none root = { Walk.start.enter root with objects := leaf.entries } := by
  have hempty : ¬(leaf.entries = [] ∧ true = false) := fun h => by cases h.2
  have hfull : ¬(manifestLeafMaxEntries < leaf.entries.length ∧ 0 < manifestRouteLevels) := by omega
  have hnew : root ∉ Walk.start.visited := not_mem_nil
  rw [walkFrom, visit, if_neg hnew]
  simp only [hstore, hhash, ne_eq, not_true_eq_false, if_false, decode_encoded]
  unfold visitLeaf
  simp only [pushIf_neg hempty, pushIf_neg hfull]
  exact foldl_visitEntry fun _ h => by cases h

theorem knownNodes_built (hbuild : buildManifest blake3 objects = .ok built)
    (hunder : ∀ object, object ∈ objects ↔ Under built.nodes.get built.root object) :
    knownNodes blake3 built.nodes.get built.root ⊆ nodesOf blake3 objects := by
  rintro bytes (⟨hash, hget⟩ | ⟨objects', hunder', entries, summary, inserted, hunique, hnode⟩)
  · obtain ⟨_, _, inserted, _, _, hnodes, rfl⟩ := built_of_buildManifest blake3 hbuild
    rw [hnodes]
    exact ⟨hash, mem_of_nodeMap hget⟩
  · have hsame := fun object => (hunder' object).trans (hunder object).symm
    exact ⟨entries, summary, inserted, uniqueEntries_congr hsame hunique, hnode⟩

theorem injOn_nodesOf (hunique : uniqueEntries objects = .ok entries)
    (hlevel : buildLevel blake3 manifestRouteLevels entries 0 = .ok (summary, inserted))
    (hnodup : (inserted.map fun node => blake3 node.2).Nodup) :
    Set.InjOn blake3 (nodesOf blake3 objects) := by
  rintro _ ⟨_, _, _, hunique', hlevel', _, hin⟩ _ ⟨_, _, _, hunique'', hlevel'', _, hin'⟩ heq
  cases hunique.symm.trans hunique'
  cases hunique.symm.trans hunique''
  cases hlevel.symm.trans hlevel'
  cases hlevel.symm.trans hlevel''
  exact congrArg Prod.snd (inj_on_of_nodup_map hnodup hin hin' heq)

def blobObject (byte : UInt8) (decodedSize : UInt64) : ManifestObject :=
  ⟨.blob, ⟨(Vector.replicate 32 0).set 31 byte⟩, decodedSize⟩

/-- One object more than a leaf holds; they build three leaves under a branch. -/
def manyObjects : List ManifestObject :=
  (List.range 17).map fun n => blobObject (.ofNat n) (.ofNat n)

def manyLevel : Summary × Inserted :=
  (buildLevel polyHash manifestRouteLevels manyObjects 0).toOption.getD (⟨polyHash [], 0, 0⟩, [])

def manyBuilt : BuiltManifest :=
  ⟨manyLevel.1.hash, nodeMap manyLevel.2, manyLevel.1.objectCount, manyLevel.1.decodedBytes⟩

theorem manyUnique : uniqueEntries manyObjects = .ok manyObjects := by
  have hchain : (manyObjects.map ManifestObject.key).IsChain (· < ·) := by decide +kernel
  have hsorted : SortedBy ManifestObject.key manyObjects := pairwise_map.1 hchain.pairwise
  have hconsistent := inj_on_of_nodup_map (sortedBy_nodup hsorted)
  exact uniqueEntries_ok_iff.2 ⟨hconsistent, hsorted, fun _ => .rfl⟩

theorem manyLevel_built :
    buildLevel polyHash manifestRouteLevels manyObjects 0 = .ok (manyLevel.1, manyLevel.2) ∧
    (manyLevel.2.map fun node => polyHash node.2).Nodup ∧ manyLevel.2.length = 4 := by decide +kernel

theorem manyBuilt_ok : buildManifest polyHash manyObjects = .ok manyBuilt :=
  (buildManifest_ok_iff polyHash).2
    ⟨manyObjects, manyLevel.1, manyLevel.2, manyUnique, manyLevel_built.1, manyBuilt.eq_1⟩

theorem manifestExact_branch :
    fsckManifest polyHash manyBuilt.nodes.get manyBuilt.root = [] ↔
      IsBuilt polyHash manyBuilt.nodes.get manyBuilt.root := by
  have hinj := injOn_nodesOf manyUnique manyLevel_built.1 manyLevel_built.2.1
  obtain ⟨hpasses, hobjects, hfits⟩ := walk_of_buildManifest manyBuilt_ok hinj
  have hwalked := walked_of_passes hpasses
  have hknown := hinj.mono (knownNodes_built manyBuilt_ok fun object =>
    (hobjects object).symm.trans (hwalked.objects object))
  apply (manifestExact polyHash manyBuilt.nodes.get manyBuilt.root hknown).1.2
  exact fun _ => (fitsUnder_iff hwalked).2 hfits

def overflowLeaf : ManifestLeaf := ⟨[blobObject 1 18446744073709551615, blobObject 2 1], by
  refine sortedBy_cons.2 ⟨?_, pairwise_singleton _ _⟩
  intro entry hentry
  rw [mem_singleton.1 hentry]
  decide +kernel, by decide⟩

def leafSource (leaf : ManifestLeaf) : NodeSource := fun hash =>
  if hash = polyHash (ManifestNode.leaf leaf).encode then some (ManifestNode.leaf leaf).encode else none

theorem leafSource_eq (hash : ContentHash) (bytes : Bytes) (h : leafSource leaf hash = some bytes) :
    bytes = (ManifestNode.leaf leaf).encode := by
  unfold leafSource at h
  split at h
  · exact (Option.some.inj h).symm
  · cases h

/-- A leaf whose sizes overflow is passed, and no set of objects builds it. -/
theorem fsckManifest_overflowLeaf :
    Set.InjOn polyHash (knownNodes polyHash (leafSource overflowLeaf)
      (polyHash (ManifestNode.leaf overflowLeaf).encode)) ∧
    fsckManifest polyHash (leafSource overflowLeaf) (polyHash (ManifestNode.leaf overflowLeaf).encode) = [] ∧
    ¬IsBuilt polyHash (leafSource overflowLeaf) (polyHash (ManifestNode.leaf overflowLeaf).encode) := by
  have hwalk := @walkFrom_leaf polyHash (leafSource overflowLeaf) _ overflowLeaf (if_pos rfl) rfl (by decide)
  have hlarge : ¬total overflowLeaf.entries < 2 ^ 64 := by decide
  have hpasses : WalkPasses polyHash (leafSource overflowLeaf)
      (polyHash (ManifestNode.leaf overflowLeaf).encode) := by
    rw [WalkPasses, hwalk]
    rfl
  have hunder := (walked_of_passes hpasses).objects
  rw [hwalk] at hunder
  have hknown : ∀ bytes ∈ knownNodes polyHash (leafSource overflowLeaf)
      (polyHash (ManifestNode.leaf overflowLeaf).encode),
      bytes = (ManifestNode.leaf overflowLeaf).encode := by
    rintro bytes (⟨hash, hget⟩ | ⟨objects, hsame, entries, summary, inserted, hunique, hlevel, _⟩)
    · exact leafSource_eq hash bytes hget
    · obtain ⟨_, hsorted, hmem⟩ := uniqueEntries_ok_iff.1 hunique
      have hentries : entries = overflowLeaf.entries := sortedBy_ext_mem hsorted overflowLeaf.sorted
        fun object => (hmem object).trans ((hsame object).trans (hunder object).symm)
      have hfits := (built_of_buildLevel polyHash hsorted rfl hlevel).fits
      exact absurd (hentries ▸ hfits) hlarge
  refine ⟨?_, fsckManifest_eq_nil_iff.2 ⟨hpasses, ?_⟩, ?_⟩
  · intro bytes hbytes bytes' hbytes' _
    exact (hknown bytes hbytes).trans (hknown bytes' hbytes').symm
  · intro rebuilt hrebuilt
    rw [hwalk] at hrebuilt
    exact absurd (total_of_build polyHash hrebuilt (by decide)) hlarge
  · intro hbuilt
    have hfits := (fsck_of_isBuilt hbuilt).2
    rw [hwalk] at hfits
    exact hlarge hfits

end Example

end Heddle.Manifest
