import Heddle.Manifest.Fsck
import Heddle.Manifest.Trie

namespace Heddle.Manifest
open Heddle.Lib List

section TrieWalk
variable {blake3 : Bytes → ContentHash} {store : NodeSource} {hash : ContentHash}

theorem mem_bucket : entry ∈ bucket blake3 entries depth slot ↔
    entry ∈ entries ∧ (entry.route blake3).group depth = slot := by
  rw [bucket, mem_filter, decide_eq_true_eq]

section
variable (h : IsBranch blake3 entries depth branch)
include h

theorem IsBranch.slot_of_mem (hmem : entry ∈ entries) :
    ∃ child ∈ branch.children, (entry.route blake3).group depth = child.slot := by
  have htaken : (entry.route blake3).group depth ∈ branch.children.map ManifestChild.slot := by
    rw [h.slots, mem_filter, mem_range]
    exact ⟨group_lt _ _, (taken_iff blake3).2 ⟨entry, hmem, rfl⟩⟩
  obtain ⟨child, hchild, hslot⟩ := mem_map.1 htaken
  exact ⟨child, hchild, hslot.symm⟩

theorem IsBranch.bucket_ne_nil
    (hchild : child ∈ branch.children) : bucket blake3 entries depth child.slot ≠ [] := by
  have hslot := mem_map_of_mem (f := ManifestChild.slot) hchild
  rw [h.slots] at hslot
  exact of_decide_eq_true (mem_filter.1 hslot).2

theorem IsBranch.depth_eq' (h' : IsBranch blake3 entries' depth' branch) : depth' = depth := by
  have hlt : depth < 256 := h.lt.trans (by decide)
  have hlt' : depth' < 256 := h'.lt.trans (by decide)
  have heq := congrArg UInt8.toNat (h.depth_eq.symm.trans h'.depth_eq)
  rw [UInt8.toNat_ofNat_of_lt' hlt, UInt8.toNat_ofNat_of_lt' hlt'] at heq
  exact heq.symm

end

theorem Trie.sorted (h : Trie blake3 store depth hash entries) : SortedBy ManifestObject.key entries := by
  cases h with
  | @leaf _ _ leaf => exact leaf.sorted
  | branch _ _ hbranch _ => exact hbranch.sorted

/-- A branch stands at one depth only: its bytes say which. -/
theorem Trie.depth_of_branch {branch : ManifestBranch} (h : IsBranch blake3 entries depth branch)
    (hstore : store hash = some (ManifestNode.branch branch).encode)
    (h' : Trie blake3 store depth' hash entries') : depth' = depth := by
  cases h' with
  | leaf _ hstore' _ => cases encode_injective (Option.some.inj (hstore.symm.trans hstore'))
  | branch _ hstore' hbranch' _ =>
    cases encode_injective (Option.some.inj (hstore.symm.trans hstore'))
    exact h.depth_eq' hbranch'

theorem Trie.unique (h : Trie blake3 store depth hash entries) (h' : Trie blake3 store depth' hash entries') :
    entries = entries' := by
  induction h generalizing depth' entries' with
  | leaf _ hstore _ =>
    cases h' with
    | leaf _ hstore' _ =>
      cases encode_injective (Option.some.inj (hstore.symm.trans hstore'))
      rfl
    | branch _ hstore' _ _ => cases encode_injective (Option.some.inj (hstore.symm.trans hstore'))
  | @branch entries depth hash branch _ hstore hbranch _ ih =>
    cases h' with
    | leaf _ hstore' _ => cases encode_injective (Option.some.inj (hstore.symm.trans hstore'))
    | branch _ hstore' hbranch' hchildren' =>
      cases encode_injective (Option.some.inj (hstore.symm.trans hstore'))
      obtain rfl := hbranch.depth_eq' hbranch'
      have hbucket : ∀ child ∈ branch.children,
          bucket blake3 entries depth' child.slot = bucket blake3 entries' depth' child.slot :=
        fun child hchild => ih child hchild (hchildren' child hchild)
      apply sortedBy_ext_mem hbranch.sorted hbranch'.sorted
      intro entry
      constructor
      · intro hmem
        obtain ⟨child, hchild, hslot⟩ := hbranch.slot_of_mem hmem
        have hin := mem_bucket.2 ⟨hmem, hslot⟩
        rw [hbucket child hchild] at hin
        exact (mem_bucket.1 hin).1
      · intro hmem
        obtain ⟨child, hchild, hslot⟩ := hbranch'.slot_of_mem hmem
        have hin := mem_bucket.2 ⟨hmem, hslot⟩
        rw [← hbucket child hchild] at hin
        exact (mem_bucket.1 hin).1

def Fresh (blake3 : Bytes → ContentHash) (store : NodeSource) (visited : List ContentHash) (depth : Nat)
    (entries : List ManifestObject) : Prop :=
  ∀ hash ∈ visited, ∀ depth' entries', Trie blake3 store depth' hash entries' →
    (∀ entry ∈ entries', entry ∉ entries) ∨ depth' < depth

def Part.Of (blake3 : Bytes → ContentHash) (store : NodeSource) (entries : List ManifestObject)
    (hash : ContentHash) : Prop :=
  ∃ depth entries', Trie blake3 store depth hash entries' ∧ ∀ entry ∈ entries', entry ∈ entries

theorem Fresh.not_mem (h : Fresh blake3 store visited depth entries)
    (htrie : Trie blake3 store depth hash entries) (hne : entries ≠ []) : hash ∉ visited := by
  intro hmem
  rcases h hash hmem depth entries htrie with hdisjoint | hlt
  · obtain ⟨entry, hentry⟩ := exists_mem_of_ne_nil entries hne
    exact hdisjoint entry hentry hentry
  · exact Nat.lt_irrefl _ hlt

def Seen (blake3 : Bytes → ContentHash) (store : NodeSource) (before : List ContentHash) (hash : ContentHash)
    (entries : List ManifestObject) (depth : Nat) (slots : List Nat) (visited : List ContentHash) : Prop :=
  ∀ found ∈ visited, found ∈ before ∨ found = hash ∨ ∃ depth' entries',
    Trie blake3 store depth' found entries' ∧
      ∀ entry ∈ entries', entry ∈ entries ∧ (entry.route blake3).group depth ∉ slots

theorem seen_enter (before : List ContentHash) (hash : ContentHash) (entries : List ManifestObject)
    (depth : Nat) (slots : List Nat) :
    Seen blake3 store before hash entries depth slots (hash :: before) := by
  intro found hfound
  rcases mem_cons.1 hfound with rfl | hfound
  · exact .inr (.inl rfl)
  · exact .inl hfound

section
variable (h : Seen blake3 store before hash entries depth (slot :: slots) visited)
include h

theorem Seen.fresh (hfresh : Fresh blake3 store before depth entries)
    (hbranch : IsBranch blake3 entries depth branch)
    (hstore : store hash = some (ManifestNode.branch branch).encode) :
    Fresh blake3 store visited (depth + 1) (bucket blake3 entries depth slot) := by
  intro found hfound depth' entries' htrie
  rcases h found hfound with hbefore | rfl | ⟨depth'', entries'', htrie'', hpart⟩
  · rcases hfresh found hbefore depth' entries' htrie with hdisjoint | hlt
    · exact .inl fun entry hentry hin => hdisjoint entry hentry (mem_bucket.1 hin).1
    · exact .inr (Nat.lt_succ_of_lt hlt)
  · right
    rw [Trie.depth_of_branch hbranch hstore htrie]
    exact Nat.lt_succ_self depth
  · left
    intro entry hentry hin
    rw [htrie.unique htrie''] at hentry
    exact (hpart entry hentry).2 ((mem_bucket.1 hin).2 ▸ mem_cons_self)

theorem Seen.next (hslot : slot ∉ slots) (hnew : ∀ found ∈ visited', found ∈ visited ∨
      Part.Of blake3 store (bucket blake3 entries depth slot) found) :
    Seen blake3 store before hash entries depth slots visited' := by
  intro found hfound
  rcases hnew found hfound with hold | ⟨depth', entries', htrie, hpart⟩
  · rcases h found hold with hbefore | heq | ⟨depth', entries', htrie, hpart⟩
    · exact .inl hbefore
    · exact .inr (.inl heq)
    · exact .inr (.inr ⟨depth', entries', htrie, fun entry hentry =>
        ⟨(hpart entry hentry).1, fun hin => (hpart entry hentry).2 (mem_cons_of_mem _ hin)⟩⟩)
  · refine .inr (.inr ⟨depth', entries', htrie, fun entry hentry => ?_⟩)
    obtain ⟨hin, hgroup⟩ := mem_bucket.1 (hpart entry hentry)
    exact ⟨hin, hgroup ▸ hslot⟩

end

theorem Seen.leave (h : Seen blake3 store before hash entries depth slots visited)
    (htrie : Trie blake3 store depth hash entries) :
    ∀ found ∈ visited, found ∈ before ∨ Part.Of blake3 store entries found := by
  intro found hfound
  rcases h found hfound with hbefore | rfl | ⟨depth', entries', htrie', hpart⟩
  · exact .inl hbefore
  · exact .inr ⟨depth, entries, htrie, fun _ hentry => hentry⟩
  · exact .inr ⟨depth', entries', htrie', fun entry hentry => (hpart entry hentry).1⟩

theorem IsBranch.entries_perm (h : IsBranch blake3 entries depth branch) :
    (branch.children.flatMap fun child => bucket blake3 entries depth child.slot).Perm entries := by
  have hperm := buckets_perm blake3 entries depth
  rwa [← h.slots, flatMap_map] at hperm

theorem slots_nodup (branch : ManifestBranch) : (branch.children.map ManifestChild.slot).Nodup :=
  sortedBy_nodup branch.sorted

end TrieWalk

section Expand
variable {blake3 : Bytes → ContentHash} {store : NodeSource} {hash : ContentHash}

structure Expanded (store : NodeSource) (blake3 : Bytes → ContentHash) (entries : List ManifestObject)
    (found found' : Expansion) : Prop where
  objects : found'.objects = found.objects ∪ entries.toFinset
  visited : ∀ hash ∈ found'.visited, hash ∈ found.visited ∨ Part.Of blake3 store entries hash

theorem expandChildren (children : List ManifestChild) (found : Expansion)
    (hfresh : Fresh blake3 store before depth entries)
    (hbranch : IsBranch blake3 entries depth branch)
    (hstore : store hash = some (ManifestNode.branch branch).encode)
    (hchildren : ∀ child ∈ children, ∀ found : Expansion,
      Fresh blake3 store found.visited (depth + 1) (bucket blake3 entries depth child.slot) →
      ∃ found', expandNode blake3 store below child.hash found = .ok found' ∧
        Expanded store blake3 (bucket blake3 entries depth child.slot) found found')
    (hnodup : (children.map ManifestChild.slot).Nodup)
    (hseen : Seen blake3 store before hash entries depth (children.map ManifestChild.slot) found.visited) :
    ∃ found', children.foldlM (fun found child => expandNode blake3 store below child.hash found) found =
        .ok found' ∧
      found'.objects = found.objects ∪
        (children.flatMap fun child => bucket blake3 entries depth child.slot).toFinset ∧
      Seen blake3 store before hash entries depth [] found'.visited := by
  induction children generalizing found with
  | nil => exact ⟨found, rfl, (Finset.union_empty _).symm, hseen⟩
  | cons child children ih =>
    obtain ⟨hslot, hnodup⟩ := nodup_cons.1 hnodup
    obtain ⟨middle, hexpand, hobjects, hvisited⟩ :=
      hchildren child mem_cons_self found (hseen.fresh hfresh hbranch hstore)
    obtain ⟨found', hrest, hobjects', hseen'⟩ := ih middle
      (fun next hnext => hchildren next (mem_cons_of_mem _ hnext)) hnodup (hseen.next hslot hvisited)
    refine ⟨found', ?_, ?_, hseen'⟩
    · rw [foldlM_cons, hexpand]
      exact hrest
    · rw [hobjects', hobjects, flatMap_cons, toFinset_append, Finset.union_assoc]

theorem Trie.expand {below : Nat} (h : Trie blake3 store depth hash entries)
    (hdepth : below + depth = manifestRouteLevels + 1) (hle : depth ≤ manifestRouteLevels)
    (hfresh : Fresh blake3 store found.visited depth entries) (hnew : hash ∉ found.visited) :
    ∃ found', expandNode blake3 store below hash found = .ok found' ∧
      Expanded store blake3 entries found found' := by
  induction h generalizing below found with
  | @leaf depth hash leaf hhash hstore hsmall =>
    obtain ⟨below, rfl⟩ : ∃ n, below = n + 1 := ⟨below - 1, by omega⟩
    refine ⟨⟨hash :: found.visited, found.objects ∪ leaf.entries.toFinset⟩, ?_, rfl, ?_⟩
    · rw [expandNode, if_neg hnew]
      simp only [bind_eq_ok, mapError_ok_iff, elim_ok_iff, decodeAddressed_ok_iff]
      exact ⟨_, hstore, .leaf leaf, ⟨rfl, hhash⟩, rfl⟩
    · exact (seen_enter found.visited hash leaf.entries depth []).leave (.leaf hhash hstore hsmall)
  | @branch entries depth hash branch hhash hstore hbranch hchildren ih =>
    have hlt := hbranch.lt
    obtain ⟨below, rfl⟩ : ∃ n, below = n + 1 := ⟨below - 1, by omega⟩
    have hbelow : below + (depth + 1) = manifestRouteLevels + 1 := by omega
    obtain ⟨found', hfold, hobjects, hseen⟩ := expandChildren branch.children
      { found with visited := hash :: found.visited } hfresh hbranch hstore
      (fun child hchild found hfresh => ih child hchild hbelow hlt hfresh
        (hfresh.not_mem (hchildren child hchild) (hbranch.bucket_ne_nil hchild)))
      (slots_nodup branch) (seen_enter found.visited hash entries depth _)
    refine ⟨found', ?_, ?_, hseen.leave (.branch hhash hstore hbranch hchildren)⟩
    · rw [expandNode, if_neg hnew]
      simp only [bind_eq_ok, mapError_ok_iff, elim_ok_iff, decodeAddressed_ok_iff]
      exact ⟨_, hstore, .branch branch, ⟨rfl, hhash⟩, hfold⟩
    · rw [hobjects, toFinset_eq_of_perm _ _ hbranch.entries_perm]

theorem Trie.expandManifest (h : Trie blake3 store 0 root entries) :
    Manifest.expandManifest blake3 store root = .ok entries := by
  obtain ⟨found, hexpand, hexpanded⟩ := h.expand (rfl : manifestRouteLevels + 1 + 0 = _)
    (Nat.zero_le _) (show Fresh blake3 store (Expansion.mk [] ∅).visited 0 entries from nofun) not_mem_nil
  unfold Manifest.expandManifest
  simp only [bind_eq_ok]
  refine ⟨found, hexpand, ?_⟩
  rw [hexpanded.objects, Finset.empty_union]
  have hle : entries.Pairwise (· ≤ ·) := h.sorted.imp fun {a b} hlt => by
    change toLex (a.key, a.decodedSize.toNat) ≤ toLex (b.key, b.decodedSize.toNat)
    exact (Prod.Lex.toLex_lt_toLex.2 (.inl hlt)).le
  exact congrArg Except.ok ((toFinset_sort (· ≤ ·) (nodup_of_sorted h.sorted)).2 hle)

end Expand

section Checks
variable {blake3 : Bytes → ContentHash} {index : Option ManifestObjectIndex}

def Indexed (index : Option ManifestObjectIndex) (entries : List ManifestObject) : Prop :=
  ∀ decodedSize ∈ index, ∀ entry ∈ entries, decodedSize entry.key = some entry.decodedSize

theorem pushIf_neg [Decidable p] {walk : Walk} {hash : ContentHash} (h : ¬p) :
    walk.pushIf p rule hash detail = walk :=
  if_neg h

section
variable {walk : Walk} {hash : ContentHash} (h : Indexed index entries)
include h

theorem checkIndexed_of_indexed
    (hmem : entry ∈ entries) : checkIndexed index hash walk entry = walk := by
  unfold checkIndexed
  cases hindex : index with
  | none => rfl
  | some decodedSize =>
    have hsize := h decodedSize hindex entry hmem
    simp only [hsize]
    exact pushIf_neg fun hne => hne rfl

theorem foldl_visitEntry :
    entries.foldl (visitEntry index hash) walk = { walk with objects := walk.objects ++ entries } := by
  induction entries generalizing walk with
  | nil =>
    rw [append_nil]
    rfl
  | cons entry entries ih =>
    have htail : Indexed index entries :=
      fun decodedSize hindex e he => h decodedSize hindex e (mem_cons_of_mem _ he)
    rw [foldl_cons, ih htail]
    simp only [visitEntry, checkIndexed_of_indexed h mem_cons_self, append_assoc,
      singleton_append]

end

theorem foldl_checkRoute {walk : Walk} {child : ManifestChild} {found : List ManifestObject}
    (h : ∀ entry ∈ found, (ManifestObject.route blake3 entry).group depth = child.slot) :
    found.foldl (checkRoute blake3 depth child) walk = walk := by
  induction found with
  | nil => rfl
  | cons entry found ih =>
    have hentry : checkRoute blake3 depth child walk entry = walk :=
      pushIf_neg fun hne => hne (h entry mem_cons_self)
    rw [foldl_cons, hentry]
    exact ih fun e he => h e (mem_cons_of_mem _ he)

end Checks

section Visit
variable {blake3 : Bytes → ContentHash} {source : NodeSource} {index : Option ManifestObjectIndex}

structure Passed (blake3 : Bytes → ContentHash) (source : NodeSource) (entries : List ManifestObject)
    (walk walk' : Walk) : Prop where
  objects : ∃ found, walk'.objects = walk.objects ++ found ∧ found.Perm entries
  report : walk'.report = walk.report
  complete : walk'.expansionComplete = walk.expansionComplete
  visited : ∀ hash ∈ walk'.visited, hash ∈ walk.visited ∨ Part.Of blake3 source entries hash

theorem visitChild_passed {walk walk' : Walk} {child : ManifestChild} (hash : ContentHash)
    (hvisit : visitBelow child.hash walk = (some ((bucket blake3 entries depth child.slot).length,
      total (bucket blake3 entries depth child.slot)), walk'))
    (hpassed : Passed blake3 source (bucket blake3 entries depth child.slot) walk walk')
    (hcount : child.objectCount = .ofNat (bucket blake3 entries depth child.slot).length)
    (hbytes : child.decodedBytes = .ofNat (total (bucket blake3 entries depth child.slot)))
    (hfits : totals.bytes + total (bucket blake3 entries depth child.slot) < 2 ^ 64) :
    visitChild blake3 visitBelow hash depth (totals, walk) child =
      (⟨totals.count + (bucket blake3 entries depth child.slot).length,
        totals.bytes + total (bucket blake3 entries depth child.slot), totals.summarized⟩, walk') := by
  obtain ⟨found, hobjects, hperm⟩ := hpassed.objects
  have hroute : (walk'.objects.drop walk.objects.length).foldl (checkRoute blake3 depth child) walk' = walk' := by
    rw [hobjects, drop_left]
    exact foldl_checkRoute fun entry hentry => (mem_bucket.1 (hperm.mem_iff.1 hentry)).2
  unfold visitChild
  simp only [hvisit, hroute, cappedAdd_of_lt hfits]
  congr 1
  apply pushIf_neg
  rintro (hne | hne)
  · exact hne hcount.symm
  · exact hne hbytes.symm

theorem visitChildren_passed (visitBelow : ContentHash → Walk → Option (Nat × Nat) × Walk)
    {hash : ContentHash} (children : List ManifestChild) (totals : Totals) (walk : Walk)
    (hfresh : Fresh blake3 source before depth entries)
    (hbranch : IsBranch blake3 entries depth branch)
    (hstore : source hash = some (ManifestNode.branch branch).encode)
    (hsub : ∀ child ∈ children, child ∈ branch.children)
    (hchildren : ∀ child ∈ children, ∀ walk : Walk,
      Fresh blake3 source walk.visited (depth + 1) (bucket blake3 entries depth child.slot) →
      ∃ walk', visitBelow child.hash walk = (some ((bucket blake3 entries depth child.slot).length,
          total (bucket blake3 entries depth child.slot)), walk') ∧
        Passed blake3 source (bucket blake3 entries depth child.slot) walk walk')
    (hnodup : (children.map ManifestChild.slot).Nodup)
    (hfits : totals.bytes + total (children.flatMap fun child => bucket blake3 entries depth child.slot) < 2 ^ 64)
    (hseen : Seen blake3 source before hash entries depth (children.map ManifestChild.slot) walk.visited) :
    ∃ walk' found, children.foldl (visitChild blake3 visitBelow hash depth) (totals, walk) =
        (⟨totals.count + (children.flatMap fun child => bucket blake3 entries depth child.slot).length,
          totals.bytes + total (children.flatMap fun child => bucket blake3 entries depth child.slot),
          totals.summarized⟩, walk') ∧
      walk'.objects = walk.objects ++ found ∧
      found.Perm (children.flatMap fun child => bucket blake3 entries depth child.slot) ∧
      walk'.report = walk.report ∧ walk'.expansionComplete = walk.expansionComplete ∧
      Seen blake3 source before hash entries depth [] walk'.visited := by
  induction children generalizing totals walk with
  | nil => exact ⟨walk, [], rfl, (append_nil _).symm, .refl _, rfl, rfl, hseen⟩
  | cons child children ih =>
    obtain ⟨hslot, hnodup⟩ := nodup_cons.1 hnodup
    have hmem := hsub child mem_cons_self
    obtain ⟨middle, hvisit, hpassed⟩ :=
      hchildren child mem_cons_self walk (hseen.fresh hfresh hbranch hstore)
    rw [flatMap_cons, total_append, ← Nat.add_assoc] at hfits
    have hchild := visitChild_passed hash hvisit hpassed (hbranch.count child hmem)
      (hbranch.bytes child hmem) ((Nat.le_add_right _ _).trans_lt hfits)
    obtain ⟨walk', found', hfold, hobjects', hperm', hreport, hcomplete, hseen'⟩ := ih
      ⟨totals.count + (bucket blake3 entries depth child.slot).length,
        totals.bytes + total (bucket blake3 entries depth child.slot), totals.summarized⟩ middle
      (fun next hnext => hsub next (mem_cons_of_mem _ hnext))
      (fun next hnext => hchildren next (mem_cons_of_mem _ hnext)) hnodup hfits
      (hseen.next hslot hpassed.visited)
    obtain ⟨found, hobjects, hperm⟩ := hpassed.objects
    refine ⟨walk', found ++ found', ?_, ?_, hperm.append hperm', hreport.trans hpassed.report,
      hcomplete.trans hpassed.complete, hseen'⟩
    · rw [foldl_cons, hchild, hfold, flatMap_cons, length_append, total_append,
        Nat.add_assoc, Nat.add_assoc]
    · rw [hobjects', hobjects, append_assoc]

theorem Trie.visit {below : Nat} {hash : ContentHash} {walk : Walk} {isRoot : Bool}
    (h : Trie blake3 source depth hash entries) (hdepth : below + depth = manifestRouteLevels + 1)
    (hle : depth ≤ manifestRouteLevels) (hfresh : Fresh blake3 source walk.visited depth entries)
    (hnew : hash ∉ walk.visited) (hroot : isRoot = false → entries ≠ []) (hfits : total entries < 2 ^ 64)
    (hindex : Indexed index entries) :
    ∃ walk', Manifest.visit blake3 source index below hash depth isRoot walk =
        (some (entries.length, total entries), walk') ∧ Passed blake3 source entries walk walk' := by
  induction h generalizing below walk isRoot with
  | @leaf depth hash leaf hhash hstore hsmall =>
    obtain ⟨below, rfl⟩ : ∃ n, below = n + 1 := ⟨below - 1, by omega⟩
    have hempty : ¬(leaf.entries = [] ∧ isRoot = false) := fun hboth => hroot hboth.2 hboth.1
    have hfull : ¬(manifestLeafMaxEntries < leaf.entries.length ∧ depth < manifestRouteLevels) := by
      omega
    have hbytes : leaf.entries.foldl
        (fun bytes entry => cappedAdd (2 ^ 64) bytes entry.decodedSize.toNat) 0 = total leaf.entries := by
      have hsum : 0 + (leaf.entries.map fun entry => entry.decodedSize.toNat).sum < 2 ^ 64 := by
        rw [Nat.zero_add]
        exact hfits
      rw [foldl_cappedAdd _ _ hsum, Nat.zero_add]
      rfl
    refine ⟨{ walk.enter hash with objects := walk.objects ++ leaf.entries }, ?_,
      ⟨leaf.entries, rfl, .refl _⟩, rfl, rfl, ?_⟩
    · rw [Manifest.visit, if_neg hnew]
      simp only [hstore, hhash, ne_eq, not_true_eq_false, if_false, decode_encoded]
      unfold visitLeaf
      simp only [pushIf_neg hempty, pushIf_neg hfull, hbytes, foldl_visitEntry hindex]
      rfl
    · exact (seen_enter walk.visited hash leaf.entries depth []).leave (.leaf hhash hstore hsmall)
  | @branch entries depth hash branch hhash hstore hbranch hchildren ih =>
    have hlt := hbranch.lt
    obtain ⟨below, rfl⟩ : ∃ n, below = n + 1 := ⟨below - 1, by omega⟩
    have hbelow : below + (depth + 1) = manifestRouteLevels + 1 := by omega
    have hperm := hbranch.entries_perm
    have hbyte : ¬branch.depth.toNat ≠ depth := by
      rw [hbranch.depth_eq, not_not]
      exact UInt8.toNat_ofNat_of_lt' (hlt.trans (by decide))
    have hsub : ∀ child ∈ branch.children, ∀ entry ∈ bucket blake3 entries depth child.slot, entry ∈ entries :=
      fun child _ entry hentry => (mem_bucket.1 hentry).1
    obtain ⟨walk', found, hfold, hobjects, hfound, hreport, hcomplete, hseen⟩ :=
      visitChildren_passed
        (fun child walk => Manifest.visit blake3 source index below child (depth + 1) false walk)
        branch.children ⟨0, 0, true⟩ (walk.enter hash) hfresh hbranch hstore (fun _ hchild => hchild)
        (fun child hchild walk hfresh => by
          have hne := hbranch.bucket_ne_nil hchild
          apply ih child hchild hbelow hlt hfresh (hfresh.not_mem (hchildren child hchild) hne)
            (fun _ => hne)
          · refine lt_of_le_of_lt ?_ hfits
            exact (filter_sublist.map _).sum_le_sum fun _ _ => Nat.zero_le _
          · exact fun decodedSize hmem entry hentry =>
              hindex decodedSize hmem entry (hsub child hchild entry hentry))
        (slots_nodup branch) (by rw [Nat.zero_add, total_perm hperm]; exact hfits)
        (seen_enter walk.visited hash entries depth _)
    have hlarge : ¬(entries.length ≤ manifestLeafMaxEntries ∧ depth < manifestRouteLevels) :=
      fun hboth => Nat.not_le.2 hbranch.large hboth.1
    refine ⟨walk', ?_, ⟨found, hobjects, hfound.trans hperm⟩, hreport, hcomplete,
      hseen.leave (.branch hhash hstore hbranch hchildren)⟩
    rw [Manifest.visit, if_neg hnew]
    simp only [hstore, hhash, ne_eq, not_true_eq_false, if_false, decode_encoded]
    unfold visitBranch
    simp only [pushIf_neg hbyte, hfold, Nat.zero_add, hperm.length_eq, total_perm hperm, if_true]
    rw [pushIf_neg hlarge]

end Visit

end Heddle.Manifest
