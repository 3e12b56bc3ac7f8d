import Heddle.Manifest.Build
import Heddle.SourceTarget.Canonical

namespace Heddle.Manifest
open Heddle.Lib List

def total (entries : List ManifestObject) : Nat := (entries.map fun entry => entry.decodedSize.toNat).sum

theorem total_perm (h : entries.Perm entries') : total entries = total entries' :=
  (h.map _).sum_eq

theorem total_append (xs ys : List ManifestObject) : total (xs ++ ys) = total xs + total ys := by
  rw [total, map_append, sum_append]
  rfl

theorem total_flatMap (f : α → List ManifestObject) (xs : List α) :
    total (xs.flatMap f) = (xs.map fun x => total (f x)).sum := by
  induction xs with
  | nil => rfl
  | cons x xs ih => rw [flatMap_cons, total_append, ih, map_cons, sum_cons]

section Constructors

theorem sortBy_of_sorted [LinearOrder κ] {key : α → κ} (h : SortedBy key xs) :
    sortBy key xs = xs :=
  sortedBy_ext_mem (sortBy_sorted (sortedBy_nodup h)) h fun x => mem_sortBy

theorem leafNew_ok_iff (h : SortedBy ManifestObject.key entries) :
    ManifestLeaf.new entries = .ok leaf ↔ leaf.entries = entries := by
  unfold ManifestLeaf.new
  constructor
  · intro hnew
    split at hnew
    · cases hnew
    · split at hnew
      · cases hnew
        exact sortBy_of_sorted h
      · cases hnew
  · rintro rfl
    have hsort := sortBy_of_sorted leaf.sorted
    split
    · rename_i window hrepeat
      rw [hsort, findRepeat_of_sorted leaf.sorted] at hrepeat
      cases hrepeat
    · rw [dif_pos (hsort.symm ▸ leaf.fits)]
      exact congrArg Except.ok (ManifestLeaf.ext hsort)

theorem branchNew_ok_iff (h : SortedBy ManifestChild.slot children)
    (hrange : ∀ child ∈ children, child.slot < manifestBranchWidth) (hne : children ≠ []) :
    ManifestBranch.new depth children = .ok branch ↔ branch.depth = depth ∧ branch.children = children := by
  have hsort := sortBy_of_sorted h
  unfold ManifestBranch.new
  rw [dif_neg (by rwa [hsort])]
  split
  · rename_i child hfind
    rw [hsort] at hfind
    have hle : manifestBranchWidth ≤ child.slot := of_decide_eq_true (find?_some hfind :)
    exact absurd (hrange child (mem_of_find?_eq_some hfind)) (Nat.not_lt.2 hle)
  · split
    · rename_i window hrepeat
      rw [hsort, findRepeat_of_sorted h] at hrepeat
      cases hrepeat
    · rw [Except.ok.injEq]
      constructor
      · rintro rfl
        exact ⟨rfl, hsort⟩
      · rintro ⟨rfl, hchildren⟩
        exact ManifestBranch.ext rfl (hsort.trans hchildren.symm)

theorem leafBytes_eq_some (leaf : ManifestLeaf) : leaf.decodedBytes = some n ↔
    n = total leaf.entries ∧ total leaf.entries < 2 ^ 64 := by
  unfold ManifestLeaf.decodedBytes
  rw [foldlM_checkedAdd _ _ (by decide), Nat.zero_add]
  change (if total leaf.entries < 2 ^ 64 then _ else _) = _ ↔ _
  split
  · rename_i hlt
    rw [Option.some.injEq]
    exact ⟨fun h => ⟨h.symm, hlt⟩, fun h => h.1.symm⟩
  · rename_i hge
    exact ⟨nofun, fun h => absurd h.2 hge⟩

theorem elim_ok_iff {o : Option α} :
    o.elim (.error e) (.ok : α → Except ε α) = .ok a ↔ o = some a := by
  cases o with
  | none => exact ⟨nofun, nofun⟩
  | some b => rw [Option.elim_some, Except.ok.injEq, Option.some.injEq]

theorem mapError_ok_iff {x : Except ε α} {f : ε → ε'} : x.mapError f = .ok a ↔ x = .ok a := by
  cases x with
  | error e => exact ⟨nofun, nofun⟩
  | ok b => exact ⟨fun h => congrArg Except.ok (Except.ok.inj h), fun h => congrArg Except.ok (Except.ok.inj h)⟩

end Constructors

section Levels
variable (blake3 : Bytes → ContentHash)

theorem buildLeaf_ok_iff (h : SortedBy ManifestObject.key entries) :
    buildLeaf blake3 entries = .ok (summary, inserted) ↔ ∃ leaf : ManifestLeaf, leaf.entries = entries ∧
      total entries < 2 ^ 64 ∧ inserted = [insertedNode blake3 (.leaf leaf)] ∧
      summary = ⟨blake3 (ManifestNode.leaf leaf).encode, entries.length, total entries⟩ := by
  unfold buildLeaf
  simp only [bind_eq_ok, mapError_ok_iff, leafNew_ok_iff h, elim_ok_iff, leafBytes_eq_some,
    pure_eq_ok, Except.ok.injEq, Prod.mk.injEq]
  constructor
  · rintro ⟨leaf, rfl, _, ⟨rfl, hlt⟩, rfl, rfl⟩
    exact ⟨leaf, rfl, hlt, rfl, rfl⟩
  · rintro ⟨leaf, rfl, hlt, rfl, rfl⟩
    exact ⟨leaf, rfl, _, ⟨rfl, hlt⟩, rfl, rfl⟩

structure Part where
  slot : Nat
  summary : Summary
  nodes : Inserted

def Part.child (part : Part) : ManifestChild :=
  ⟨part.slot, part.summary.hash, .ofNat part.summary.objectCount, .ofNat part.summary.decodedBytes⟩

def Progress.gather (progress : Progress) (parts : List Part) : Progress where
  children := progress.children ++ parts.map Part.child
  objectCount := progress.objectCount + (parts.map fun part => part.summary.objectCount).sum
  decodedBytes := progress.decodedBytes + (parts.map fun part => part.summary.decodedBytes).sum
  nodes := progress.nodes ++ parts.flatMap Part.nodes

theorem gather_nil (progress : Progress) : progress.gather [] = progress := by
  simp only [Progress.gather, map_nil, append_nil, sum_nil, Nat.add_zero, flatMap_nil]

theorem gather_cons (progress : Progress) (part : Part) (parts : List Part) :
    progress.gather (part :: parts) = (progress.gather [part]).gather parts := by
  simp only [Progress.gather, map_cons, map_nil, sum_cons, sum_nil, append_assoc,
    singleton_append, Nat.add_zero, Nat.add_assoc, flatMap_cons, flatMap_nil,
    append_nil]

theorem addChild_ok_iff : addChild slot progress child = .ok progress' ↔
    progress' = progress.gather [⟨slot, child.1, child.2⟩] ∧ progress'.decodedBytes < 2 ^ 64 := by
  unfold addChild
  simp only [bind_eq_ok, elim_ok_iff, checkedAdd_eq_some, pure_eq_ok, Except.ok.injEq]
  have hgather : progress.gather [⟨slot, child.1, child.2⟩] =
      ⟨progress.children ++ [⟨slot, child.1.hash, .ofNat child.1.objectCount, .ofNat child.1.decodedBytes⟩],
        progress.objectCount + child.1.objectCount, progress.decodedBytes + child.1.decodedBytes,
        progress.nodes ++ child.2⟩ := by
    simp only [Progress.gather, map_cons, map_nil, sum_cons, sum_nil, Nat.add_zero,
      flatMap_cons, flatMap_nil, append_nil, Part.child]
  rw [hgather]
  constructor
  · rintro ⟨_, ⟨rfl, hlt⟩, rfl⟩
    exact ⟨rfl, hlt⟩
  · rintro ⟨rfl, hlt⟩
    exact ⟨_, ⟨rfl, hlt⟩, rfl⟩

def taken (entries : List ManifestObject) (depth slot : Nat) : Bool :=
  decide (bucket blake3 entries depth slot ≠ [])

theorem foldBuckets_ok_iff (build : List ManifestObject → Except ManifestBuildError (Summary × Inserted))
    (entries : List ManifestObject) (depth : Nat) {slots : List Nat} {progress progress' : Progress}
    (h : progress.decodedBytes < 2 ^ 64) :
    slots.foldlM (fun progress slot =>
        if bucket blake3 entries depth slot = [] then pure progress
        else do
          let child ← build (bucket blake3 entries depth slot)
          addChild slot progress child) progress = .ok progress' ↔
      ∃ parts : List Part, parts.map Part.slot = slots.filter (taken blake3 entries depth) ∧
        (∀ part ∈ parts, build (bucket blake3 entries depth part.slot) = .ok (part.summary, part.nodes)) ∧
        progress' = progress.gather parts ∧ progress'.decodedBytes < 2 ^ 64 := by
  induction slots generalizing progress with
  | nil =>
    constructor
    · intro hfold
      cases hfold
      exact ⟨[], rfl, nofun, (gather_nil _).symm, h⟩
    · rintro ⟨parts, hslots, _, rfl, _⟩
      rw [map_eq_nil_iff.1 hslots, gather_nil]
      rfl
  | cons slot slots ih =>
    rw [foldlM_cons]
    by_cases hnil : bucket blake3 entries depth slot = []
    · have htaken : ¬taken blake3 entries depth slot = true := fun ht => of_decide_eq_true ht hnil
      rw [if_pos hnil, filter_cons_of_neg htaken]
      exact ih h
    · have htaken : taken blake3 entries depth slot = true := decide_eq_true hnil
      rw [if_neg hnil, filter_cons_of_pos htaken]
      simp only [bind_eq_ok]
      constructor
      · rintro ⟨middle, ⟨child, hbuild, hadd⟩, hrest⟩
        obtain ⟨rfl, hlt⟩ := addChild_ok_iff.1 hadd
        obtain ⟨parts, hslots, hparts, rfl, hsum⟩ := (ih hlt).1 hrest
        refine ⟨⟨slot, child.1, child.2⟩ :: parts, by rw [map_cons, hslots], ?_,
          (gather_cons _ _ _).symm, hsum⟩
        intro part hpart
        rcases mem_cons.1 hpart with rfl | hpart
        · exact hbuild
        · exact hparts part hpart
      · rintro ⟨parts, hslots, hparts, hgather, hsum⟩
        cases parts with
        | nil => cases hslots
        | cons part parts =>
          obtain ⟨rfl, htail⟩ := List.cons.inj hslots
          rw [gather_cons] at hgather
          have hlt : (progress.gather [part]).decodedBytes < 2 ^ 64 := by
            apply (Nat.le_add_right _ _).trans_lt
            rw [hgather] at hsum
            exact hsum
          refine ⟨progress.gather [part], ⟨(part.summary, part.nodes), hparts part mem_cons_self,
            addChild_ok_iff.2 ⟨rfl, hlt⟩⟩, (ih hlt).2 ⟨parts, htail, ?_, hgather, hsum⟩⟩
          exact fun p hp => hparts p (mem_cons_of_mem _ hp)

theorem group_lt (route : ManifestRoute) (depth : Nat) : route.group depth < manifestBranchWidth :=
  SourceTarget.group_lt route depth

theorem taken_iff : taken blake3 entries depth slot = true ↔
    ∃ entry ∈ entries, (entry.route blake3).group depth = slot := by
  unfold taken bucket
  rw [decide_eq_true_eq, ne_eq, filter_eq_nil_iff]
  simp only [not_forall, decide_eq_true_eq, not_not, exists_prop]

theorem buckets_perm (entries : List ManifestObject) (depth : Nat) :
    (((List.range manifestBranchWidth).filter (taken blake3 entries depth)).flatMap
      (bucket blake3 entries depth)).Perm entries := by
  have hall : ((List.range manifestBranchWidth).flatMap (bucket blake3 entries depth)).Perm entries :=
    SourceTarget.flatMap_filter_perm fun entry _ => group_lt (ManifestObject.route blake3 entry) depth
  have hsame : ∀ slots : List Nat, (slots.filter (taken blake3 entries depth)).flatMap
      (bucket blake3 entries depth) = slots.flatMap (bucket blake3 entries depth) := by
    intro slots
    induction slots with
    | nil => rfl
    | cons slot slots ih =>
      rw [flatMap_cons, ← ih]
      by_cases ht : taken blake3 entries depth slot = true
      · rw [filter_cons_of_pos ht, flatMap_cons]
      · have hnil : bucket blake3 entries depth slot = [] := by
          by_contra hne
          exact ht (decide_eq_true hne)
        rw [filter_cons_of_neg ht, hnil, nil_append]
  rwa [hsame]

theorem parts_perm {parts : List Part}
    (h : parts.map Part.slot = (List.range manifestBranchWidth).filter (taken blake3 entries depth)) :
    (parts.flatMap fun part => bucket blake3 entries depth part.slot).Perm entries := by
  have hperm := buckets_perm blake3 entries depth
  rwa [← h, flatMap_map] at hperm

theorem parts_children {parts : List Part} {entries : List ManifestObject}
    (hlarge : manifestLeafMaxEntries < entries.length)
    (h : parts.map Part.slot = (List.range manifestBranchWidth).filter (taken blake3 entries depth)) :
    SortedBy ManifestChild.slot (parts.map Part.child) ∧
      (∀ child ∈ parts.map Part.child, child.slot < manifestBranchWidth) ∧ parts.map Part.child ≠ [] := by
  have hmap : (parts.map Part.child).map ManifestChild.slot = parts.map Part.slot := map_map
  refine ⟨?_, ?_, ?_⟩
  · apply pairwise_map.1
    rw [hmap, h]
    exact sortedBy_filter (range_sorted _) _
  · intro child hchild
    have hmem : child.slot ∈ parts.map Part.slot := hmap ▸ mem_map_of_mem hchild
    rw [h] at hmem
    exact mem_range.1 (mem_filter.1 hmem).1
  · intro hnil
    have hperm := parts_perm blake3 h
    rw [map_eq_nil_iff.1 hnil, flatMap_nil, nil_perm] at hperm
    rw [hperm] at hlarge
    cases hlarge

theorem buildLevel_branch_ok_iff (hlarge : manifestLeafMaxEntries < entries.length) :
    buildLevel blake3 (below + 1) entries depth = .ok (summary, inserted) ↔
      ∃ (parts : List Part) (branch : ManifestBranch),
        parts.map Part.slot = (List.range manifestBranchWidth).filter (taken blake3 entries depth) ∧
        (∀ part ∈ parts, buildLevel blake3 below (bucket blake3 entries depth part.slot) (depth + 1) =
          .ok (part.summary, part.nodes)) ∧
        (parts.map fun part => part.summary.decodedBytes).sum < 2 ^ 64 ∧
        branch.depth = .ofNat depth ∧ branch.children = parts.map Part.child ∧
        summary = ⟨blake3 (ManifestNode.branch branch).encode,
          (parts.map fun part => part.summary.objectCount).sum,
          (parts.map fun part => part.summary.decodedBytes).sum⟩ ∧
        inserted = parts.flatMap Part.nodes ++ [insertedNode blake3 (.branch branch)] := by
  rw [buildLevel, if_neg (Nat.not_le.2 hlarge)]
  simp only [bind_eq_ok]
  have hloop := fun progress h => @foldBuckets_ok_iff blake3
    (fun entries => buildLevel blake3 below entries (depth + 1)) entries depth
    (List.range manifestBranchWidth) ⟨[], 0, 0, []⟩ progress h
  have hnew : ∀ (parts : List Part) (branch : ManifestBranch),
      parts.map Part.slot = (List.range manifestBranchWidth).filter (taken blake3 entries depth) →
      (ManifestBranch.new (.ofNat depth) (parts.map Part.child) = .ok branch ↔
        branch.depth = .ofNat depth ∧ branch.children = parts.map Part.child) := by
    intro parts branch hslots
    obtain ⟨hsorted, hrange, hne⟩ := parts_children blake3 hlarge hslots
    exact branchNew_ok_iff hsorted hrange hne
  constructor
  · rintro ⟨progress, hfold, hbranch⟩
    obtain ⟨parts, hslots, hparts, rfl, hsum⟩ := (hloop _ (Nat.two_pow_pos 64)).1 hfold
    have hgather : Progress.gather ⟨[], 0, 0, []⟩ parts = ⟨parts.map Part.child,
        (parts.map fun part => part.summary.objectCount).sum,
        (parts.map fun part => part.summary.decodedBytes).sum, parts.flatMap Part.nodes⟩ := by
      simp only [Progress.gather, nil_append, Nat.zero_add]
    rw [hgather] at hsum hbranch
    unfold buildBranch at hbranch
    simp only [bind_eq_ok, mapError_ok_iff, pure_eq_ok, Except.ok.injEq, Prod.mk.injEq] at hbranch
    obtain ⟨branch, hok, rfl, rfl⟩ := hbranch
    obtain ⟨hdepth, hchildren⟩ := (hnew parts branch hslots).1 hok
    exact ⟨parts, branch, hslots, hparts, hsum, hdepth, hchildren, rfl, rfl⟩
  · rintro ⟨parts, branch, hslots, hparts, hsum, hdepth, hchildren, rfl, rfl⟩
    have hgather : Progress.gather ⟨[], 0, 0, []⟩ parts = ⟨parts.map Part.child,
        (parts.map fun part => part.summary.objectCount).sum,
        (parts.map fun part => part.summary.decodedBytes).sum, parts.flatMap Part.nodes⟩ := by
      simp only [Progress.gather, nil_append, Nat.zero_add]
    refine ⟨_, (hloop _ (Nat.two_pow_pos 64)).2 ⟨parts, hslots, hparts, hgather.symm, hsum⟩, ?_⟩
    unfold buildBranch
    simp only [bind_eq_ok, mapError_ok_iff, pure_eq_ok, Except.ok.injEq, Prod.mk.injEq]
    exact ⟨branch, (hnew parts branch hslots).2 ⟨hdepth, hchildren⟩, rfl, rfl⟩

end Levels

end Heddle.Manifest
