import Heddle.Manifest.TrieWalk

namespace Heddle.Manifest
open Heddle.Lib List

section Report
variable {walk walk' walk'' : Walk}

def Longer (walk walk' : Walk) : Prop := walk.report <+: walk'.report

theorem longer_push (walk : Walk) (rule : FsckRule) (hash : ContentHash) (detail : FsckDetail) :
    Longer walk (walk.push rule hash detail) :=
  prefix_append _ _

theorem longer_pushIf (p : Prop) [Decidable p] (walk : Walk) (rule : FsckRule) (hash : ContentHash)
    (detail : FsckDetail) : Longer walk (walk.pushIf p rule hash detail) := by
  unfold Walk.pushIf
  split
  · exact longer_push walk rule hash detail
  · exact prefix_refl _

theorem longer_foldl {step : Walk → α → Walk} (h : ∀ walk a, Longer walk (step walk a)) (xs : List α)
    (walk : Walk) : Longer walk (xs.foldl step walk) := by
  induction xs generalizing walk with
  | nil => exact prefix_refl _
  | cons x xs ih => exact (h walk x).trans (ih _)

theorem quiet_between (h : Longer walk walk') (h' : Longer walk' walk'') (hquiet : walk''.report = walk.report) :
    walk'.report = walk.report ∧ walk''.report = walk'.report := by
  have hlen := h'.length_le
  rw [hquiet] at hlen
  have hsame := h.eq_of_length_le hlen
  exact ⟨hsame.symm, hquiet.trans hsame⟩

theorem push_ne (walk : Walk) (rule : FsckRule) (hash : ContentHash) (detail : FsckDetail) :
    (walk.push rule hash detail).report ≠ walk.report := by
  intro h
  have hlen := congrArg List.length h
  rw [Walk.push, length_append, length_singleton] at hlen
  omega

theorem pushIf_quiet {p : Prop} [Decidable p] {hash : ContentHash}
    (h : (walk.pushIf p rule hash detail).report = walk.report) :
    ¬p ∧ walk.pushIf p rule hash detail = walk := by
  unfold Walk.pushIf at h ⊢
  split at h
  · exact absurd h (push_ne walk rule hash detail)
  · rename_i hp
    exact ⟨hp, if_neg hp⟩

end Report

section Longer
variable (blake3 : Bytes → ContentHash) (source : NodeSource) (index : Option ManifestObjectIndex)

theorem longer_visitEntry (hash : ContentHash) (walk : Walk) (entry : ManifestObject) :
    Longer walk (visitEntry index hash walk entry) := by
  change walk.report <+: (checkIndexed index hash walk entry).report
  unfold checkIndexed
  split
  · exact prefix_refl _
  · split
    · exact longer_push walk _ _ _
    · exact longer_pushIf _ walk _ _ _

theorem longer_visitLeaf (hash : ContentHash) (depth : Nat) (isRoot : Bool) (leaf : ManifestLeaf)
    (walk : Walk) : Longer walk (visitLeaf index hash depth isRoot leaf walk).2 :=
  ((longer_pushIf _ walk _ _ _).trans (longer_pushIf _ _ _ _ _)).trans
    (longer_foldl (longer_visitEntry index hash) _ _)

variable {visitBelow : ContentHash → Walk → Option (Nat × Nat) × Walk}

theorem longer_checkRoutes (depth : Nat) (child : ManifestChild) (entries : List ManifestObject)
    (walk : Walk) : Longer walk (entries.foldl (checkRoute blake3 depth child) walk) :=
  longer_foldl (fun walk _ => longer_pushIf _ walk _ _ _) entries walk

section
variable (hbelow : ∀ hash walk, Longer walk (visitBelow hash walk).2) (hash : ContentHash)
  (depth : Nat)
include hbelow hash

theorem longer_visitChild (state : Totals × Walk) (child : ManifestChild) :
    Longer state.2 (visitChild blake3 visitBelow hash depth state child).2 := by
  have hvisit := (hbelow child.hash state.2).trans (longer_checkRoutes blake3 depth child
    ((visitBelow child.hash state.2).2.objects.drop state.2.objects.length) _)
  unfold visitChild
  simp only
  split
  · exact hvisit.trans (longer_pushIf _ _ _ _ _)
  · exact hvisit

theorem longer_visitChildren (children : List ManifestChild) (state : Totals × Walk) :
    Longer state.2 (children.foldl (visitChild blake3 visitBelow hash depth) state).2 := by
  induction children generalizing state with
  | nil => exact prefix_refl _
  | cons child children ih => exact (longer_visitChild blake3 hbelow hash depth state child).trans (ih _)

theorem longer_visitBranch (branch : ManifestBranch) (walk : Walk) :
    Longer walk (visitBranch blake3 visitBelow hash depth branch walk).2 := by
  have hchildren := (longer_pushIf (branch.depth.toNat ≠ depth) walk .branchDepthMismatch hash
    (.declaresDepth branch.depth depth)).trans
    (longer_visitChildren blake3 hbelow hash depth branch.children (⟨0, 0, true⟩, _))
  unfold visitBranch
  simp only
  split
  · exact hchildren.trans (longer_pushIf _ _ _ _ _)
  · exact hchildren

end

theorem longer_visit (below : Nat) (hash : ContentHash) (depth : Nat) (isRoot : Bool) (walk : Walk) :
    Longer walk (visit blake3 source index below hash depth isRoot walk).2 := by
  induction below generalizing hash depth isRoot walk with
  | zero => exact longer_push walk _ _ _
  | succ below ih =>
    rw [visit]
    split
    · exact prefix_refl _
    · simp only
      split
      · exact longer_push (walk.enter hash) _ _ _
      · split
        · exact longer_push (walk.enter hash) _ _ _
        · split
          · exact longer_push (walk.enter hash) _ _ _
          · exact longer_visitLeaf index hash depth isRoot _ (walk.enter hash)
          · exact longer_visitBranch blake3 (fun hash walk => ih hash (depth + 1) false walk) hash depth _
              (walk.enter hash)

end Longer

section Orderly
variable (blake3 : Bytes → ContentHash)

structure Orderly (objects : List ManifestObject) : Prop where
  nodup : (objects.map ManifestObject.key).Nodup
  few : ∀ route, (objects.filter fun object => object.route blake3 = route).length < 256 ^ 2

theorem orderly_nil : Orderly blake3 [] := ⟨nodup_nil, fun _ => Nat.pow_pos (by decide)⟩

theorem orderly_leaf (leaf : ManifestLeaf) : Orderly blake3 leaf.entries where
  nodup := sortedBy_nodup leaf.sorted
  few _ := (length_filter_le _ _).trans_lt leaf.fits

variable {blake3}

theorem Orderly.append {xs ys : List ManifestObject} (hx : Orderly blake3 xs) (hy : Orderly blake3 ys)
    (hapart : ∀ x ∈ xs, ∀ y ∈ ys, (x.route blake3).group depth ≠ (y.route blake3).group depth) :
    Orderly blake3 (xs ++ ys) where
  nodup := by
    rw [map_append]
    refine List.Nodup.append hx.nodup hy.nodup ?_
    intro key hkey hkey'
    obtain ⟨x, hxmem, rfl⟩ := mem_map.1 hkey
    obtain ⟨y, hymem, heq⟩ := mem_map.1 hkey'
    apply hapart x hxmem y hymem
    rw [ManifestObject.route, ManifestObject.route, heq]
  few route := by
    rw [filter_append]
    by_cases hnil : xs.filter (fun object => object.route blake3 = route) = []
    · rw [hnil, nil_append]
      exact hy.few route
    · have hnone : ys.filter (fun object => object.route blake3 = route) = [] := by
        obtain ⟨x, hxfilter⟩ := exists_mem_of_ne_nil _ hnil
        obtain ⟨hxmem, hxroute⟩ := mem_filter.1 hxfilter
        rw [filter_eq_nil_iff]
        intro y hymem hyroute
        apply hapart x hxmem y hymem
        rw [of_decide_eq_true hxroute, of_decide_eq_true hyroute]
      rw [hnone, append_nil]
      exact hx.few route

end Orderly

section Clean
variable {blake3 : Bytes → ContentHash} {source : NodeSource} {index : Option ManifestObjectIndex}

def Under (source : NodeSource) (root : ContentHash) (object : ManifestObject) : Prop :=
  ∃ (hash : ContentHash) (leaf : ManifestLeaf), Reaches nodeLinks source root hash ∧
    source hash = some (ManifestNode.leaf leaf).encode ∧ object ∈ leaf.entries

/-- The address holds a node of that digest, and the walk has seen all that the node names. -/
structure Complete (blake3 : Bytes → ContentHash) (source : NodeSource) (walk : Walk)
    (hash : ContentHash) : Prop where
  node : ∃ bytes below, source hash = some bytes ∧ blake3 bytes = hash ∧ nodeLinks bytes = some below ∧
    ∀ child ∈ below, child ∈ walk.visited
  entries : ∀ leaf : ManifestLeaf, source hash = some (ManifestNode.leaf leaf).encode →
    ∀ entry ∈ leaf.entries, entry ∈ walk.objects

structure Clean (blake3 : Bytes → ContentHash) (source : NodeSource) (found : List ManifestObject)
    (walk walk' : Walk) : Prop where
  objects : walk'.objects = walk.objects ++ found
  orderly : Orderly blake3 found
  complete : walk'.expansionComplete = walk.expansionComplete
  kept : ∀ hash ∈ walk.visited, hash ∈ walk'.visited
  closed : ∀ hash ∈ walk'.visited, hash ∈ walk.visited ∨ Complete blake3 source walk' hash

theorem Under.of_link {hash child : ContentHash} (h : Under source child object)
    (hbytes : source hash = some bytes) (hlinks : nodeLinks bytes = some below) (hchild : child ∈ below) :
    Under source hash object := by
  obtain ⟨leafHash, leaf, hreaches, hleaf, hentry⟩ := h
  exact ⟨leafHash, leaf, (Reaches.link .root hbytes hlinks hchild).trans hreaches, hleaf, hentry⟩

theorem Complete.mono {walk walk' : Walk} {hash : ContentHash} (h : Complete blake3 source walk hash)
    (hclean : Clean blake3 source found walk walk') : Complete blake3 source walk' hash where
  node := by
    obtain ⟨bytes, below, hbytes, hdigest, hlinks, hbelow⟩ := h.node
    exact ⟨bytes, below, hbytes, hdigest, hlinks, fun child hchild => hclean.kept child (hbelow child hchild)⟩
  entries leaf hleaf entry hentry := by
    rw [hclean.objects]
    exact mem_append_left _ (h.entries leaf hleaf entry hentry)

theorem clean_refl (walk : Walk) : Clean blake3 source [] walk walk where
  objects := (append_nil _).symm
  orderly := orderly_nil blake3
  complete := rfl
  kept := fun _ hmem => hmem
  closed := fun _ hmem => .inl hmem

theorem checkRoutes_quiet {walk : Walk} {child : ManifestChild} {entries : List ManifestObject}
    (h : (entries.foldl (checkRoute blake3 depth child) walk).report = walk.report) :
    (∀ entry ∈ entries, (entry.route blake3).group depth = child.slot) ∧
      entries.foldl (checkRoute blake3 depth child) walk = walk := by
  induction entries generalizing walk with
  | nil => exact ⟨nofun, rfl⟩
  | cons entry entries ih =>
    rw [foldl_cons] at h ⊢
    obtain ⟨hfirst, hrest⟩ := quiet_between (longer_pushIf _ walk _ _ _)
      (longer_checkRoutes blake3 depth child entries (checkRoute blake3 depth child walk entry)) h
    obtain ⟨hroute, hsame⟩ := pushIf_quiet hfirst
    obtain ⟨hroutes, hwalk⟩ := ih hrest
    refine ⟨?_, hwalk.trans hsame⟩
    intro e he
    rcases mem_cons.1 he with rfl | he
    · exact not_not.1 hroute
    · exact hroutes e he

theorem visitEntry_fields (index : Option ManifestObjectIndex) (hash : ContentHash) (walk : Walk) (entry : ManifestObject) :
    (visitEntry index hash walk entry).objects = walk.objects ++ [entry] ∧
      (visitEntry index hash walk entry).visited = walk.visited ∧
      (visitEntry index hash walk entry).expansionComplete = walk.expansionComplete := by
  have hcheck : (checkIndexed index hash walk entry).objects = walk.objects ∧
      (checkIndexed index hash walk entry).visited = walk.visited ∧
      (checkIndexed index hash walk entry).expansionComplete = walk.expansionComplete := by
    unfold checkIndexed
    split
    · exact ⟨rfl, rfl, rfl⟩
    · split
      · exact ⟨rfl, rfl, rfl⟩
      · unfold Walk.pushIf
        split
        · exact ⟨rfl, rfl, rfl⟩
        · exact ⟨rfl, rfl, rfl⟩
  refine ⟨?_, hcheck.2.1, hcheck.2.2⟩
  change (checkIndexed index hash walk entry).objects ++ [entry] = _
  rw [hcheck.1]

theorem visitEntries_fields (index : Option ManifestObjectIndex) (hash : ContentHash) (entries : List ManifestObject) (walk : Walk) :
    (entries.foldl (visitEntry index hash) walk).objects = walk.objects ++ entries ∧
      (entries.foldl (visitEntry index hash) walk).visited = walk.visited ∧
      (entries.foldl (visitEntry index hash) walk).expansionComplete = walk.expansionComplete := by
  induction entries generalizing walk with
  | nil => exact ⟨(append_nil _).symm, rfl, rfl⟩
  | cons entry entries ih =>
    obtain ⟨hobjects, hvisited, hcomplete⟩ := visitEntry_fields index hash walk entry
    obtain ⟨hobjects', hvisited', hcomplete'⟩ := ih (visitEntry index hash walk entry)
    rw [foldl_cons]
    refine ⟨?_, hvisited'.trans hvisited, hcomplete'.trans hcomplete⟩
    rw [hobjects', hobjects, append_assoc, singleton_append]

theorem Clean.trans {walk walk' walk'' : Walk} (h : Clean blake3 source found walk walk')
    (h' : Clean blake3 source found' walk' walk'') (horderly : Orderly blake3 (found ++ found')) :
    Clean blake3 source (found ++ found') walk walk'' where
  objects := by rw [h'.objects, h.objects, append_assoc]
  orderly := horderly
  complete := h'.complete.trans h.complete
  kept hash hmem := h'.kept hash (h.kept hash hmem)
  closed hash hmem := by
    rcases h'.closed hash hmem with hmem | hcomplete
    · rcases h.closed hash hmem with hmem | hcomplete
      · exact .inl hmem
      · exact .inr (hcomplete.mono h')
    · exact .inr hcomplete

variable {visitBelow : ContentHash → Walk → Option (Nat × Nat) × Walk}

section
variable (hlonger : ∀ hash walk, Longer walk (visitBelow hash walk).2)
  (hclean : ∀ hash walk, (visitBelow hash walk).2.report = walk.report → ∃ found, Clean blake3 source found walk (visitBelow hash walk).2 ∧ hash ∈ (visitBelow hash walk).2.visited ∧ ∀ object ∈ found, Under source hash object)
  {hash : ContentHash}
include hlonger hclean

theorem visitChild_clean {state : Totals × Walk} {child : ManifestChild}
    (hquiet : (visitChild blake3 visitBelow hash depth state child).2.report = state.2.report) :
    ∃ found, Clean blake3 source found state.2 (visitChild blake3 visitBelow hash depth state child).2 ∧
      (∀ entry ∈ found, (entry.route blake3).group depth = child.slot) ∧
      child.hash ∈ (visitChild blake3 visitBelow hash depth state child).2.visited ∧
      ∀ object ∈ found, Under source child.hash object := by
  have hroutes := longer_checkRoutes blake3 depth child
    ((visitBelow child.hash state.2).2.objects.drop state.2.objects.length) (visitBelow child.hash state.2).2
  have hlast : (visitChild blake3 visitBelow hash depth state child).2 =
      ((visitBelow child.hash state.2).2.objects.drop state.2.objects.length).foldl
        (checkRoute blake3 depth child) (visitBelow child.hash state.2).2 ∧
      (visitBelow child.hash state.2).2.report = state.2.report ∧
      (((visitBelow child.hash state.2).2.objects.drop state.2.objects.length).foldl
        (checkRoute blake3 depth child) (visitBelow child.hash state.2).2).report =
          (visitBelow child.hash state.2).2.report := by
    unfold visitChild at hquiet ⊢
    simp only at hquiet ⊢
    split at hquiet
    · obtain ⟨hmiddle, hsummary⟩ := quiet_between ((hlonger _ _).trans hroutes) (longer_pushIf _ _ _ _ _) hquiet
      obtain ⟨hvisit, hroute⟩ := quiet_between (hlonger _ _) hroutes hmiddle
      exact ⟨(pushIf_quiet hsummary).2, hvisit, hroute⟩
    · obtain ⟨hvisit, hroute⟩ := quiet_between (hlonger _ _) hroutes hquiet
      exact ⟨rfl, hvisit, hroute⟩
  obtain ⟨hsame, hvisit, hroute⟩ := hlast
  obtain ⟨found, hfound, hmem, hunder⟩ := hclean child.hash state.2 hvisit
  obtain ⟨hslots, hwalk⟩ := checkRoutes_quiet hroute
  rw [hsame, hwalk]
  rw [hfound.objects, drop_left] at hslots
  exact ⟨found, hfound, hslots, hmem, hunder⟩

theorem visitChildren_clean (children : List ManifestChild) (state : Totals × Walk)
    (hnodup : (children.map ManifestChild.slot).Nodup)
    (hquiet : (children.foldl (visitChild blake3 visitBelow hash depth) state).2.report = state.2.report) :
    ∃ found, Clean blake3 source found state.2 (children.foldl (visitChild blake3 visitBelow hash depth) state).2 ∧
      (∀ entry ∈ found, (entry.route blake3).group depth ∈ children.map ManifestChild.slot) ∧
      (∀ child ∈ children,
        child.hash ∈ (children.foldl (visitChild blake3 visitBelow hash depth) state).2.visited) ∧
      ∀ object ∈ found, ∃ child ∈ children, Under source child.hash object := by
  induction children generalizing state with
  | nil => exact ⟨[], clean_refl state.2, nofun, nofun, nofun⟩
  | cons child children ih =>
    obtain ⟨hslot, hnodup⟩ := nodup_cons.1 hnodup
    rw [foldl_cons] at hquiet ⊢
    obtain ⟨hfirst, hrest⟩ := quiet_between (longer_visitChild blake3 hlonger hash depth state child)
      (longer_visitChildren blake3 hlonger hash depth children _) hquiet
    obtain ⟨found, hfound, hslots, hmem, hunder⟩ := visitChild_clean hlonger hclean hfirst
    obtain ⟨found', hfound', hslots', hmem', hunder'⟩ := ih _ hnodup hrest
    have hapart : ∀ x ∈ found, ∀ y ∈ found', (x.route blake3).group depth ≠ (y.route blake3).group depth := by
      intro x hx y hy heq
      rw [← hslots x hx, heq] at hslot
      exact hslot (hslots' y hy)
    refine ⟨found ++ found', hfound.trans hfound' (hfound.orderly.append hfound'.orderly hapart), ?_, ?_, ?_⟩
    · intro entry hentry
      rcases mem_append.1 hentry with hentry | hentry
      · rw [hslots entry hentry]
        exact mem_cons_self
      · exact mem_cons_of_mem _ (hslots' entry hentry)
    · intro next hnext
      rcases mem_cons.1 hnext with rfl | hnext
      · exact hfound'.kept _ hmem
      · exact hmem' next hnext
    · intro object hobject
      rcases mem_append.1 hobject with hobject | hobject
      · exact ⟨child, mem_cons_self, hunder object hobject⟩
      · obtain ⟨next, hnext, hin⟩ := hunder' object hobject
        exact ⟨next, mem_cons_of_mem _ hnext, hin⟩

end

theorem enter_clean {walk walk' : Walk} {hash : ContentHash} (h : Clean blake3 source found (walk.enter hash) walk')
    (hcomplete : Complete blake3 source walk' hash) :
    Clean blake3 source found walk walk' ∧ hash ∈ walk'.visited := by
  refine ⟨⟨h.objects, h.orderly, h.complete, ?_, ?_⟩, h.kept hash mem_cons_self⟩
  · exact fun other hmem => h.kept other (mem_cons_of_mem _ hmem)
  · intro other hmem
    rcases h.closed other hmem with hmem | hother
    · rcases mem_cons.1 hmem with rfl | hmem
      · exact .inr hcomplete
      · exact .inl hmem
    · exact .inr hother

theorem visitLeaf_clean {hash : ContentHash} {walk : Walk} {leaf : ManifestLeaf}
    (hquiet : (visitLeaf index hash depth isRoot leaf walk).2.report = walk.report) :
    Clean blake3 source leaf.entries walk (visitLeaf index hash depth isRoot leaf walk).2 := by
  obtain ⟨hchecks, hentries⟩ := quiet_between
    ((longer_pushIf (leaf.entries = [] ∧ isRoot = false) walk .emptyNonRootLeaf hash .emptyLeaf).trans
      (longer_pushIf (manifestLeafMaxEntries < leaf.entries.length ∧ depth < manifestRouteLevels) _ .leafOverfull
        hash (.leafHolds depth leaf.entries.length)))
    (longer_foldl (longer_visitEntry index hash) leaf.entries _) hquiet
  obtain ⟨hempty, hfull⟩ := quiet_between (longer_pushIf _ walk _ _ _) (longer_pushIf _ _ _ _ _) hchecks
  have hwalk := (pushIf_quiet hfull).2.trans (pushIf_quiet hempty).2
  obtain ⟨hobjects, hvisited, hcomplete⟩ := visitEntries_fields index hash leaf.entries walk
  have hresult : (visitLeaf index hash depth isRoot leaf walk).2 = leaf.entries.foldl (visitEntry index hash) walk :=
    congrArg (fun walk => leaf.entries.foldl (visitEntry index hash) walk) hwalk
  rw [hresult]
  exact {
    objects := hobjects
    orderly := orderly_leaf blake3 leaf
    complete := hcomplete
    kept := fun other hmem => hvisited ▸ hmem
    closed := fun other hmem => .inl (hvisited ▸ hmem) }

theorem visitBranch_clean (hlonger : ∀ hash walk, Longer walk (visitBelow hash walk).2)
    (hclean : ∀ hash walk, (visitBelow hash walk).2.report = walk.report →
      ∃ found, Clean blake3 source found walk (visitBelow hash walk).2 ∧
        hash ∈ (visitBelow hash walk).2.visited ∧ ∀ object ∈ found, Under source hash object)
    {hash : ContentHash} {walk : Walk} {branch : ManifestBranch}
    (hquiet : (visitBranch blake3 visitBelow hash depth branch walk).2.report = walk.report) :
    ∃ found, Clean blake3 source found walk (visitBranch blake3 visitBelow hash depth branch walk).2 ∧
      (∀ child ∈ branch.children,
        child.hash ∈ (visitBranch blake3 visitBelow hash depth branch walk).2.visited) ∧
      ∀ object ∈ found, ∃ child ∈ branch.children, Under source child.hash object := by
  have hdepth := longer_pushIf (branch.depth.toNat ≠ depth) walk .branchDepthMismatch hash
    (.declaresDepth branch.depth depth)
  have hchildren := longer_visitChildren blake3 hlonger hash depth branch.children
    (⟨0, 0, true⟩, walk.pushIf (branch.depth.toNat ≠ depth) .branchDepthMismatch hash
      (.declaresDepth branch.depth depth))
  have hmain : (branch.children.foldl (visitChild blake3 visitBelow hash depth) (⟨0, 0, true⟩, walk)).2.report =
        walk.report ∧
      (visitBranch blake3 visitBelow hash depth branch walk).2 =
        (branch.children.foldl (visitChild blake3 visitBelow hash depth) (⟨0, 0, true⟩, walk)).2 := by
    unfold visitBranch at hquiet ⊢
    simp only at hquiet ⊢
    split at hquiet
    · rename_i hsummarized
      rw [if_pos hsummarized]
      obtain ⟨hmiddle, hunder⟩ := quiet_between (hdepth.trans hchildren) (longer_pushIf _ _ _ _ _) hquiet
      obtain ⟨hstart, hfold⟩ := quiet_between hdepth hchildren hmiddle
      rw [(pushIf_quiet hstart).2] at hfold hunder ⊢
      exact ⟨hfold, (pushIf_quiet hunder).2⟩
    · rename_i hsummarized
      rw [if_neg hsummarized]
      obtain ⟨hstart, hfold⟩ := quiet_between hdepth hchildren hquiet
      rw [(pushIf_quiet hstart).2] at hfold ⊢
      exact ⟨hfold, rfl⟩
  obtain ⟨hfold, hresult⟩ := hmain
  obtain ⟨found, hfound, _, hmem, hunder⟩ :=
    visitChildren_clean hlonger hclean branch.children (⟨0, 0, true⟩, walk) (slots_nodup branch) hfold
  rw [hresult]
  exact ⟨found, hfound, hmem, hunder⟩

theorem visit_clean {below depth : Nat} {hash : ContentHash} {isRoot : Bool} {walk : Walk}
    (hquiet : (visit blake3 source index below hash depth isRoot walk).2.report = walk.report) :
    ∃ found, Clean blake3 source found walk (visit blake3 source index below hash depth isRoot walk).2 ∧
      hash ∈ (visit blake3 source index below hash depth isRoot walk).2.visited ∧
      ∀ object ∈ found, Under source hash object := by
  induction below generalizing hash depth isRoot walk with
  | zero => exact absurd hquiet (push_ne walk _ _ _)
  | succ below ih =>
    rw [visit] at hquiet ⊢
    split at hquiet
    · rename_i hmem
      rw [if_pos hmem]
      exact ⟨[], clean_refl walk, hmem, fun _ h => by cases h⟩
    · rename_i hnew
      rw [if_neg hnew]
      simp only at hquiet ⊢
      split at hquiet
      · exact absurd hquiet (push_ne (walk.enter hash) _ _ _)
      · rename_i bytes hbytes
        split at hquiet
        · exact absurd hquiet (push_ne (walk.enter hash) _ _ _)
        · rename_i hdigest
          rw [if_neg hdigest]
          rw [not_not] at hdigest
          split at hquiet
          · exact absurd hquiet (push_ne (walk.enter hash) _ _ _)
          · rename_i leaf hdecode
            obtain rfl := decode_ok_iff.1 hdecode
            have hclean : Clean blake3 source leaf.entries (walk.enter hash)
                (visitLeaf index hash depth isRoot leaf (walk.enter hash)).2 := visitLeaf_clean hquiet
            obtain ⟨hmain, hmem⟩ := enter_clean hclean {
              node := ⟨_, [], hbytes, hdigest, nodeLinks_leaf leaf, fun _ h => by cases h⟩
              entries := by
                intro leaf' hleaf' entry hentry
                cases encode_injective (Option.some.inj (hbytes.symm.trans hleaf'))
                rw [hclean.objects]
                exact mem_append_right _ hentry }
            exact ⟨leaf.entries, hmain, hmem, fun object hobject => ⟨hash, leaf, .root, hbytes, hobject⟩⟩
          · rename_i branch hdecode
            obtain rfl := decode_ok_iff.1 hdecode
            obtain ⟨found, hfound, hmem, hunder⟩ := visitBranch_clean
              (fun hash walk => longer_visit blake3 source index below hash (depth + 1) false walk)
              (fun hash walk hquiet => ih hquiet) hquiet
            obtain ⟨hmain, hroot⟩ := enter_clean hfound {
              node := by
                refine ⟨_, _, hbytes, hdigest, nodeLinks_branch branch, ?_⟩
                intro child hchild
                obtain ⟨link, hlink, rfl⟩ := mem_map.1 hchild
                exact hmem link hlink
              entries := by
                intro leaf hleaf
                cases encode_injective (Option.some.inj (hbytes.symm.trans hleaf)) }
            refine ⟨found, hmain, hroot, ?_⟩
            intro object hobject
            obtain ⟨child, hchild, hin⟩ := hunder object hobject
            exact hin.of_link hbytes (nodeLinks_branch branch) (mem_map_of_mem hchild)

end Clean

end Heddle.Manifest
