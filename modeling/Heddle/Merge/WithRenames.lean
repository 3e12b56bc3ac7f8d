import Heddle.Merge.Flat
import Mathlib.Data.List.Dedup

namespace Heddle.Merge
open Heddle.Lib

structure MergeState (H : Type) where
  mergedFlat : FlatTree H := ∅
  conflicts : List String := []
  claimedPaths : List String := []

structure IterationOrder where
  visit : List String → List String
  perm : ∀ paths, (visit paths).Perm paths

def IterationOrder.asGiven : IterationOrder := ⟨id, fun _ => .refl _⟩

section WithRenames
variable [DecidableEq H] (env : MergeEnv H)

def divergingRename (opposingRenames : RenameMap H) (basePath : String) (rename : RenameMatch H) :
    Option (RenameMatch H) :=
  (opposingRenames.lookup basePath).filter (fun opposing => rename.toPath ≠ opposing.toPath)

def applyRename (opposingRenames : RenameMap H) (opposingFlat : FlatTree H) (st : MergeState H)
    (basePath : String) (rename : RenameMatch H) : Except Failure (MergeState H) :=
  match divergingRename opposingRenames basePath rename with
  | some opposingRename =>
    .ok {
      mergedFlat := (st.mergedFlat.insert rename.toPath (leafFromRename rename)).insert
        opposingRename.toPath (leafFromRename opposingRename)
      conflicts := st.conflicts ++ ["rename/rename conflict: " ++ basePath ++ " → " ++
        rename.toPath ++ " vs " ++ opposingRename.toPath]
      claimedPaths := st.claimedPaths ++ [basePath, rename.toPath, opposingRename.toPath] }
  | none =>
    let claimedPaths := st.claimedPaths ++ [basePath, rename.toPath]
    match opposingFlat.lookup basePath with
    | some opposing =>
      if opposing.hash ≠ rename.fromHash then do
        let (mergedHash, pushed) ← threeWayContentMerge env rename.fromHash rename.toHash
          opposing.hash rename.toPath
        let leaf := resolveMergedLeaf mergedHash (leafFromRename rename) opposing true
        return {
          mergedFlat := st.mergedFlat.insert rename.toPath leaf
          conflicts := st.conflicts ++ pushed
          claimedPaths := claimedPaths }
      else
        let leaf := leafFromRename rename
        -- The content is the rename's; the mode is merged on its own.
        let executable := mergeExecutableValues rename.fromExecutable leaf.executable
          opposing.executable
        let leaf := if leaf.entryType = .blob then { leaf with executable } else leaf
        .ok {
          mergedFlat := st.mergedFlat.insert rename.toPath leaf
          conflicts := st.conflicts
          claimedPaths := claimedPaths }
    | none =>
      .ok {
        mergedFlat := st.mergedFlat.insert rename.toPath (leafFromRename rename)
        conflicts := if basePath ∈ opposingRenames then st.conflicts
          else st.conflicts ++ ["rename/delete conflict: " ++ basePath ++ " renamed to " ++
            rename.toPath ++ " but deleted on other side"]
        claimedPaths := claimedPaths }

def applyRenames (activeRenames opposingRenames : RenameMap H) (opposingFlat : FlatTree H)
    (st : MergeState H) : Except Failure (MergeState H) :=
  activeRenames.entries.foldlM
    (fun st entry => applyRename env opposingRenames opposingFlat st entry.1 entry.2) st

def mergeModifyDelete (path : String) (base kept : FlatLeaf H) (side : String) :
    Except Failure (Option (FlatLeaf H) × List String) :=
  if kept.hash ≠ base.hash ∨ kept.entryType ≠ base.entryType ∨
      kept.executable ≠ base.executable then
    if kept.opaqueLeaf.isSome ∨ base.opaqueLeaf.isSome then
      .ok (some kept, ["modify/delete conflict at " ++ path ++ ": " ++ kept.entryType.debug ++
        " entry was modified on " ++ side ++ " side"])
    else do
      let (mergedHash, pushed) ← modifyDeleteConflictMerge env kept.hash path
      return (some ⟨mergedHash, .blob, kept.entryType = .blob && kept.executable, none⟩, pushed)
  else .ok (none, [])

def mergeAdded (path : String) (our their : FlatLeaf H) :
    Except Failure (Option (FlatLeaf H) × List String) :=
  if our = their then .ok (some our, [])
  else if our.opaqueLeaf.isNone ∧ their.opaqueLeaf.isNone ∧ our.hash = their.hash ∧
      our.entryType = their.entryType then
    .ok (some ⟨our.hash, our.entryType, unionExecutable our.executable their.executable, none⟩, [])
  else if our.opaqueLeaf.isSome ∨ their.opaqueLeaf.isSome then
    .ok (some our, ["non-content leaf conflict at " ++ path ++
      ": both sides added incompatible " ++ our.entryType.debug ++ " entries"])
  else do
    let (mergedHash, pushed) ← contentConflictMerge env our.hash their.hash path
    return (some (resolveMergedLeaf mergedHash our their true), pushed)

def selectContent (path : String) (base our their : FlatLeaf H) :
    Except Failure (H × Bool × List String) :=
  if our.hash = their.hash then .ok (our.hash, false, [])
  else if our.hash = base.hash then .ok (their.hash, false, [])
  else if their.hash = base.hash then .ok (our.hash, false, [])
  else do
    let (mergedHash, pushed) ← threeWayContentMerge env base.hash our.hash their.hash path
    return (mergedHash, true, pushed)

def selectedContentMatchesType (base our their : FlatLeaf H) (mergedHash : H) : Bool :=
  match mergeEntryType base our their with
  | none => true
  | some entryType =>
    (our.hash = mergedHash && our.entryType = entryType) ||
      (their.hash = mergedHash && their.entryType = entryType)

def selectLeaf (base our their : FlatLeaf H) (mergedHash : H) (contentWasMerged : Bool) :
    FlatLeaf H :=
  match contentWasMerged, mergeEntryType base our their with
  | false, some .symlink => .symlink mergedHash
  | false, some .blob => .blob mergedHash (mergeExecutable base our their)
  | _, _ => resolveMergedLeaf mergedHash our their contentWasMerged

def mergeChanged (path : String) (base our their : FlatLeaf H) :
    Except Failure (Option (FlatLeaf H) × List String) :=
  if our = their then .ok (some our, [])
  else if our = base then .ok (some their, [])
  else if their = base then .ok (some our, [])
  else if our.opaqueLeaf.isSome ∨ their.opaqueLeaf.isSome ∨ base.opaqueLeaf.isSome then
    .ok (some our, ["non-content leaf conflict at " ++ path ++ ": " ++ our.entryType.debug ++
      " changed incompatibly"])
  else do
    let (mergedHash, contentWasMerged, pushed) ← selectContent env path base our their
    if ¬ contentWasMerged ∧ ¬ selectedContentMatchesType base our their mergedHash then
      -- Kind and content were changed on opposite sides.
      let (conflictHash, conflict) ← contentConflictMerge env our.hash their.hash path
      return (some (.blob conflictHash (unionExecutable (our.entryType = .blob && our.executable)
        (their.entryType = .blob && their.executable))), pushed ++ conflict)
    else
      return (some (selectLeaf base our their mergedHash contentWasMerged), pushed)

def mergeLeaf (path : String) (base our their : Option (FlatLeaf H)) :
    Except Failure (Option (FlatLeaf H) × List String) :=
  match base, our, their with
  | none, none, some leaf => .ok (some leaf, [])
  | none, some leaf, none => .ok (some leaf, [])
  | none, some our, some their => mergeAdded env path our their
  | some _, none, none => .ok (none, [])
  | none, none, none => .ok (none, [])
  | some base, some our, none => mergeModifyDelete env path base our "our"
  | some base, none, some their => mergeModifyDelete env path base their "their"
  | some base, some our, some their => mergeChanged env path base our their

def mergeRemainingPath (baseFlat ourFlat theirFlat : FlatTree H) (st : MergeState H)
    (path : String) : Except Failure (MergeState H) :=
  if path ∈ st.claimedPaths then .ok st
  else do
    let (leaf, pushed) ← mergeLeaf env path (baseFlat.lookup path) (ourFlat.lookup path)
      (theirFlat.lookup path)
    return {
      mergedFlat := match leaf with
        | some leaf => st.mergedFlat.insert path leaf
        | none => st.mergedFlat
      conflicts := st.conflicts ++ pushed
      claimedPaths := st.claimedPaths }

def allPaths (baseFlat ourFlat theirFlat : FlatTree H) : List String :=
  (baseFlat.keys ++ ourFlat.keys ++ theirFlat.keys).dedup

def mergeRemainingPaths (order : IterationOrder) (baseFlat ourFlat theirFlat : FlatTree H)
    (st : MergeState H) : Except Failure (MergeState H) :=
  (order.visit (allPaths baseFlat ourFlat theirFlat)).foldlM
    (mergeRemainingPath env baseFlat ourFlat theirFlat) st

def mergeFlats (order : IterationOrder) (baseFlat ourFlat theirFlat : FlatTree H)
    (renameMap : MergeRenameMap H) : Except Failure (MergeState H) := do
  let st ← applyRenames env renameMap.ourRenames renameMap.theirRenames theirFlat {}
  let st ← applyRenames env renameMap.theirRenames renameMap.ourRenames ourFlat st
  mergeRemainingPaths env order baseFlat ourFlat theirFlat st

end WithRenames

section Nested
variable (env : MergeEnv H)

structure NestedParts (H : Type) where
  topFiles : List (String × FlatLeaf H) := []
  subdirs : AList (fun _ : String => FlatTree H) := ∅

def placeLeaf (parts : NestedParts H) (path : String) (leaf : FlatLeaf H) : NestedParts H :=
  match splitOnce path with
  | some (directory, rest) =>
    let sub := (parts.subdirs.lookup directory).getD ∅
    { parts with subdirs := parts.subdirs.insert directory (sub.insert rest leaf) }
  | none => { parts with topFiles := parts.topFiles ++ [(path, leaf)] }

def nestedParts (flat : FlatTree H) : NestedParts H :=
  flat.entries.foldl (fun parts entry => placeLeaf parts entry.1 entry.2) {}

def assembleTree (buildSubtree : FlatTree H → Except Failure (Tree H)) (parts : NestedParts H) :
    Except Failure (Tree H) := do
  let files ← parts.topFiles.mapM (fun file => leafToTreeEntry file.1 file.2)
  let directories ← parts.subdirs.entries.mapM (fun entry => do
    let subtree ← buildSubtree entry.2
    let hash ← env.putTree subtree
    entryOr (TreeEntry.directory entry.1 hash))
  return Tree.fromEntries (files ++ directories)

def buildNestedLoop : Nat → FlatTree H → Except Failure (Tree H)
  | 0, _ => .error (.message "path nesting is deeper than the recursion limit")
  | fuel + 1, flat => assembleTree env (buildNestedLoop fuel) (nestedParts flat)

def maxPathLength (flat : FlatTree H) : Nat :=
  (flat.keys.map (fun path => path.toList.length)).foldr max 0

def buildNestedTree (flat : FlatTree H) : Except Failure (Tree H) :=
  buildNestedLoop env (maxPathLength flat + 1) flat

def mergeLeafMaps [DecidableEq H] (fuel : Nat) (order : IterationOrder)
    (baseTree ourTree theirTree : Tree H) (renameMap : MergeRenameMap H) :
    Except Failure (MergeState H) := do
  let baseFlat ← flattenTree env fuel baseTree ""
  let ourFlat ← flattenTree env fuel ourTree ""
  let theirFlat ← flattenTree env fuel theirTree ""
  mergeFlats env order baseFlat ourFlat theirFlat renameMap

def mergeWithRenames [DecidableEq H] (fuel : Nat) (order : IterationOrder)
    (baseTree ourTree theirTree : Tree H) (renameMap : MergeRenameMap H) :
    Except Failure (Tree H × List String) := do
  let st ← mergeLeafMaps env fuel order baseTree ourTree theirTree renameMap
  let tree ← buildNestedTree env st.mergedFlat
  return (tree, st.conflicts)

end Nested

def fileTree (files : List (String × Bytes)) : Tree Bytes :=
  Tree.fromEntries (files.map (fun file => { name := file.1, target := .blob file.2 false }))

def exactRename (fromPath toPath : String) (content : Bytes) : RenameMatch Bytes :=
  ⟨fromPath, toPath, content, content, false, false, .blob⟩

section CollisionFree
variable (env : MergeEnv H) (flats : List (FlatTree H))

/-- What is hashed for a gitlink or a spoollink. -/
def OpaqueLeaf.hashed : OpaqueLeaf → String × Bytes
  | .gitlink target => ("flat-gitlink", target.asBytes)
  | .spoollink spoolId stateId => ("flat-spoollink", utf8 spoolId.text ++ stateId.bytes.toList)

def HeldLeaf (leaf : FlatLeaf H) : Prop := ∃ flat ∈ flats, ∃ path, flat.lookup path = some leaf

/-- No two gitlinks or spoollinks among the leaves have one digest. -/
def CollisionFree : Prop :=
  Set.InjOn (fun input => env.computeTyped input.1 input.2)
    {input | ∃ leaf link, HeldLeaf flats leaf ∧ leaf.opaqueLeaf = some link ∧ link.hashed = input}

end CollisionFree

theorem LeafOf.eq (hcf : CollisionFree env flats) (ha : LeafOf env a) (hb : LeafOf env b)
    (hheld : HeldLeaf flats a) (hheld' : HeldLeaf flats b) (hhash : a.hash = b.hash) (htype : a.entryType = b.entryType)
    (hexec : a.executable = b.executable) : a = b := by
  cases ha with
  | blob hash executable =>
    cases hb with
    | blob hash' executable' =>
      obtain rfl : hash = hash' := hhash
      obtain rfl : executable = executable' := hexec
      rfl
    | symlink => cases htype
    | gitlink => cases htype
    | spoollink => cases htype
  | symlink hash =>
    cases hb with
    | symlink hash' =>
      obtain rfl : hash = hash' := hhash
      rfl
    | blob => cases htype
    | gitlink => cases htype
    | spoollink => cases htype
  | gitlink target =>
    cases hb with
    | gitlink target' =>
      have hinput := hcf ⟨_, _, hheld, rfl, rfl⟩ ⟨_, _, hheld', rfl, rfl⟩ hhash
      obtain rfl : target = target' := GitObjectId.asBytes_injective (Prod.mk.inj hinput).2
      rfl
    | blob => cases htype
    | symlink => cases htype
    | spoollink => cases htype
  | spoollink spoolId stateId =>
    cases hb with
    | spoollink spoolId' stateId' =>
      have hbytes : utf8 spoolId.text ++ stateId.bytes.toList =
          utf8 spoolId'.text ++ stateId'.bytes.toList :=
        (Prod.mk.inj (hcf ⟨_, _, hheld, rfl, rfl⟩ ⟨_, _, hheld', rfl, rfl⟩ hhash)).2
      obtain ⟨htext, hstate⟩ := List.append_inj' hbytes (by simp)
      have hspool : spoolId = spoolId' := SpoolId.ext (utf8_injective htext)
      have hstate' : stateId = stateId' := by
        cases stateId
        cases stateId'
        exact congrArg StateId.mk (Vector.toList_inj.1 hstate)
      rw [hspool, hstate']
    | blob => cases htype
    | symlink => cases htype
    | gitlink => cases htype

section LeafMerge
variable [DecidableEq H] {env : MergeEnv H}

theorem threeWayContentMerge_self (env : MergeEnv H) (base hash : H) (path : String) :
    threeWayContentMerge env base hash hash path = .ok (hash, []) := by
  rw [threeWayContentMerge, if_pos rfl]

theorem threeWayContentMerge_our_unchanged (env : MergeEnv H) (base their : H) (path : String) :
    threeWayContentMerge env base base their path = .ok (their, []) := by
  by_cases h : base = their
  · rw [threeWayContentMerge, if_pos h, h]
  · rw [threeWayContentMerge, if_neg h, if_pos rfl]

theorem threeWayContentMerge_their_unchanged (env : MergeEnv H) (base our : H) (path : String) :
    threeWayContentMerge env base our base path = .ok (our, []) := by
  by_cases h : our = base
  · rw [threeWayContentMerge, if_pos h]
  · rw [threeWayContentMerge, if_neg h, if_neg h, if_pos rfl]

omit [DecidableEq H] in
theorem resolveMergedLeaf_hash (hash : H) (our their : FlatLeaf H) (merged : Bool) :
    (resolveMergedLeaf hash our their merged).hash = hash := by
  unfold resolveMergedLeaf
  split
  · rfl
  · split <;> rfl

omit [DecidableEq H] in
theorem selectLeaf_hash (base our their : FlatLeaf H) (hash : H) (merged : Bool) :
    (selectLeaf base our their hash merged).hash = hash := by
  unfold selectLeaf
  split
  · rfl
  · rfl
  · exact resolveMergedLeaf_hash _ _ _ _

theorem selectContent_hash {hash : H}
    (h : selectContent env path base our their = .ok (hash, merged, pushed)) :
    threeWayContentMerge env base.hash our.hash their.hash path = .ok (hash, pushed) ∧
      (merged = false → pushed = []) := by
  unfold selectContent at h
  by_cases hot : our.hash = their.hash
  · rw [if_pos hot] at h
    cases h
    exact ⟨by rw [hot]; exact threeWayContentMerge_self _ _ _ _, fun _ => rfl⟩
  · rw [if_neg hot] at h
    by_cases hob : our.hash = base.hash
    · rw [if_pos hob] at h
      cases h
      exact ⟨by rw [hob]; exact threeWayContentMerge_our_unchanged _ _ _ _, fun _ => rfl⟩
    · rw [if_neg hob] at h
      by_cases htb : their.hash = base.hash
      · rw [if_pos htb] at h
        cases h
        exact ⟨by rw [htb]; exact threeWayContentMerge_their_unchanged _ _ _ _, fun _ => rfl⟩
      · rw [if_neg htb, bind_eq_ok] at h
        obtain ⟨⟨mergedHash, pushed'⟩, hmerge, h⟩ := h
        cases h
        exact ⟨hmerge, fun h => by cases h⟩

theorem mergeChanged_clean (h : mergeChanged env path base our their = .ok (leaf, [])) :
    ∃ m pushed, leaf = some m ∧
      threeWayContentMerge env base.hash our.hash their.hash path = .ok (m.hash, pushed) := by
  unfold mergeChanged at h
  by_cases hot : our = their
  · rw [if_pos hot] at h
    cases h
    exact ⟨our, [], rfl, by rw [hot]; exact threeWayContentMerge_self _ _ _ _⟩
  · rw [if_neg hot] at h
    by_cases hob : our = base
    · rw [if_pos hob] at h
      cases h
      exact ⟨their, [], rfl, by rw [hob]; exact threeWayContentMerge_our_unchanged _ _ _ _⟩
    · rw [if_neg hob] at h
      by_cases htb : their = base
      · rw [if_pos htb] at h
        cases h
        exact ⟨our, [], rfl, by rw [htb]; exact threeWayContentMerge_their_unchanged _ _ _ _⟩
      · rw [if_neg htb] at h
        split at h
        · cases h
        · rw [bind_eq_ok] at h
          obtain ⟨⟨hash, merged, pushed⟩, hselect, h⟩ := h
          obtain ⟨hmerge, _⟩ := selectContent_hash hselect
          dsimp only at h
          split at h
          · rw [bind_eq_ok] at h
            obtain ⟨⟨conflictHash, conflict⟩, hconflict, h⟩ := h
            obtain rfl := contentConflictMerge_conflicts env hconflict
            have hpushed := congrArg (Except.map Prod.snd) h
            simp [Except.map] at hpushed
          · cases h
            exact ⟨_, _, rfl, by rw [selectLeaf_hash]; exact hmerge⟩

theorem mergeAdded_clean (h : mergeAdded env path our their = .ok (leaf, [])) :
    ∃ m, leaf = some m ∧ m.hash = our.hash ∧ m.hash = their.hash := by
  unfold mergeAdded at h
  by_cases hot : our = their
  · rw [if_pos hot] at h
    cases h
    exact ⟨our, rfl, rfl, by rw [hot]⟩
  · rw [if_neg hot] at h
    split at h
    · rename_i hsame
      cases h
      exact ⟨_, rfl, rfl, hsame.2.2.1⟩
    · split at h
      · cases h
      · rw [bind_eq_ok] at h
        obtain ⟨⟨conflictHash, conflict⟩, hconflict, h⟩ := h
        obtain rfl := contentConflictMerge_conflicts env hconflict
        cases h

/-- A clean merge drops a leaf that one side deleted only when the other side left it alone. -/
theorem mergeModifyDelete_clean (hcf : CollisionFree env flats) (hbase : LeafOf env base)
    (hkept : LeafOf env kept) (hheld : HeldLeaf flats base) (hheld' : HeldLeaf flats kept)
    (h : mergeModifyDelete env path base kept side = .ok (leaf, [])) :
    kept = base ∧ leaf = none := by
  unfold mergeModifyDelete at h
  split at h
  · split at h
    · cases h
    · rw [bind_eq_ok] at h
      obtain ⟨⟨conflictHash, conflict⟩, hconflict, h⟩ := h
      obtain rfl := modifyDeleteConflictMerge_conflicts env hconflict
      cases h
  · rename_i hsame
    cases h
    simp only [not_or, not_not] at hsame
    exact ⟨LeafOf.eq hcf hkept hbase hheld' hheld hsame.1 hsame.2.1 hsame.2.2, rfl⟩

end LeafMerge

end Heddle.Merge
