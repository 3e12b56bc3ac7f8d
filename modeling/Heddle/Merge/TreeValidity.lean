import Heddle.Merge.NestedTree
import Heddle.Merge.TreeLeaves
import Heddle.Merge.Recursive
import Heddle.Merge.RenamePasses

namespace Heddle.Merge
open Heddle.Lib List Option

section Leaves
variable {env : MergeEnv H}

theorem HasLeaf.leafOf (h : HasLeaf env tree path leaf) : LeafOf env leaf := by
  induction h with
  | @entry e tree leaf _ hleaf =>
    unfold entryLeaf at hleaf
    cases ht : e.target with
    | blob hash executable =>
      rw [ht] at hleaf
      cases hleaf
      exact .blob hash executable
    | symlink hash =>
      rw [ht] at hleaf
      cases hleaf
      exact .symlink hash
    | gitlink target =>
      rw [ht] at hleaf
      cases hleaf
      exact .gitlink target
    | spoollink spoolId stateId =>
      rw [ht] at hleaf
      cases hleaf
      exact .spoollink spoolId stateId
    | tree hash =>
      rw [ht] at hleaf
      cases hleaf
  | nested _ _ _ _ ih => exact ih

theorem HasLeaf.validPath (hstore : StoredTreesValid env) (h : HasLeaf env tree path leaf)
    (hvalid : tree.validate = .ok ()) : ValidPath path := by
  induction h with
  | entry he _ => exact .name (TreeEntry.validate_name ((Tree.validate_entries hvalid).1 _ he))
  | nested he _ hget _ ih =>
    exact .join (TreeEntry.validate_name ((Tree.validate_entries hvalid).1 _ he))
      (ih (hstore _ _ hget))

theorem flattenTree_placeable (hstore : StoredTreesValid env) (hvalid : tree.validate = .ok ())
    (h : flattenTree env fuel tree "" = .ok flat) (hl : flat.lookup path = some leaf) :
    ValidPath path ∧ LeafOf env leaf := by
  have hleaf := (flattenTree_root_lookup hstore hvalid h).1 hl
  exact ⟨hleaf.validPath hstore hvalid, hleaf.leafOf⟩

/-- A leaf of regular content, as a merge of contents leaves it. -/
def ContentLeaf (leaf : FlatLeaf H) : Prop := leaf.entryType = .blob ∨ leaf.entryType = .symlink

theorem resolveMergedLeaf_content (hash : H) (our their : FlatLeaf H) (merged : Bool) :
    ContentLeaf (resolveMergedLeaf hash our their merged) := by
  unfold resolveMergedLeaf
  split
  · exact .inr rfl
  · split <;> exact .inl rfl

theorem selectLeaf_content (base our their : FlatLeaf H) (hash : H) (merged : Bool) :
    ContentLeaf (selectLeaf base our their hash merged) := by
  unfold selectLeaf
  split
  · exact .inr rfl
  · exact .inl rfl
  · exact resolveMergedLeaf_content _ _ _ _

theorem LeafOf.content (h : LeafOf env leaf) (hplain : leaf.opaqueLeaf.isNone) :
    ContentLeaf leaf := by
  cases h with
  | blob hash executable => exact .inl rfl
  | symlink hash => exact .inr rfl
  | gitlink target => cases hplain
  | spoollink spoolId stateId => cases hplain

variable [DecidableEq H]

theorem mergeAdded_leaf (hour : LeafOf env our) (h : mergeAdded env path our their = .ok r) :
    ∃ leaf, r.1 = some leaf ∧ Writable leaf := by
  unfold mergeAdded at h
  split at h
  · cases h
    exact ⟨our, rfl, hour.writable⟩
  · split at h
    · rename_i hsame
      cases h
      exact ⟨_, rfl, writable_content (hour.content hsame.1)⟩
    · split at h
      · cases h
        exact ⟨our, rfl, hour.writable⟩
      · obtain ⟨merged, _, h⟩ := bind_eq_ok.1 h
        cases h
        exact ⟨_, rfl, writable_content (resolveMergedLeaf_content _ _ _ _)⟩

theorem mergeChanged_leaf (hour : LeafOf env our) (htheir : LeafOf env their)
    (h : mergeChanged env path base our their = .ok r) :
    ∃ leaf, r.1 = some leaf ∧ Writable leaf := by
  unfold mergeChanged at h
  split at h
  · cases h
    exact ⟨our, rfl, hour.writable⟩
  split at h
  · cases h
    exact ⟨their, rfl, htheir.writable⟩
  split at h
  · cases h
    exact ⟨our, rfl, hour.writable⟩
  split at h
  · cases h
    exact ⟨our, rfl, hour.writable⟩
  obtain ⟨selected, _, h⟩ := bind_eq_ok.1 h
  dsimp only at h
  split at h
  · obtain ⟨conflict, _, h⟩ := bind_eq_ok.1 h
    cases h
    exact ⟨_, rfl, writable_content (.inl rfl)⟩
  · cases h
    exact ⟨_, rfl, writable_content (selectLeaf_content _ _ _ _ _)⟩

def LeafChanged (kept base : FlatLeaf H) : Prop :=
  kept.hash ≠ base.hash ∨ kept.entryType ≠ base.entryType ∨ kept.executable ≠ base.executable

theorem mergeModifyDelete_leaf (hkept : LeafOf env kept)
    (h : mergeModifyDelete env path base kept side = .ok r) :
    (∀ leaf, r.1 = some leaf → Writable leaf) ∧ (r.1.isSome ↔ LeafChanged kept base) := by
  unfold mergeModifyDelete at h
  split at h
  · rename_i hchanged
    split at h
    · cases h
      refine ⟨?_, fun _ => hchanged, fun _ => rfl⟩
      rintro leaf ⟨rfl⟩
      exact hkept.writable
    · obtain ⟨merged, _, h⟩ := bind_eq_ok.1 h
      cases h
      refine ⟨?_, fun _ => hchanged, fun _ => rfl⟩
      rintro leaf ⟨rfl⟩
      exact writable_content (.inl rfl)
  · rename_i hsame
    cases h
    exact ⟨fun _ hl => absurd hl nofun, fun h => absurd h nofun, fun h => absurd h hsame⟩

/-- Whether the merge of an unclaimed path leaves anything there. -/
def SurvivesMerge (base our their : Option (FlatLeaf H)) : Prop :=
  match base, our, their with
  | none, our, their => our.isSome ∨ their.isSome
  | some _, none, none => False
  | some base, some kept, none => LeafChanged kept base
  | some base, none, some kept => LeafChanged kept base
  | some _, some _, some _ => True

theorem mergeLeaf_leaf (hour : ∀ leaf, our = some leaf → LeafOf env leaf)
    (htheir : ∀ leaf, their = some leaf → LeafOf env leaf)
    (h : mergeLeaf env path base our their = .ok r) :
    (∀ leaf, r.1 = some leaf → Writable leaf) ∧ (r.1.isSome ↔ SurvivesMerge base our their) := by
  have hpresent : (∃ leaf, r.1 = some leaf ∧ Writable leaf) →
      (∀ leaf, r.1 = some leaf → Writable leaf) ∧ r.1.isSome := by
    rintro ⟨leaf, hr, hw⟩
    rw [hr]
    refine ⟨?_, rfl⟩
    rintro leaf' ⟨rfl⟩
    exact hw
  cases base with
  | none =>
    cases our with
    | none =>
      cases their with
      | none =>
        cases h
        exact ⟨fun _ hl => absurd hl nofun, fun h => absurd h nofun, fun h => h.elim nofun nofun⟩
      | some their =>
        cases h
        obtain ⟨hw, hs⟩ := hpresent ⟨their, rfl, (htheir their rfl).writable⟩
        exact ⟨hw, fun _ => .inr rfl, fun _ => hs⟩
    | some our =>
      cases their with
      | none =>
        cases h
        obtain ⟨hw, hs⟩ := hpresent ⟨our, rfl, (hour our rfl).writable⟩
        exact ⟨hw, fun _ => .inl rfl, fun _ => hs⟩
      | some their =>
        obtain ⟨hw, hs⟩ := hpresent (mergeAdded_leaf (hour our rfl) h)
        exact ⟨hw, fun _ => .inl rfl, fun _ => hs⟩
  | some base =>
    cases our with
    | none =>
      cases their with
      | none =>
        cases h
        exact ⟨fun _ hl => absurd hl nofun, fun h => absurd h nofun, fun h => h.elim⟩
      | some their => exact mergeModifyDelete_leaf (htheir their rfl) h
    | some our =>
      cases their with
      | none => exact mergeModifyDelete_leaf (hour our rfl) h
      | some their =>
        obtain ⟨hw, hs⟩ := hpresent (mergeChanged_leaf (hour our rfl) (htheir their rfl) h)
        exact ⟨hw, fun _ => trivial, fun _ => hs⟩

end Leaves

section Survivors

def RenameDestination (renames : MergeRenameMap H) (path : String) : Prop :=
  ∃ entry, (entry ∈ renames.ourRenames.entries ∨ entry ∈ renames.theirRenames.entries) ∧
    entry.2.toPath = path

def Survives (baseFlat ourFlat theirFlat : FlatTree H) (renames : MergeRenameMap H)
    (path : String) : Prop :=
  RenameDestination renames path ∨ (path ∉ renames.claimed ∧
    SurvivesMerge (baseFlat.lookup path) (ourFlat.lookup path) (theirFlat.lookup path))

def SurvivorsPrefixFree (baseFlat ourFlat theirFlat : FlatTree H) (renames : MergeRenameMap H) :
    Prop :=
  ∀ path rest, Survives baseFlat ourFlat theirFlat renames path →
    ¬ Survives baseFlat ourFlat theirFlat renames (path ++ "/" ++ rest)

theorem RenameDestination.claimed (h : RenameDestination renames path) :
    path ∈ renames.claimed := by
  obtain ⟨entry, hentry, hpath⟩ := h
  exact mem_claimed.2 ⟨entry, hentry, .inr hpath.symm⟩

def RepresentableRenames (renames : MergeRenameMap H) : Prop :=
  ∀ entry, (entry ∈ renames.ourRenames.entries ∨ entry ∈ renames.theirRenames.entries) →
    ValidPath entry.2.toPath ∧ ContentLeaf (leafFromRename entry.2)

variable [DecidableEq H] {env : MergeEnv H}

theorem renameEffect_destination
    (h : renameEffect env opposingRenames opposingFlat source rename = .ok e) :
    (∃ leaf, (rename.toPath, leaf) ∈ e.writes) ∧
      ∀ path leaf, (path, leaf) ∈ e.writes → path = rename.toPath ∨
        ∃ opposing, ⟨source, opposing⟩ ∈ opposingRenames.entries ∧ path = opposing.toPath := by
  rcases renameEffect_cases env h with
    ⟨opposing, hd, hwrites, _⟩ | ⟨_, _, ⟨_, leaf, _, _, _, hwrites, _⟩ | ⟨_, hwrites, _⟩⟩
  all_goals
    rw [hwrites]
    refine ⟨⟨_, mem_cons_self⟩, fun path leaf hmem => ?_⟩
    simp only [mem_cons, Prod.mk.injEq, not_mem_nil, or_false] at hmem
  · rcases hmem with hmem | hmem
    · exact .inl hmem.1
    · exact .inr ⟨opposing, (divergingRename_mem hd).1, hmem.1⟩
  · exact .inl hmem.1
  · exact .inl hmem.1

theorem renameEffect_content (hrename : ContentLeaf (leafFromRename rename))
    (hopposing : ∀ opposing, opposingRenames.lookup source = some opposing →
      ContentLeaf (leafFromRename opposing))
    (h : renameEffect env opposingRenames opposingFlat source rename = .ok e)
    (hw : (path, leaf) ∈ e.writes) : ContentLeaf leaf := by
  unfold renameEffect at h
  cases hd : divergingRename opposingRenames source rename with
  | some opposing =>
    rw [hd] at h
    cases h
    simp only [mem_cons, Prod.mk.injEq, not_mem_nil, or_false] at hw
    rcases hw with ⟨_, rfl⟩ | ⟨_, rfl⟩
    · exact hrename
    · exact hopposing _ (AList.mem_lookup_iff.2 (divergingRename_mem hd).1)
  | none =>
    rw [hd] at h
    cases hl : opposingFlat.lookup source with
    | none =>
      rw [hl] at h
      cases h
      obtain ⟨_, rfl⟩ := Prod.mk.inj (mem_singleton.1 hw)
      exact hrename
    | some opposing =>
      rw [hl] at h
      dsimp only at h
      split at h
      · obtain ⟨merged, _, h⟩ := bind_eq_ok.1 h
        cases h
        obtain ⟨_, rfl⟩ := Prod.mk.inj (mem_singleton.1 hw)
        exact resolveMergedLeaf_content _ _ _ _
      · cases h
        obtain ⟨_, rfl⟩ := Prod.mk.inj (mem_singleton.1 hw)
        split
        · rename_i hblob
          exact .inl hblob
        · exact hrename

theorem renameWrites_isSome (hok : PassesOk env baseFlat ourFlat theirFlat renames) :
    ((theirWrite env ourFlat renames path).or (ourWrite env theirFlat renames path)).isSome ↔
      RenameDestination renames path := by
  rw [isSome_or, Bool.or_eq_true]
  constructor
  · rintro (h | h)
    · obtain ⟨leaf, hleaf⟩ := isSome_iff_exists.1 h
      obtain ⟨entry, hentry, hwritten⟩ := exists_of_lastSome hleaf
      obtain ⟨e, he⟩ := hok.theirs entry hentry
      rw [he] at hwritten
      rcases (renameEffect_destination he).2 _ _ (mem_of_writtenAt hwritten) with hp | ⟨_, hm, hp⟩
      · exact ⟨entry, .inr hentry, hp.symm⟩
      · exact ⟨_, .inl hm, hp.symm⟩
    · obtain ⟨leaf, hleaf⟩ := isSome_iff_exists.1 h
      obtain ⟨entry, hentry, hwritten⟩ := exists_of_lastSome hleaf
      obtain ⟨e, he⟩ := hok.ours entry hentry
      rw [he] at hwritten
      rcases (renameEffect_destination he).2 _ _ (mem_of_writtenAt hwritten) with hp | ⟨_, hm, hp⟩
      · exact ⟨entry, .inl hentry, hp.symm⟩
      · exact ⟨_, .inr hm, hp.symm⟩
  · rintro ⟨entry, hentry | hentry, rfl⟩
    · obtain ⟨e, he⟩ := hok.ours entry hentry
      obtain ⟨leaf, hleaf⟩ := (renameEffect_destination he).1
      refine .inr (lastSome_isSome hentry ?_)
      rw [he]
      exact writtenAt_isSome hleaf
    · obtain ⟨e, he⟩ := hok.theirs entry hentry
      obtain ⟨leaf, hleaf⟩ := (renameEffect_destination he).1
      refine .inl (lastSome_isSome hentry ?_)
      rw [he]
      exact writtenAt_isSome hleaf

theorem remainingLeaf_leaf (hO : FlatTree.Leaves env ourFlat) (hT : FlatTree.Leaves env theirFlat)
    (hr : leafMerge env baseFlat ourFlat theirFlat path = .ok r) :
    (∀ leaf, remainingLeaf env baseFlat ourFlat theirFlat path = some leaf → Writable leaf) ∧
      ((remainingLeaf env baseFlat ourFlat theirFlat path).isSome ↔
        SurvivesMerge (baseFlat.lookup path) (ourFlat.lookup path) (theirFlat.lookup path)) := by
  rw [remainingLeaf, hr]
  exact mergeLeaf_leaf (hO path) (hT path) hr

theorem leafMerge_of_not_mem (h : path ∉ allPaths baseFlat ourFlat theirFlat) :
    leafMerge env baseFlat ourFlat theirFlat path = .ok (none, []) := by
  rw [mem_allPaths, not_or, not_or] at h
  rw [leafMerge, AList.lookup_eq_none.2 h.1, AList.lookup_eq_none.2 h.2.1,
    AList.lookup_eq_none.2 h.2.2]
  rfl

theorem PassesOk.leafMerge (hok : PassesOk env baseFlat ourFlat theirFlat renames)
    (hc : path ∉ renames.claimed) :
    ∃ r, leafMerge env baseFlat ourFlat theirFlat path = .ok r := by
  by_cases hp : path ∈ allPaths baseFlat ourFlat theirFlat
  · exact hok.remaining path hp hc
  · exact ⟨_, leafMerge_of_not_mem hp⟩

section
variable (hO : FlatTree.Leaves env ourFlat) (hT : FlatTree.Leaves env theirFlat)
  (h : mergeFlats env order baseFlat ourFlat theirFlat renames = .ok st)
include hO hT h

theorem mem_mergedFlat :
    path ∈ st.mergedFlat ↔ Survives baseFlat ourFlat theirFlat renames path := by
  have hok := ((mergeFlats_ok_iff order st).1 h).1
  rw [← AList.lookup_isSome, mergeFlats_lookup order h, Survives]
  by_cases hc : path ∈ renames.claimed
  · rw [if_pos hc, renameWrites_isSome hok]
    exact ⟨.inl, fun h => h.resolve_right fun h => h.1 hc⟩
  · obtain ⟨r, hr⟩ := hok.leafMerge hc
    rw [if_neg hc, (remainingLeaf_leaf hO hT hr).2]
    exact ⟨fun h => .inr ⟨hc, h⟩, fun h => (h.resolve_left fun h => hc h.claimed).2⟩

theorem prefixFree_mergedFlat_iff :
    PrefixFree st.mergedFlat ↔ SurvivorsPrefixFree baseFlat ourFlat theirFlat renames := by
  simp only [PrefixFree, SurvivorsPrefixFree, mem_mergedFlat hO hT h]

end

theorem mergedFlat_placeable (hB : ∀ path leaf, baseFlat.lookup path = some leaf → ValidPath path)
    (hO : ∀ path leaf, ourFlat.lookup path = some leaf → ValidPath path ∧ LeafOf env leaf)
    (hT : ∀ path leaf, theirFlat.lookup path = some leaf → ValidPath path ∧ LeafOf env leaf)
    (hrenames : RepresentableRenames renames)
    (h : mergeFlats env order baseFlat ourFlat theirFlat renames = .ok st) :
    Placeable st.mergedFlat := by
  intro path leaf hl
  have hok := ((mergeFlats_ok_iff order st).1 h).1
  have hleaf := hl
  rw [mergeFlats_lookup order h] at hleaf
  by_cases hc : path ∈ renames.claimed
  · rw [if_pos hc] at hleaf
    obtain ⟨entry, hentry, rfl⟩ := (renameWrites_isSome hok).1 (by rw [hleaf]; rfl)
    refine ⟨(hrenames entry hentry).1, ?_⟩
    rw [or_eq_some_iff] at hleaf
    rcases hleaf with hleaf | ⟨_, hleaf⟩
    · obtain ⟨writer, hwriter, hwritten⟩ := exists_of_lastSome hleaf
      obtain ⟨e, he⟩ := hok.theirs writer hwriter
      rw [he] at hwritten
      refine writable_content (renameEffect_content (hrenames writer (.inr hwriter)).2 ?_ he
        (mem_of_writtenAt hwritten))
      exact fun opposing hopp => (hrenames ⟨_, opposing⟩ (.inl (AList.mem_lookup_iff.1 hopp))).2
    · obtain ⟨writer, hwriter, hwritten⟩ := exists_of_lastSome hleaf
      obtain ⟨e, he⟩ := hok.ours writer hwriter
      rw [he] at hwritten
      refine writable_content (renameEffect_content (hrenames writer (.inl hwriter)).2 ?_ he
        (mem_of_writtenAt hwritten))
      exact fun opposing hopp => (hrenames ⟨_, opposing⟩ (.inr (AList.mem_lookup_iff.1 hopp))).2
  · rw [if_neg hc] at hleaf
    obtain ⟨r, hr⟩ := hok.leafMerge hc
    refine ⟨?_, (remainingLeaf_leaf (fun p l hp => (hO p l hp).2) (fun p l hp => (hT p l hp).2)
      hr).1 leaf hleaf⟩
    have hmem : path ∈ allPaths baseFlat ourFlat theirFlat := by
      by_contra hnot
      rw [remainingLeaf, leafMerge_of_not_mem hnot] at hleaf
      cases hleaf
    rcases mem_allPaths.1 hmem with hp | hp | hp
    · obtain ⟨leaf', hl'⟩ := isSome_iff_exists.1 (AList.lookup_isSome.2 hp)
      exact hB path leaf' hl'
    · obtain ⟨leaf', hl'⟩ := isSome_iff_exists.1 (AList.lookup_isSome.2 hp)
      exact (hO path leaf' hl').1
    · obtain ⟨leaf', hl'⟩ := isSome_iff_exists.1 (AList.lookup_isSome.2 hp)
      exact (hT path leaf' hl').1

end Survivors

section RecursiveMerge
variable [DecidableEq H] {env : MergeEnv H}

omit [DecidableEq H] in
theorem withMode_name {e : TreeEntry H} (h : e.withMode m = .ok e') : e'.name = e.name := by
  unfold TreeEntry.withMode at h
  split at h
  · rw [(TreeEntry.withChecked_ok h).2]
  · rw [(TreeEntry.withChecked_ok h).2]
  · split at h <;> cases h
    rfl
  · split at h <;> cases h
    rfl
  · split at h <;> cases h
    rfl
  · split at h <;> cases h
    rfl
  · cases h

/-- At most one entry, and under the name that is merged. -/
def PushesOnly (name : String) (pushed : Pushed H) : Prop :=
  pushed.1 = [] ∨ ∃ e, pushed.1 = [e] ∧ e.name = name

omit [DecidableEq H] in
theorem conflictEntry_pushes (h : conflictEntry env our their path = .ok pushed) :
    PushesOnly our.name pushed := by
  unfold conflictEntry at h
  obtain ⟨content, _, h⟩ := bind_eq_ok.1 h
  obtain ⟨hash, _, h⟩ := bind_eq_ok.1 h
  obtain ⟨e, he, h⟩ := bind_eq_ok.1 h
  cases h
  exact .inr ⟨e, rfl, (entryOr_withChecked he).1⟩

omit [DecidableEq H] in
theorem mergeSubtrees_pushes
    (h : mergeSubtrees env recurse baseSubtree name ourHash theirHash path = .ok pushed) :
    PushesOnly name pushed := by
  unfold mergeSubtrees at h
  obtain ⟨ourSubtree, _, h⟩ := bind_eq_ok.1 h
  obtain ⟨theirSubtree, _, h⟩ := bind_eq_ok.1 h
  obtain ⟨merged, _, h⟩ := bind_eq_ok.1 h
  obtain ⟨hash, _, h⟩ := bind_eq_ok.1 h
  obtain ⟨e, he, h⟩ := bind_eq_ok.1 h
  cases h
  exact .inr ⟨e, rfl, (entryOr_withChecked he).1⟩

theorem mergeDeleteChangedEntry_pushes
    (h : mergeDeleteChangedEntry env base kept path = .ok pushed) : PushesOnly kept.name pushed := by
  unfold mergeDeleteChangedEntry at h
  split at h
  · cases h
    exact .inl rfl
  · obtain ⟨content, _, h⟩ := bind_eq_ok.1 h
    obtain ⟨hash, _, h⟩ := bind_eq_ok.1 h
    obtain ⟨e, he, h⟩ := bind_eq_ok.1 h
    cases h
    exact .inr ⟨e, rfl, (entryOr_withChecked he).1⟩

theorem mergeAddedEntries_pushes (h : mergeAddedEntries env recurse our their path = .ok pushed) :
    PushesOnly our.name pushed := by
  unfold mergeAddedEntries at h
  split at h
  · cases h
    exact .inr ⟨our, rfl, rfl⟩
  · split at h
    · exact mergeSubtrees_pushes h
    · exact conflictEntry_pushes h

theorem mergeModeContentOrthogonalChange_name {base our their entry : TreeEntry H}
    (h : mergeModeContentOrthogonalChange base our their = some entry) : entry.name = our.name := by
  have hok : ∀ {x : Except TreeError (TreeEntry H)}, x.toOption = some entry → x = .ok entry := by
    intro x hx
    cases x with
    | error err => cases hx
    | ok e => exact congrArg _ (some.inj hx)
  unfold mergeModeContentOrthogonalChange at h
  split at h
  · cases h
  split at h
  · cases h
  rename_i hnames
  split at h
  · rw [withMode_name (hok h)]
    exact (not_not.1 (not_or.1 hnames).1).symm
  split at h
  · exact withMode_name (hok h)
  · cases h

theorem mergeChangedEntries_pushes (htheir : their.name = our.name)
    (h : mergeChangedEntries env recurse base our their path = .ok pushed) :
    PushesOnly our.name pushed := by
  unfold mergeChangedEntries at h
  split at h
  · cases h
    exact .inr ⟨our, rfl, rfl⟩
  split at h
  · cases h
    exact .inr ⟨their, rfl, htheir⟩
  split at h
  · cases h
    exact .inr ⟨our, rfl, rfl⟩
  split at h
  · rename_i entry hentry
    cases h
    exact .inr ⟨entry, rfl, mergeModeContentOrthogonalChange_name hentry⟩
  split at h
  · obtain ⟨baseSubtree, _, h⟩ := bind_eq_ok.1 h
    exact mergeSubtrees_pushes h
  · exact mergeSubtrees_pushes h
  · obtain ⟨merged, _, h⟩ := bind_eq_ok.1 h
    obtain ⟨e, he, h⟩ := bind_eq_ok.1 h
    cases h
    exact .inr ⟨e, rfl, (entryOr_withChecked he).1⟩
  · exact conflictEntry_pushes h

theorem mergeEntry_pushes (hour : ∀ e, our = some e → e.name = name)
    (htheir : ∀ e, their = some e → e.name = name)
    (h : mergeEntry env recurse base our their path = .ok pushed) : PushesOnly name pushed := by
  unfold mergeEntry at h
  split at h
  · cases h
    exact .inr ⟨_, rfl, htheir _ rfl⟩
  · cases h
    exact .inr ⟨_, rfl, hour _ rfl⟩
  · rw [← htheir _ rfl]
    exact mergeDeleteChangedEntry_pushes h
  · rw [← hour _ rfl]
    exact mergeDeleteChangedEntry_pushes h
  · rw [← hour _ rfl]
    exact mergeAddedEntries_pushes h
  · rw [← hour _ rfl]
    exact mergeChangedEntries_pushes ((htheir _ rfl).trans (hour _ rfl).symm) h
  · cases h
    exact .inl rfl
  · cases h
    exact .inl rfl

omit [DecidableEq H] in
theorem entryMap_valid (hvalid : tree.validate = .ok ())
    (h : (entryMap tree).lookup name = some e) : e.name = name ∧ validateName name = .ok () := by
  obtain ⟨hmem, rfl⟩ := (entryMap_lookup (Tree.validate_nodup hvalid)).1 h
  exact ⟨rfl, TreeEntry.validate_name ((Tree.validate_entries hvalid).1 e hmem)⟩

omit [DecidableEq H] in
theorem allNames_valid {baseTree ourTree theirTree : Tree H} (hbase : baseTree.validate = .ok ()) (hour : ourTree.validate = .ok ())
    (htheir : theirTree.validate = .ok ()) (h : name ∈ allNames baseTree ourTree theirTree) :
    validateName name = .ok () := by
  simp only [allNames, mem_dedup, mem_append] at h
  have hkey : ∀ tree : Tree H, tree.validate = .ok () → name ∈ (entryMap tree).keys →
      validateName name = .ok () := by
    intro tree hvalid hmem
    obtain ⟨e, he⟩ := isSome_iff_exists.1 (AList.lookup_isSome.2 (AList.mem_keys.2 hmem))
    exact (entryMap_valid hvalid he).2
  rcases h with (h | h) | h
  · exact hkey baseTree hbase h
  · exact hkey ourTree hour h
  · exact hkey theirTree htheir h

/-- One call of the recursive merge assembles a valid tree: each name is pushed once. -/
theorem threeWayMergeRecursive_valid (hbase : baseTree.validate = .ok ())
    (hour : ourTree.validate = .ok ()) (htheir : theirTree.validate = .ok ())
    (h : threeWayMergeRecursive env order fuel baseTree ourTree theirTree parent =
      .ok (tree, conflicts)) : tree.validate = .ok () := by
  cases fuel with
  | zero => cases h
  | succ fuel =>
    rw [threeWayMergeRecursive] at h
    obtain ⟨pushed, hpushed, h⟩ := bind_eq_ok.1 h
    cases h
    have hpushes : List.Forall₂ PushesOnly
        (order.visit (allNames baseTree ourTree theirTree)) pushed :=
      (mapM_ok_iff.1 hpushed).imp fun name p hp =>
        mergeEntry_pushes (fun e he => (entryMap_valid hour he).1)
          (fun e he => (entryMap_valid htheir he).1) hp
    have hsublist : ∀ {names : List String} {pushed : List (Pushed H)},
        List.Forall₂ PushesOnly names pushed →
          ((pushed.flatMap Prod.fst).map TreeEntry.name).Sublist names := by
      intro names pushed hall
      induction hall with
      | nil => exact .slnil
      | cons hp _ ih =>
        rw [flatMap_cons, map_append]
        rcases hp with hp | ⟨e, hp, rfl⟩
        · rw [hp]
          exact ih.cons _
        · rw [hp]
          exact ih.cons_cons _
    have hnames := hsublist hpushes
    have hperm := order.perm (allNames baseTree ourTree theirTree)
    rw [Tree.fromEntries_validate_iff]
    refine ⟨fun e he => ?_, hnames.nodup (hperm.nodup_iff.2 (nodup_dedup _))⟩
    exact allNames_valid hbase hour htheir
      (hperm.mem_iff.1 (hnames.subset (mem_map_of_mem he)))

def Subtree (env : MergeEnv H) (tree : Tree H) (name : String) (subtree : Tree H) : Prop :=
  ∃ e ∈ tree.entries, ∃ hash, e.name = name ∧ e.target = .tree hash ∧
    env.getTree hash = .ok (some subtree)

/-- The trees that the recursive merge assembles: that of the call itself, and those of the calls on
the directories of both sides. -/
inductive Assembled (env : MergeEnv H) (order : IterationOrder) :
    Nat → Tree H → Tree H → Tree H → String → Tree H → Prop
  | root : threeWayMergeRecursive env order fuel baseTree ourTree theirTree parent =
      .ok (tree, conflicts) → Assembled env order fuel baseTree ourTree theirTree parent tree
  | sub : (Subtree env baseTree name baseSubtree ∨ baseSubtree = Tree.new) →
      Subtree env ourTree name ourSubtree → Subtree env theirTree name theirSubtree →
      Assembled env order fuel baseSubtree ourSubtree theirSubtree (joinPath parent name) tree →
      Assembled env order (fuel + 1) baseTree ourTree theirTree parent tree

theorem Assembled.valid (hstore : StoredTreesValid env)
    (h : Assembled env order fuel baseTree ourTree theirTree parent tree)
    (hbase : baseTree.validate = .ok ()) (hour : ourTree.validate = .ok ())
    (htheir : theirTree.validate = .ok ()) : tree.validate = .ok () := by
  induction h with
  | root hrun => exact threeWayMergeRecursive_valid hbase hour htheir hrun
  | sub hb ho ht _ ih =>
    obtain ⟨_, _, _, _, _, hgetOur⟩ := ho
    obtain ⟨_, _, _, _, _, hgetTheir⟩ := ht
    refine ih ?_ (hstore _ _ hgetOur) (hstore _ _ hgetTheir)
    rcases hb with ⟨_, _, _, _, _, hgetBase⟩ | rfl
    · exact hstore _ _ hgetBase
    · rfl

end RecursiveMerge

section Validity
variable [DecidableEq H] {env : MergeEnv H}

/-- Every tree that the recursive path assembles is valid. Every tree that the flat path rebuilds is
valid exactly when no path at which a leaf survives lies below another. -/
theorem mergedTrees_valid_iff (hstore : StoredTreesValid env) (hput : StoresValidTrees env)
    (hbase : baseTree.validate = .ok ()) (hour : ourTree.validate = .ok ())
    (htheir : theirTree.validate = .ok ()) :
    (∀ fuel order tree, Assembled env order fuel baseTree ourTree theirTree "" tree →
      tree.validate = .ok ()) ∧
    ∀ fuel order renames baseFlat ourFlat theirFlat st,
      flattenTree env fuel baseTree "" = .ok baseFlat →
      flattenTree env fuel ourTree "" = .ok ourFlat →
      flattenTree env fuel theirTree "" = .ok theirFlat →
      mergeLeafMaps env fuel order baseTree ourTree theirTree renames = .ok st →
      (SurvivorsPrefixFree baseFlat ourFlat theirFlat renames →
        ∀ tree, Rebuilt env st.mergedFlat tree → tree.validate = .ok ()) ∧
      (RepresentableRenames renames →
        ((∀ tree, Rebuilt env st.mergedFlat tree → tree.validate = .ok ()) ↔
          SurvivorsPrefixFree baseFlat ourFlat theirFlat renames)) := by
  refine ⟨fun fuel order tree h => h.valid hstore hbase hour htheir, ?_⟩
  intro fuel order renames baseFlat ourFlat theirFlat st hB hO hT hrun
  rw [mergeLeafMaps_eq hB hO hT] at hrun
  have hfree := prefixFree_mergedFlat_iff (flattenTree_leaves hO) (flattenTree_leaves hT) hrun
  have hsufficient : SurvivorsPrefixFree baseFlat ourFlat theirFlat renames →
      ∀ tree, Rebuilt env st.mergedFlat tree → tree.validate = .ok () :=
    fun hs tree htree => htree.valid (hfree.2 hs)
  refine ⟨hsufficient, fun hrenames => ⟨fun hvalid => ?_, hsufficient⟩⟩
  have hplaceable := mergedFlat_placeable
    (fun _ _ hl => (flattenTree_placeable hstore hbase hB hl).1)
    (fun _ _ hl => flattenTree_placeable hstore hour hO hl)
    (fun _ _ hl => flattenTree_placeable hstore htheir hT hl) hrenames hrun
  exact hfree.1 (prefixFree_of_rebuilt hput hplaceable hvalid)

end Validity

section FileAndDirectory

def sharedNameBase : Tree Bytes := fileTree [("r", [82])]

def sharedNameOurs : Tree Bytes := fileTree [("node", [65]), ("s", [82])]

def sharedNameSubtree : Tree Bytes := fileTree [("x", [66])]

def sharedNameTheirs : Tree Bytes :=
  Tree.fromEntries [{ name := "node", target := .tree (encodeTree sharedNameSubtree) },
    { name := "r", target := .blob [82] false }]

def sharedNameRenames : MergeRenameMap Bytes where
  ourRenames := AList.singleton "r" (exactRename "r" "s" [82])
  theirRenames := ∅

def sharedNameEnv : MergeEnv Bytes := treeEnv [sharedNameSubtree]

theorem treeEnv_storedTreesValid (h : ∀ tree ∈ stored, tree.validate = .ok ()) :
    StoredTreesValid (treeEnv stored) := by
  intro hash tree hget
  exact h tree (mem_of_find?_eq_some (Except.ok.inj hget))

theorem treeEnv_storesValidTrees (stored : List (Tree Bytes)) :
    StoresValidTrees (treeEnv stored) := by
  intro tree hvalid
  refine ⟨encodeTree tree, ?_⟩
  simp only [treeEnv, hvalid]

theorem sharedNameEnv_valid : StoredTreesValid sharedNameEnv :=
  treeEnv_storedTreesValid (by decide)

theorem sharedNameRenames_representable : RepresentableRenames sharedNameRenames := by
  intro entry hentry
  have hours : entry = ⟨"r", exactRename "r" "s" [82]⟩ :=
    hentry.elim mem_singleton.1 fun h => absurd h not_mem_nil
  subst hours
  exact ⟨.name (by decide), .inl rfl⟩

def sharedNameLeaves (tree : Tree Bytes) : FlatTree Bytes :=
  okOr ∅ (flattenTree sharedNameEnv 2 tree "")

def sharedNameRun : MergeState Bytes :=
  okOr {} (mergeLeafMaps sharedNameEnv 2 .asGiven sharedNameBase sharedNameOurs sharedNameTheirs
    sharedNameRenames)

theorem mergedTrees_valid_iff_sharedName :
    (∀ tree, Assembled sharedNameEnv .asGiven 2 sharedNameBase sharedNameOurs sharedNameTheirs ""
      tree → tree.validate = .ok ()) ∧
    ((∀ tree, Rebuilt sharedNameEnv sharedNameRun.mergedFlat tree → tree.validate = .ok ()) ↔
      SurvivorsPrefixFree (sharedNameLeaves sharedNameBase) (sharedNameLeaves sharedNameOurs)
        (sharedNameLeaves sharedNameTheirs) sharedNameRenames) := by
  obtain ⟨hrecursive, hflat⟩ := mergedTrees_valid_iff sharedNameEnv_valid
    (treeEnv_storesValidTrees _) (by decide : sharedNameBase.validate = .ok ())
    (by decide : sharedNameOurs.validate = .ok ()) (by decide : sharedNameTheirs.validate = .ok ())
  exact ⟨hrecursive 2 .asGiven, (hflat 2 .asGiven sharedNameRenames _ _ _ sharedNameRun rfl rfl rfl
    rfl).2 sharedNameRenames_representable⟩

/-- The merge records no conflict and returns a tree in which `node` is a file and a directory. -/
theorem mergeWithRenames_sharedName_invalid :
    StoredTreesValid sharedNameEnv ∧ sharedNameBase.validate = .ok () ∧
      sharedNameOurs.validate = .ok () ∧ sharedNameTheirs.validate = .ok () ∧
      ∃ tree, mergeWithRenames sharedNameEnv 2 .asGiven sharedNameBase sharedNameOurs
          sharedNameTheirs sharedNameRenames = .ok (tree, []) ∧
        tree.validate = .error (.invalidStructure "entries must be strictly sorted by name") := by
  refine ⟨sharedNameEnv_valid, by decide, by decide, by decide, ?_⟩
  refine ⟨Tree.fromEntries [{ name := "node", target := .blob [65] false },
    { name := "s", target := .blob [82] false },
    { name := "node", target := .tree (encodeTree sharedNameSubtree) }], ?_, ?_⟩
  · decide
  · decide

end FileAndDirectory

end Heddle.Merge
