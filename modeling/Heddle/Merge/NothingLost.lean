import Heddle.Merge.RenamePasses

namespace Heddle.Merge
open Heddle.Lib Option List

/-- The renames that detection can report between the base and one side: from a regular file that the
side no longer has to one that the base does not have, one to one. -/
structure ValidRenames (baseFlat branchFlat : FlatTree H) (renames : RenameMap H) : Prop where
  fromPath : ∀ path rename, renames.lookup path = some rename → rename.fromPath = path
  source : ∀ path rename, renames.lookup path = some rename →
    baseFlat.lookup path = some (.blob rename.fromHash rename.fromExecutable) ∧
      branchFlat.lookup path = none
  dest : ∀ path rename, renames.lookup path = some rename →
    rename.toEntryType = .blob ∧ branchFlat.lookup rename.toPath = some (leafFromRename rename) ∧
      baseFlat.lookup rename.toPath = none
  injective : ∀ path path' rename rename', renames.lookup path = some rename →
    renames.lookup path' = some rename' → rename.toPath = rename'.toPath → path = path'

section NothingLost
variable [DecidableEq H] (env : MergeEnv H) (baseFlat ourFlat theirFlat : FlatTree H)
variable (renames : MergeRenameMap H)

/-- The three hashes that the merge combines at `path`: those of a rename to `path` and of the other
side's leaf at its source, or those of the three leaves at an unclaimed path. -/
inductive MergedInto (path : String) : H → H → H → Prop
  | ours {source rename opposing} (hr : renames.ourRenames.lookup source = some rename)
      (hp : rename.toPath = path) (ho : theirFlat.lookup source = some opposing) :
      MergedInto path rename.fromHash rename.toHash opposing.hash
  | theirs {source rename opposing} (hr : renames.theirRenames.lookup source = some rename)
      (hp : rename.toPath = path) (ho : ourFlat.lookup source = some opposing) :
      MergedInto path rename.fromHash rename.toHash opposing.hash
  | remaining {base our their} (hc : path ∉ renames.claimed)
      (hb : baseFlat.lookup path = some base) (ho : ourFlat.lookup path = some our)
      (ht : theirFlat.lookup path = some their) :
      MergedInto path base.hash our.hash their.hash

/-- The content of `leaf` is at `path` in the merged map, or went into the content merge whose result
is there, or the other side placed the same leaf there. -/
def Accounted (merged : FlatTree H) (path : String) (leaf : FlatLeaf H)
    (otherFlat : FlatTree H) : Prop :=
  (∃ m, merged.lookup path = some m ∧ m.hash = leaf.hash) ∨
    (∃ m base left right pushed, merged.lookup path = some m ∧
      MergedInto baseFlat ourFlat theirFlat renames path base left right ∧
      threeWayContentMerge env base left right path = .ok (m.hash, pushed) ∧
      (leaf.hash = left ∨ leaf.hash = right)) ∨
    otherFlat.lookup path = some leaf

def landing (opposingRenames : RenameMap H) (path : String) : String :=
  (opposingRenames.lookup path).elim path RenameMatch.toPath

structure NothingLost (merged : FlatTree H) : Prop where
  ours : ∀ path leaf, ourFlat.lookup path = some leaf → baseFlat.lookup path ≠ some leaf →
    Accounted env baseFlat ourFlat theirFlat renames merged (landing renames.theirRenames path) leaf
      theirFlat
  theirs : ∀ path leaf, theirFlat.lookup path = some leaf → baseFlat.lookup path ≠ some leaf →
    Accounted env baseFlat ourFlat theirFlat renames merged (landing renames.ourRenames path) leaf
      ourFlat

def Stores (opposingFlat : FlatTree H) (source : String) (rename : RenameMatch H) (hash : H) :
    Prop :=
  match opposingFlat.lookup source with
  | some opposing => ∃ pushed, threeWayContentMerge env rename.fromHash rename.toHash opposing.hash
      rename.toPath = .ok (hash, pushed)
  | none => hash = rename.toHash

def Keeps (opposingFlat : FlatTree H) (source : String) (rename : RenameMatch H) (hash : H) :
    Prop :=
  Stores env opposingFlat source rename hash ∨ hash = rename.toHash ∨
    ∃ opposing, opposingFlat.lookup source = some opposing ∧ hash = opposing.hash

/-- No rename destination swallows a leaf: where both sides have a leaf at the destination of a
rename, the content that does not stay is kept by the rename that does. -/
structure DestinationsKept : Prop where
  /-- Their leaf at the destination of a rename of ours only. -/
  addedByThem : ∀ source rename their, renames.ourRenames.lookup source = some rename →
    (∀ source' rename', renames.theirRenames.lookup source' = some rename' →
      rename'.toPath ≠ rename.toPath) →
    theirFlat.lookup rename.toPath = some their → Keeps env theirFlat source rename their.hash
  addedByUs : ∀ source rename our, renames.theirRenames.lookup source = some rename →
    (∀ source' rename', renames.ourRenames.lookup source' = some rename' →
      rename'.toPath ≠ rename.toPath) →
    ourFlat.lookup rename.toPath = some our → Keeps env ourFlat source rename our.hash
  /-- One source, renamed by both sides. -/
  sameSource : ∀ source rename rename', renames.ourRenames.lookup source = some rename →
    renames.theirRenames.lookup source = some rename' → rename.toHash = rename'.toHash
  /-- Two sources, renamed to one destination. Their rename is the one that stays. -/
  sameDest : ∀ source rename source' rename', renames.ourRenames.lookup source = some rename →
    renames.theirRenames.lookup source' = some rename' → rename.toPath = rename'.toPath →
    source ≠ source' →
    (∃ hash, Stores env theirFlat source rename hash ∧ Stores env ourFlat source' rename' hash) ∨
      (Keeps env ourFlat source' rename' rename.toHash ∧
        ∀ their, theirFlat.lookup source = some their → baseFlat.lookup source ≠ some their →
          Keeps env ourFlat source' rename' their.hash ∨
            ourFlat.lookup rename.toPath = some their)

structure CleanRun (merged : FlatTree H) : Prop where
  /-- Two renames of one source go to one destination. -/
  agree : ∀ source rename rename', renames.ourRenames.lookup source = some rename →
    renames.theirRenames.lookup source = some rename' → rename.toPath = rename'.toPath
  /-- A source that the other side deleted was renamed by it as well. -/
  ourSource : ∀ source rename, renames.ourRenames.lookup source = some rename →
    theirFlat.lookup source = none → ∃ rename', renames.theirRenames.lookup source = some rename'
  theirSource : ∀ source rename, renames.theirRenames.lookup source = some rename →
    ourFlat.lookup source = none → ∃ rename', renames.ourRenames.lookup source = some rename'
  theirs : ∀ source rename, renames.theirRenames.lookup source = some rename →
    ∃ m, merged.lookup rename.toPath = some m ∧ Stores env ourFlat source rename m.hash
  ours : ∀ source rename, renames.ourRenames.lookup source = some rename →
    (∀ source' rename', renames.theirRenames.lookup source' = some rename' →
      rename'.toPath ≠ rename.toPath) →
    ∃ m, merged.lookup rename.toPath = some m ∧ Stores env theirFlat source rename m.hash
  stores : ∀ source rename, renames.ourRenames.lookup source = some rename →
    ∃ hash, Stores env theirFlat source rename hash
  unclaimed : ∀ path, path ∉ renames.claimed →
    leafMerge env baseFlat ourFlat theirFlat path = .ok (merged.lookup path, []) ∨
      (baseFlat.lookup path = none ∧ ourFlat.lookup path = none ∧ theirFlat.lookup path = none)

variable {env baseFlat ourFlat theirFlat renames}

theorem Stores.unique {hash hash' : H} (h : Stores env opposingFlat source rename hash)
    (h' : Stores env opposingFlat source rename hash') : hash = hash' := by
  unfold Stores at h h'
  cases hl : opposingFlat.lookup source with
  | some opposing =>
    rw [hl] at h h'
    obtain ⟨_, h⟩ := h
    obtain ⟨_, h'⟩ := h'
    rw [h] at h'
    exact (Prod.mk.inj (Except.ok.inj h')).1
  | none =>
    rw [hl] at h h'
    exact h.trans h'.symm

theorem renameEffect_clean
    (h : renameEffect env opposingRenames opposingFlat source rename = .ok e)
    (hc : e.conflicts = []) :
    divergingRename opposingRenames source rename = none ∧
      (opposingFlat.lookup source = none → source ∈ opposingRenames) ∧
      ∃ leaf, e.writes = [(rename.toPath, leaf)] ∧
        Stores env opposingFlat source rename leaf.hash := by
  rcases renameEffect_cases env h with ⟨_, _, _, hne, _⟩ |
    ⟨hd, _, ⟨opposing, leaf, pushed, hl, hmerge, hw, _⟩ | ⟨hl, hw, hiff⟩⟩
  · exact absurd hc hne
  · refine ⟨hd, fun hnone => ?_, leaf, hw, ?_⟩
    · rw [hl] at hnone
      cases hnone
    · unfold Stores
      rw [hl]
      exact ⟨pushed, hmerge⟩
  · refine ⟨hd, fun _ => hiff.1 hc, leafFromRename rename, hw, ?_⟩
    unfold Stores
    rw [hl]
    rfl

omit [DecidableEq H] in
theorem divergingRename_none (h : divergingRename opposingRenames source rename = none)
    (ho : opposingRenames.lookup source = some opposing) : rename.toPath = opposing.toPath := by
  rw [divergingRename, ho] at h
  by_contra hne
  rw [filter_some_eq_none] at h
  exact h (by simpa using hne)

section
variable {active opposingRenames : RenameMap H}
  (hclean : ∀ source rename, active.lookup source = some rename → ∃ e, renameEffect env opposingRenames opposingFlat source rename = .ok e ∧ e.conflicts = [])
include hclean

/-- A pass of clean renames leaves at a destination what the one rename to it stores. -/
theorem lastSome_clean (hinj : ∀ source source' rename rename', active.lookup source = some rename →
      active.lookup source' = some rename' → rename.toPath = rename'.toPath → source = source')
    (hr : active.lookup source = some rename) :
    ∃ leaf, lastSome (fun entry : RenameEntry H => writtenAt rename.toPath (okOr {} (renameEffect env
        opposingRenames opposingFlat entry.1 entry.2)).writes) active.entries = some leaf ∧
      Stores env opposingFlat source rename leaf.hash := by
  obtain ⟨e, he, hc⟩ := hclean source rename hr
  obtain ⟨_, _, leaf, hw, hs⟩ := renameEffect_clean he hc
  refine ⟨leaf, lastSome_eq_some (AList.mem_lookup_iff.1 hr) ?_ fun entry hmem c hval => ?_, hs⟩
  · simp only [he, okOr, hw, writtenAt_singleton, ↓reduceIte]
  · have hr' : active.lookup entry.1 = some entry.2 := AList.mem_lookup_iff.2 hmem
    obtain ⟨e', he', hc'⟩ := hclean entry.1 entry.2 hr'
    obtain ⟨_, _, leaf', hw', _⟩ := renameEffect_clean he' hc'
    simp only [he', okOr, hw', writtenAt_singleton] at hval
    split at hval
    · rename_i hpath
      obtain rfl := hinj _ _ _ _ hr' hr hpath
      rw [hr] at hr'
      obtain rfl := some.inj hr'
      rw [he] at he'
      cases he'
      rw [hw] at hw'
      cases hw'
      exact (some.inj hval).symm
    · cases hval

theorem lastSome_clean_none
    (hnone : ∀ source rename, active.lookup source = some rename → rename.toPath ≠ path) :
    lastSome (fun entry : RenameEntry H => writtenAt path (okOr {} (renameEffect env opposingRenames
      opposingFlat entry.1 entry.2)).writes) active.entries = none := by
  refine lastSome_eq_none_iff.2 fun entry hmem => ?_
  have hr' : active.lookup entry.1 = some entry.2 := AList.mem_lookup_iff.2 hmem
  obtain ⟨e', he', hc'⟩ := hclean entry.1 entry.2 hr'
  obtain ⟨_, _, leaf', hw', _⟩ := renameEffect_clean he' hc'
  simp only [he', okOr, hw', writtenAt_singleton, if_neg (hnone _ _ hr')]

end

theorem cleanRun_of_mergeFlats (order : IterationOrder)
    (hvo : ValidRenames baseFlat ourFlat renames.ourRenames)
    (hvt : ValidRenames baseFlat theirFlat renames.theirRenames)
    (hrun : mergeFlats env order baseFlat ourFlat theirFlat renames = .ok st)
    (hclean : st.conflicts = []) :
    CleanRun env baseFlat ourFlat theirFlat renames st.mergedFlat := by
  obtain ⟨hok, _⟩ := (mergeFlats_ok_iff order st).1 hrun
  have hconf := mergeFlats_conflicts order hrun
  rw [hclean] at hconf
  have hconf := hconf.symm
  rw [append_eq_nil_iff, append_eq_nil_iff, flatMap_eq_nil_iff,
    flatMap_eq_nil_iff, flatMap_eq_nil_iff] at hconf
  obtain ⟨⟨hours, htheirs⟩, hpaths⟩ := hconf
  have hcleanOurs : ∀ source rename, renames.ourRenames.lookup source = some rename →
      ∃ e, renameEffect env renames.theirRenames theirFlat source rename = .ok e ∧
        e.conflicts = [] := by
    intro source rename hr
    obtain ⟨e, he⟩ := hok.ours ⟨source, rename⟩ (AList.mem_lookup_iff.1 hr)
    have := hours ⟨source, rename⟩ (AList.mem_lookup_iff.1 hr)
    rw [ourEffect, he] at this
    exact ⟨e, he, this⟩
  have hcleanTheirs : ∀ source rename, renames.theirRenames.lookup source = some rename →
      ∃ e, renameEffect env renames.ourRenames ourFlat source rename = .ok e ∧
        e.conflicts = [] := by
    intro source rename hr
    obtain ⟨e, he⟩ := hok.theirs ⟨source, rename⟩ (AList.mem_lookup_iff.1 hr)
    have := htheirs ⟨source, rename⟩ (AList.mem_lookup_iff.1 hr)
    rw [theirEffect, he] at this
    exact ⟨e, he, this⟩
  have hclaimedOurs : ∀ source rename, renames.ourRenames.lookup source = some rename →
      rename.toPath ∈ renames.claimed := fun source rename hr =>
    mem_claimed.2 ⟨⟨source, rename⟩, .inl (AList.mem_lookup_iff.1 hr), .inr rfl⟩
  have hclaimedTheirs : ∀ source rename, renames.theirRenames.lookup source = some rename →
      rename.toPath ∈ renames.claimed := fun source rename hr =>
    mem_claimed.2 ⟨⟨source, rename⟩, .inr (AList.mem_lookup_iff.1 hr), .inr rfl⟩
  refine ⟨?_, ?_, ?_, ?_, ?_, ?_, ?_⟩
  · intro source rename rename' hr hr'
    obtain ⟨e, he, hc⟩ := hcleanOurs source rename hr
    exact divergingRename_none (renameEffect_clean he hc).1 hr'
  · intro source rename hr hnone
    obtain ⟨e, he, hc⟩ := hcleanOurs source rename hr
    have hmem := (renameEffect_clean he hc).2.1 hnone
    exact isSome_iff_exists.1 (AList.lookup_isSome.2 hmem)
  · intro source rename hr hnone
    obtain ⟨e, he, hc⟩ := hcleanTheirs source rename hr
    have hmem := (renameEffect_clean he hc).2.1 hnone
    exact isSome_iff_exists.1 (AList.lookup_isSome.2 hmem)
  · intro source rename hr
    obtain ⟨leaf, hlast, hs⟩ := lastSome_clean hcleanTheirs hvt.injective hr
    refine ⟨leaf, ?_, hs⟩
    rw [mergeFlats_lookup order hrun, if_pos (hclaimedTheirs _ _ hr)]
    exact or_eq_some_iff.2 (.inl hlast)
  · intro source rename hr hnone
    obtain ⟨leaf, hlast, hs⟩ := lastSome_clean hcleanOurs hvo.injective hr
    refine ⟨leaf, ?_, hs⟩
    rw [mergeFlats_lookup order hrun, if_pos (hclaimedOurs _ _ hr)]
    exact or_eq_some_iff.2 (.inr ⟨lastSome_clean_none hcleanTheirs hnone, hlast⟩)
  · intro source rename hr
    obtain ⟨leaf, _, hs⟩ := lastSome_clean hcleanOurs hvo.injective hr
    exact ⟨leaf.hash, hs⟩
  · intro path hc
    by_cases hall : path ∈ allPaths baseFlat ourFlat theirFlat
    · left
      obtain ⟨r, hr⟩ := hok.remaining path hall hc
      have hnil := hpaths path ((order.perm _).mem_iff.2 hall)
      rw [if_neg hc, hr] at hnil
      rw [mergeFlats_lookup order hrun, if_neg hc, remainingLeaf, hr]
      obtain ⟨leaf, pushed⟩ := r
      obtain rfl : pushed = [] := hnil
      rfl
    · right
      rw [mem_allPaths, not_or, not_or] at hall
      exact ⟨AList.lookup_eq_none.2 hall.1, AList.lookup_eq_none.2 hall.2.1,
        AList.lookup_eq_none.2 hall.2.2⟩

theorem accounted_of_keeps_theirs
    (hr : renames.theirRenames.lookup source = some rename)
    (hm : merged.lookup rename.toPath = some m) (hs : Stores env ourFlat source rename m.hash)
    (hk : Keeps env ourFlat source rename leaf.hash) (otherFlat : FlatTree H) :
    Accounted env baseFlat ourFlat theirFlat renames merged rename.toPath leaf otherFlat := by
  rcases hk with hk | hk
  · exact .inl ⟨m, hm, hs.unique hk⟩
  · cases hl : ourFlat.lookup source with
    | none =>
      rw [Stores, hl] at hs
      rcases hk with hk | ⟨_, hopp, _⟩
      · exact .inl ⟨m, hm, hs.trans hk.symm⟩
      · rw [hl] at hopp
        cases hopp
    | some opposing =>
      rw [Stores, hl] at hs
      obtain ⟨pushed, hmerge⟩ := hs
      refine .inr (.inl ⟨m, _, _, _, pushed, hm, .theirs hr rfl hl, hmerge, ?_⟩)
      rcases hk with hk | ⟨opposing', hopp, hk⟩
      · exact .inl hk
      · rw [hl] at hopp
        cases hopp
        exact .inr hk

theorem accounted_of_keeps_ours
    (hr : renames.ourRenames.lookup source = some rename)
    (hm : merged.lookup rename.toPath = some m) (hs : Stores env theirFlat source rename m.hash)
    (hk : Keeps env theirFlat source rename leaf.hash) (otherFlat : FlatTree H) :
    Accounted env baseFlat ourFlat theirFlat renames merged rename.toPath leaf otherFlat := by
  rcases hk with hk | hk
  · exact .inl ⟨m, hm, hs.unique hk⟩
  · cases hl : theirFlat.lookup source with
    | none =>
      rw [Stores, hl] at hs
      rcases hk with hk | ⟨_, hopp, _⟩
      · exact .inl ⟨m, hm, hs.trans hk.symm⟩
      · rw [hl] at hopp
        cases hopp
    | some opposing =>
      rw [Stores, hl] at hs
      obtain ⟨pushed, hmerge⟩ := hs
      refine .inr (.inl ⟨m, _, _, _, pushed, hm, .ours hr rfl hl, hmerge, ?_⟩)
      rcases hk with hk | ⟨opposing', hopp, hk⟩
      · exact .inl hk
      · rw [hl] at hopp
        cases hopp
        exact .inr hk

/-- At a destination of theirs, the content of an accounted leaf is kept by their rename, or went
into a merge of ours with the same result, or is what the other side placed there. -/
theorem keeps_of_accounted_theirs (hvt : ValidRenames baseFlat theirFlat renames.theirRenames)
    (hr : renames.theirRenames.lookup source = some rename)
    (hm : merged.lookup rename.toPath = some m) (hs : Stores env ourFlat source rename m.hash)
    (h : Accounted env baseFlat ourFlat theirFlat renames merged rename.toPath leaf otherFlat) :
    Keeps env ourFlat source rename leaf.hash ∨
      (∃ source' rename' opposing, renames.ourRenames.lookup source' = some rename' ∧
        rename'.toPath = rename.toPath ∧ theirFlat.lookup source' = some opposing ∧
        Stores env theirFlat source' rename' m.hash) ∨
      otherFlat.lookup rename.toPath = some leaf := by
  rcases h with ⟨m', hm', hh⟩ | ⟨m', base, left, right, pushed, hm', hinto, hmerge, hside⟩ | h
  · rw [hm] at hm'
    cases hm'
    exact .inl (.inl (hh ▸ hs))
  · rw [hm] at hm'
    cases hm'
    generalize hpath : rename.toPath = path at hinto
    cases hinto with
    | ours hr' hp ho =>
      refine .inr (.inl ⟨_, _, _, hr', hp, ho, ?_⟩)
      rw [Stores, ho]
      exact ⟨pushed, by rw [hp, ← hpath]; exact hmerge⟩
    | theirs hr' hp ho =>
      obtain rfl := hvt.injective _ _ _ _ hr' hr (hp.trans hpath.symm)
      rw [hr] at hr'
      cases hr'
      exact .inl (.inr (hside.imp_right fun h => ⟨_, ho, h⟩))
    | remaining hc _ _ _ =>
      exact absurd (mem_claimed.2
        ⟨⟨source, rename⟩, .inr (AList.mem_lookup_iff.1 hr), .inr hpath.symm⟩) hc
  · exact .inr (.inr h)

theorem keeps_of_accounted_ours (hvo : ValidRenames baseFlat ourFlat renames.ourRenames)
    (hr : renames.ourRenames.lookup source = some rename)
    (hnone : ∀ source' rename', renames.theirRenames.lookup source' = some rename' →
      rename'.toPath ≠ rename.toPath)
    (hm : merged.lookup rename.toPath = some m) (hs : Stores env theirFlat source rename m.hash)
    (h : Accounted env baseFlat ourFlat theirFlat renames merged rename.toPath leaf otherFlat) :
    Keeps env theirFlat source rename leaf.hash ∨ otherFlat.lookup rename.toPath = some leaf := by
  rcases h with ⟨m', hm', hh⟩ | ⟨m', base, left, right, pushed, hm', hinto, _, hside⟩ | h
  · rw [hm] at hm'
    cases hm'
    exact .inl (.inl (hh ▸ hs))
  · generalize hpath : rename.toPath = path at hinto
    cases hinto with
    | ours hr' hp ho =>
      obtain rfl := hvo.injective _ _ _ _ hr' hr (hp.trans hpath.symm)
      rw [hr] at hr'
      cases hr'
      exact .inl (.inr (hside.imp_right fun h => ⟨_, ho, h⟩))
    | theirs hr' hp ho => exact absurd (hp.trans hpath.symm) (hnone _ _ hr')
    | remaining hc _ _ _ =>
      exact absurd (mem_claimed.2
        ⟨⟨source, rename⟩, .inl (AList.mem_lookup_iff.1 hr), .inr hpath.symm⟩) hc
  · exact .inr h

omit [DecidableEq H] in
theorem ValidRenames.landing_of_new (hv : ValidRenames baseFlat branchFlat opposingRenames)
    (hnew : baseFlat.lookup path = none) : landing opposingRenames path = path := by
  unfold landing
  cases hl : opposingRenames.lookup path with
  | none => rfl
  | some rename =>
    have hbase := (hv.source path rename hl).1
    rw [hnew] at hbase
    cases hbase

theorem landing_of_source (hl : AList.lookup path opposingRenames = some rename) :
    landing opposingRenames path = rename.toPath := by
  rw [landing, hl]
  rfl

theorem landing_of_none (hl : AList.lookup path opposingRenames = none) :
    landing opposingRenames path = path := by
  rw [landing, hl]
  rfl

theorem destinationsKept_of_nothingLost
    (hvo : ValidRenames baseFlat ourFlat renames.ourRenames)
    (hvt : ValidRenames baseFlat theirFlat renames.theirRenames)
    (hrun : CleanRun env baseFlat ourFlat theirFlat renames merged)
    (h : NothingLost env baseFlat ourFlat theirFlat renames merged) :
    DestinationsKept env baseFlat ourFlat theirFlat renames := by
  have hnew : ∀ {path leaf}, baseFlat.lookup path = none → baseFlat.lookup path ≠ some leaf :=
    fun hb hl => by rw [hb] at hl; cases hl
  constructor
  · intro source rename their hr hnone ht
    obtain ⟨_, hour, hbase⟩ := hvo.dest source rename hr
    obtain ⟨m, hm, hs⟩ := hrun.ours source rename hr hnone
    have hacc := h.theirs rename.toPath their ht (hnew hbase)
    rw [hvo.landing_of_new hbase] at hacc
    rcases keeps_of_accounted_ours hvo hr hnone hm hs hacc with hk | hk
    · exact hk
    · rw [hour] at hk
      cases hk
      exact .inr (.inl rfl)
  · intro source rename our hr hnone ho
    obtain ⟨_, htheir, hbase⟩ := hvt.dest source rename hr
    obtain ⟨m, hm, hs⟩ := hrun.theirs source rename hr
    have hacc := h.ours rename.toPath our ho (hnew hbase)
    rw [hvt.landing_of_new hbase] at hacc
    rcases keeps_of_accounted_theirs hvt hr hm hs hacc with hk | ⟨_, _, _, hr', hp, _⟩ | hk
    · exact hk
    · exact absurd hp (hnone _ _ hr')
    · rw [htheir] at hk
      cases hk
      exact .inr (.inl rfl)
  · intro source rename rename' hr hr'
    have hpath := hrun.agree source rename rename' hr hr'
    obtain ⟨_, hour, hbase⟩ := hvo.dest source rename hr
    obtain ⟨_, htheir, _⟩ := hvt.dest source rename' hr'
    obtain ⟨m, hm, hs⟩ := hrun.theirs source rename' hr'
    have hgone := (hvo.source source rename hr).2
    have hacc := h.ours rename.toPath (leafFromRename rename) hour (hnew hbase)
    rw [hvt.landing_of_new hbase, hpath] at hacc
    rcases keeps_of_accounted_theirs hvt hr' hm hs hacc with hk | ⟨s, r, opp, hr₂, hp, ho, _⟩ | hk
    · rcases hk with hk | hk | ⟨_, hopp, _⟩
      · rw [Stores, hgone] at hk
        exact hk
      · exact hk
      · rw [hgone] at hopp
        cases hopp
    · obtain rfl := hvo.injective _ _ _ _ hr₂ hr (hp.trans hpath.symm)
      rw [(hvt.source _ _ hr').2] at ho
      cases ho
    · rw [htheir] at hk
      exact (congrArg FlatLeaf.hash (some.inj hk)).symm
  · intro source rename source' rename' hr hr' hpath hne
    obtain ⟨_, hour, hbase⟩ := hvo.dest source rename hr
    obtain ⟨_, htheir, _⟩ := hvt.dest source' rename' hr'
    obtain ⟨m, hm, hs⟩ := hrun.theirs source' rename' hr'
    have hkeep : ∀ leaf otherFlat,
        Accounted env baseFlat ourFlat theirFlat renames merged rename'.toPath leaf otherFlat →
        (∃ hash, Stores env theirFlat source rename hash ∧
          Stores env ourFlat source' rename' hash) ∨
        Keeps env ourFlat source' rename' leaf.hash ∨
        otherFlat.lookup rename'.toPath = some leaf := by
      intro leaf otherFlat hacc
      rcases keeps_of_accounted_theirs hvt hr' hm hs hacc with hk | ⟨s, r, _, hr₂, hp, _, hst⟩ | hk
      · exact .inr (.inl hk)
      · obtain rfl := hvo.injective _ _ _ _ hr₂ hr (hp.trans hpath.symm)
        rw [hr] at hr₂
        cases hr₂
        exact .inl ⟨m.hash, hst, hs⟩
      · exact .inr (.inr hk)
    have hacc := h.ours rename.toPath (leafFromRename rename) hour (hnew hbase)
    rw [hvt.landing_of_new hbase, hpath] at hacc
    rcases hkeep _ _ hacc with hsame | hk
    · exact .inl hsame
    · have hk' : Keeps env ourFlat source' rename' rename.toHash := by
        rcases hk with hk | hk
        · exact hk
        · rw [htheir] at hk
          exact .inr (.inl (congrArg FlatLeaf.hash (some.inj hk)).symm)
      by_cases hsame : ∃ hash, Stores env theirFlat source rename hash ∧
          Stores env ourFlat source' rename' hash
      · exact .inl hsame
      · refine .inr ⟨hk', fun their ht hchanged => ?_⟩
        have hacc' := h.theirs source their ht hchanged
        rw [landing_of_source hr, hpath] at hacc'
        rw [hpath]
        exact (hkeep _ _ hacc').resolve_left hsame

theorem accounted_of_unclaimed (hcf : CollisionFree env [baseFlat, ourFlat, theirFlat])
    (hB : FlatTree.Leaves env baseFlat)
    (hO : FlatTree.Leaves env ourFlat) (hT : FlatTree.Leaves env theirFlat)
    (hrun : CleanRun env baseFlat ourFlat theirFlat renames merged)
    (hc : path ∉ renames.claimed) :
    (∀ leaf, ourFlat.lookup path = some leaf → baseFlat.lookup path ≠ some leaf →
      Accounted env baseFlat ourFlat theirFlat renames merged path leaf theirFlat) ∧
    (∀ leaf, theirFlat.lookup path = some leaf → baseFlat.lookup path ≠ some leaf →
      Accounted env baseFlat ourFlat theirFlat renames merged path leaf ourFlat) := by
  rcases hrun.unclaimed path hc with hmerge | ⟨_, ho, ht⟩
  · unfold leafMerge at hmerge
    cases hb : baseFlat.lookup path with
    | none =>
      cases ho : ourFlat.lookup path with
      | none =>
        refine ⟨(fun leaf hl => by cases hl), fun leaf ht _ => ?_⟩
        rw [hb, ho, ht] at hmerge
        obtain ⟨hm, _⟩ := Prod.mk.inj (Except.ok.inj hmerge)
        exact .inl ⟨leaf, hm.symm, rfl⟩
      | some our =>
        cases ht : theirFlat.lookup path with
        | none =>
          refine ⟨fun leaf hl _ => ?_, (fun leaf hl => by cases hl)⟩
          obtain rfl := some.inj hl
          rw [hb, ho, ht] at hmerge
          obtain ⟨hm, _⟩ := Prod.mk.inj (Except.ok.inj hmerge)
          exact .inl ⟨our, hm.symm, rfl⟩
        | some their =>
          rw [hb, ho, ht] at hmerge
          obtain ⟨m, hm, hour, htheir⟩ := mergeAdded_clean hmerge
          constructor
          · intro leaf hl _
            obtain rfl := some.inj hl
            exact .inl ⟨m, hm, hour⟩
          · intro leaf hl _
            obtain rfl := some.inj hl
            exact .inl ⟨m, hm, htheir⟩
    | some base =>
      cases ho : ourFlat.lookup path with
      | none =>
        refine ⟨(fun leaf hl => by cases hl), fun leaf ht hchanged => ?_⟩
        rw [hb, ho, ht] at hmerge
        obtain ⟨heq, _⟩ := mergeModifyDelete_clean hcf (hB _ _ hb) (hT _ _ ht)
          ⟨_, .head _, _, hb⟩ ⟨_, .tail _ (.tail _ (.head _)), _, ht⟩ hmerge
        exact absurd (congrArg some heq.symm) hchanged
      | some our =>
        cases ht : theirFlat.lookup path with
        | none =>
          refine ⟨fun leaf hl hchanged => ?_, (fun leaf hl => by cases hl)⟩
          rw [hb, ho, ht] at hmerge
          obtain ⟨heq, _⟩ := mergeModifyDelete_clean hcf (hB _ _ hb) (hO _ _ ho)
            ⟨_, .head _, _, hb⟩ ⟨_, .tail _ (.head _), _, ho⟩ hmerge
          obtain rfl := some.inj hl
          exact absurd (congrArg some heq.symm) hchanged
        | some their =>
          rw [hb, ho, ht] at hmerge
          obtain ⟨m, pushed, hm, hthree⟩ := mergeChanged_clean hmerge
          have hinto := MergedInto.remaining hc hb ho ht
          constructor
          · intro leaf hl _
            obtain rfl := some.inj hl
            exact .inr (.inl ⟨m, _, _, _, pushed, hm, hinto, hthree, .inl rfl⟩)
          · intro leaf hl _
            obtain rfl := some.inj hl
            exact .inr (.inl ⟨m, _, _, _, pushed, hm, hinto, hthree, .inr rfl⟩)
  · refine ⟨fun leaf hl => ?_, fun leaf hl => ?_⟩
    · rw [ho] at hl
      cases hl
    · rw [ht] at hl
      cases hl

omit [DecidableEq H] in
theorem claimed_cases (hc : path ∈ renames.claimed) :
    (∃ rename, renames.ourRenames.lookup path = some rename) ∨
      (∃ rename, renames.theirRenames.lookup path = some rename) ∨
      (∃ source rename, renames.theirRenames.lookup source = some rename ∧
        rename.toPath = path) ∨
      (∃ source rename, renames.ourRenames.lookup source = some rename ∧ rename.toPath = path ∧
        ∀ source' rename', renames.theirRenames.lookup source' = some rename' →
          rename'.toPath ≠ path) := by
  obtain ⟨entry, hmem, hp⟩ := mem_claimed.1 hc
  by_cases htheirs : ∃ source rename, renames.theirRenames.lookup source = some rename ∧
      rename.toPath = path
  · exact .inr (.inr (.inl htheirs))
  · have hnone : ∀ source' rename', renames.theirRenames.lookup source' = some rename' →
        rename'.toPath ≠ path := fun s r hr hrp => htheirs ⟨s, r, hr, hrp⟩
    rcases hmem with hmem | hmem
    · have hr : renames.ourRenames.lookup entry.1 = some entry.2 := AList.mem_lookup_iff.2 hmem
      rcases hp with rfl | rfl
      · exact .inl ⟨_, hr⟩
      · exact .inr (.inr (.inr ⟨_, _, hr, rfl, hnone⟩))
    · have hr : renames.theirRenames.lookup entry.1 = some entry.2 := AList.mem_lookup_iff.2 hmem
      rcases hp with rfl | rfl
      · exact .inr (.inl ⟨_, hr⟩)
      · exact absurd rfl (hnone _ _ hr)

theorem nothingLost_of_destinationsKept (hcf : CollisionFree env [baseFlat, ourFlat, theirFlat])
    (hB : FlatTree.Leaves env baseFlat) (hO : FlatTree.Leaves env ourFlat)
    (hT : FlatTree.Leaves env theirFlat)
    (hvo : ValidRenames baseFlat ourFlat renames.ourRenames)
    (hvt : ValidRenames baseFlat theirFlat renames.theirRenames)
    (hrun : CleanRun env baseFlat ourFlat theirFlat renames merged)
    (h : DestinationsKept env baseFlat ourFlat theirFlat renames) :
    NothingLost env baseFlat ourFlat theirFlat renames merged := by
  constructor
  · intro path leaf ho hchanged
    cases hl : renames.theirRenames.lookup path with
    | some rename =>
      obtain ⟨m, hm, hs⟩ := hrun.theirs path rename hl
      rw [landing_of_source hl]
      exact accounted_of_keeps_theirs hl hm hs (.inr (.inr ⟨leaf, ho, rfl⟩)) theirFlat
    | none =>
      rw [landing_of_none hl]
      by_cases hc : path ∈ renames.claimed
      · rcases claimed_cases hc with ⟨rename, hr⟩ | ⟨rename, hr⟩ | ⟨source', rename', hr', rfl⟩ |
          ⟨source, rename, hr, rfl, hnone⟩
        · rw [(hvo.source path rename hr).2] at ho
          cases ho
        · rw [hl] at hr
          cases hr
        · obtain ⟨m, hm, hs⟩ := hrun.theirs source' rename' hr'
          by_cases hours : ∃ source rename, renames.ourRenames.lookup source = some rename ∧
              rename.toPath = rename'.toPath
          · obtain ⟨source, rename, hr, hp⟩ := hours
            have hleaf : leaf.hash = rename.toHash := by
              have hdest := (hvo.dest source rename hr).2.1
              rw [hp, ho] at hdest
              exact congrArg FlatLeaf.hash (some.inj hdest)
            by_cases hsource : source = source'
            · subst hsource
              have hhash := h.sameSource source rename rename' hr hr'
              exact accounted_of_keeps_theirs hr' hm hs (.inr (.inl (hleaf.trans hhash))) theirFlat
            · rcases h.sameDest source rename source' rename' hr hr' hp hsource with
                ⟨hash, hst, hst'⟩ | ⟨hk, _⟩
              · obtain rfl := hs.unique hst'
                cases ht : theirFlat.lookup source with
                | none =>
                  rw [Stores, ht] at hst
                  exact .inl ⟨m, hm, hst.trans hleaf.symm⟩
                | some opposing =>
                  rw [Stores, ht] at hst
                  obtain ⟨pushed, hmerge⟩ := hst
                  exact .inr (.inl ⟨m, _, _, _, pushed, hm, .ours hr hp ht, hp ▸ hmerge,
                    .inl hleaf⟩)
              · exact accounted_of_keeps_theirs hr' hm hs (hleaf ▸ hk) theirFlat
          · have hk := h.addedByUs source' rename' leaf hr'
              (fun s r hr hp => hours ⟨s, r, hr, hp⟩) ho
            exact accounted_of_keeps_theirs hr' hm hs hk theirFlat
        · obtain ⟨m, hm, hs⟩ := hrun.ours source rename hr hnone
          have hdest := (hvo.dest source rename hr).2.1
          rw [ho] at hdest
          have hleaf : leaf.hash = rename.toHash := congrArg FlatLeaf.hash (some.inj hdest)
          exact accounted_of_keeps_ours hr hm hs (.inr (.inl hleaf)) theirFlat
      · exact (accounted_of_unclaimed hcf hB hO hT hrun hc).1 leaf ho hchanged
  · intro path leaf ht hchanged
    cases hl : renames.ourRenames.lookup path with
    | some rename =>
      rw [landing_of_source hl]
      by_cases htheirs : ∃ source' rename', renames.theirRenames.lookup source' = some rename' ∧
          rename'.toPath = rename.toPath
      · obtain ⟨source', rename', hr', hp⟩ := htheirs
        obtain ⟨m, hm, hs⟩ := hrun.theirs source' rename' hr'
        rw [hp] at hm
        have hsource : path ≠ source' := by
          rintro rfl
          rw [(hvt.source path rename' hr').2] at ht
          cases ht
        rcases h.sameDest path rename source' rename' hl hr' hp.symm hsource with
          ⟨hash, hst, hst'⟩ | ⟨_, hk⟩
        · obtain rfl := hs.unique hst'
          rw [Stores, ht] at hst
          obtain ⟨pushed, hmerge⟩ := hst
          exact .inr (.inl ⟨m, _, _, _, pushed, hm, .ours hl rfl ht, hmerge, .inr rfl⟩)
        · rcases hk leaf ht hchanged with hk | hk
          · rw [← hp] at hm ⊢
            exact accounted_of_keeps_theirs hr' hm hs hk ourFlat
          · exact .inr (.inr hk)
      · obtain ⟨m, hm, hs⟩ := hrun.ours path rename hl fun s r hr hp => htheirs ⟨s, r, hr, hp⟩
        exact accounted_of_keeps_ours hl hm hs (.inr (.inr ⟨leaf, ht, rfl⟩)) ourFlat
    | none =>
      rw [landing_of_none hl]
      by_cases hc : path ∈ renames.claimed
      · rcases claimed_cases hc with ⟨rename, hr⟩ | ⟨rename, hr⟩ | ⟨source', rename', hr', rfl⟩ |
          ⟨source, rename, hr, rfl, hnone⟩
        · rw [hl] at hr
          cases hr
        · rw [(hvt.source path rename hr).2] at ht
          cases ht
        · obtain ⟨m, hm, hs⟩ := hrun.theirs source' rename' hr'
          have hdest := (hvt.dest source' rename' hr').2.1
          rw [ht] at hdest
          have hleaf : leaf.hash = rename'.toHash := congrArg FlatLeaf.hash (some.inj hdest)
          exact accounted_of_keeps_theirs hr' hm hs (.inr (.inl hleaf)) ourFlat
        · obtain ⟨m, hm, hs⟩ := hrun.ours source rename hr hnone
          have hk := h.addedByThem source rename leaf hr hnone ht
          exact accounted_of_keeps_ours hr hm hs hk ourFlat
      · exact (accounted_of_unclaimed hcf hB hO hT hrun hc).2 leaf ht hchanged

/-- A merge with renames that records no conflict loses nothing exactly when no rename destination
swallows a leaf. -/
theorem mergeLeafMaps_nothingLost_iff (hcf : CollisionFree env [baseFlat, ourFlat, theirFlat])
    (hB : flattenTree env fuel baseTree "" = .ok baseFlat)
    (hO : flattenTree env fuel ourTree "" = .ok ourFlat)
    (hT : flattenTree env fuel theirTree "" = .ok theirFlat)
    (hvo : ValidRenames baseFlat ourFlat renames.ourRenames)
    (hvt : ValidRenames baseFlat theirFlat renames.theirRenames)
    (hrun : mergeLeafMaps env fuel order baseTree ourTree theirTree renames = .ok st)
    (hclean : st.conflicts = []) :
    NothingLost env baseFlat ourFlat theirFlat renames st.mergedFlat ↔
      DestinationsKept env baseFlat ourFlat theirFlat renames := by
  rw [mergeLeafMaps_eq hB hO hT] at hrun
  have hrun' := cleanRun_of_mergeFlats order hvo hvt hrun hclean
  exact ⟨destinationsKept_of_nothingLost hvo hvt hrun',
    nothingLost_of_destinationsKept hcf (flattenTree_leaves hB) (flattenTree_leaves hO)
      (flattenTree_leaves hT) hvo hvt hrun'⟩

end NothingLost

section Swallowed

theorem blobEnv_collisionFree (flats : List (FlatTree Bytes)) : CollisionFree blobEnv flats := by
  have hne : ∀ x y : Bytes, utf8 "flat-gitlink" ++ x ≠ utf8 "flat-spoollink" ++ y := by
    intro x y h
    have hprefix := prefix_of_prefix_length_le (prefix_append (utf8 "flat-gitlink") x)
      (h ▸ prefix_append (utf8 "flat-spoollink") y) (by decide)
    exact absurd hprefix (by decide)
  rintro _ ⟨_, link, _, _, rfl⟩ _ ⟨_, link', _, _, rfl⟩ h
  cases link with
  | gitlink target =>
    cases link' with
    | gitlink target' => exact Prod.ext rfl ((append_right_inj (utf8 "flat-gitlink")).1 h)
    | spoollink => exact (hne _ _ h).elim
  | spoollink spoolId stateId =>
    cases link' with
    | gitlink => exact (hne _ _ h.symm).elim
    | spoollink => exact Prod.ext rfl ((append_right_inj (utf8 "flat-spoollink")).1 h)

theorem validRenames_empty (baseFlat branchFlat : FlatTree H) :
    ValidRenames baseFlat branchFlat ∅ := by
  have hnone : ∀ path rename, (∅ : RenameMap H).lookup path = some rename → False := by
    intro path rename h
    rw [AList.lookup_empty] at h
    cases h
  exact ⟨fun p r h => (hnone p r h).elim, fun p r h => (hnone p r h).elim,
    fun p r h => (hnone p r h).elim, fun p _ r _ h => (hnone p r h).elim⟩

theorem validRenames_singleton (baseFlat branchFlat : FlatTree H) (rename : RenameMatch H)
    (hsource : baseFlat.lookup rename.fromPath =
      some (.blob rename.fromHash rename.fromExecutable))
    (hgone : branchFlat.lookup rename.fromPath = none) (htype : rename.toEntryType = .blob)
    (hdest : branchFlat.lookup rename.toPath = some (leafFromRename rename))
    (hnew : baseFlat.lookup rename.toPath = none) :
    ValidRenames baseFlat branchFlat (AList.singleton rename.fromPath rename) := by
  have hkey : ∀ path r, (AList.singleton rename.fromPath rename : RenameMap H).lookup path =
      some r → path = rename.fromPath ∧ r = rename := by
    intro path r h
    have hmem := AList.mem_lookup_iff.1 h
    obtain ⟨rfl, hr⟩ := Sigma.mk.inj (mem_singleton.1 hmem)
    exact ⟨rfl, eq_of_heq hr⟩
  constructor
  · intro path r h
    obtain ⟨rfl, rfl⟩ := hkey path r h
    rfl
  · intro path r h
    obtain ⟨rfl, rfl⟩ := hkey path r h
    exact ⟨hsource, hgone⟩
  · intro path r h
    obtain ⟨rfl, rfl⟩ := hkey path r h
    exact ⟨htype, hdest, hnew⟩
  · intro path path' r r' h h' _
    rw [(hkey path r h).1, (hkey path' r' h').1]

def swallowedBase : Tree Bytes := fileTree [("a", [65])]

def swallowedOurs : Tree Bytes := fileTree [("b", [65])]

def swallowedTheirs : Tree Bytes := fileTree [("a", [65]), ("b", [66])]

def swallowedRenames : MergeRenameMap Bytes where
  ourRenames := AList.singleton "a" (exactRename "a" "b" [65])
  theirRenames := ∅

def swallowedRun : MergeState Bytes :=
  okOr {} (mergeLeafMaps blobEnv 1 .asGiven swallowedBase swallowedOurs swallowedTheirs
    swallowedRenames)

def leavesOf (tree : Tree Bytes) : FlatTree Bytes := okOr ∅ (flattenTree blobEnv 1 tree "")

def submodule : TreeEntry Bytes := { name := "m", target := .gitlink (.sha1 (Vector.replicate 20 7)) }

def withSubmodule (tree : Tree Bytes) : Tree Bytes := Tree.fromEntries (submodule :: tree.entries)

def submoduleRun : MergeState Bytes :=
  okOr {} (mergeLeafMaps blobEnv 1 .asGiven (withSubmodule swallowedBase)
    (withSubmodule swallowedOurs) (withSubmodule swallowedTheirs) swallowedRenames)

theorem swallowedRenames_valid :
    ValidRenames (leavesOf swallowedBase) (leavesOf swallowedOurs) swallowedRenames.ourRenames ∧
      ValidRenames (leavesOf swallowedBase) (leavesOf swallowedTheirs)
        swallowedRenames.theirRenames :=
  ⟨validRenames_singleton (leavesOf swallowedBase) (leavesOf swallowedOurs)
      (exactRename "a" "b" [65]) (by decide) (by decide) (by decide) (by decide) (by decide),
    validRenames_empty _ _⟩

theorem mergeLeafMaps_nothingLost_iff_swallowed :
    NothingLost blobEnv (leavesOf (withSubmodule swallowedBase))
        (leavesOf (withSubmodule swallowedOurs)) (leavesOf (withSubmodule swallowedTheirs))
        swallowedRenames submoduleRun.mergedFlat ↔
      DestinationsKept blobEnv (leavesOf (withSubmodule swallowedBase))
        (leavesOf (withSubmodule swallowedOurs)) (leavesOf (withSubmodule swallowedTheirs))
        swallowedRenames := by
  have hours : ValidRenames (leavesOf (withSubmodule swallowedBase))
      (leavesOf (withSubmodule swallowedOurs)) swallowedRenames.ourRenames :=
    validRenames_singleton _ _ (exactRename "a" "b" [65]) (by decide) (by decide) (by decide)
      (by decide) (by decide)
  have hrun : mergeLeafMaps blobEnv 1 .asGiven (withSubmodule swallowedBase)
      (withSubmodule swallowedOurs) (withSubmodule swallowedTheirs) swallowedRenames =
        .ok submoduleRun := rfl
  exact mergeLeafMaps_nothingLost_iff (blobEnv_collisionFree _) rfl rfl rfl hours
    (validRenames_empty _ _) hrun (by decide)

/-- The merge finishes without a conflict, and their `b` is gone. -/
theorem mergeWithRenames_swallows :
    (ValidRenames (leavesOf swallowedBase) (leavesOf swallowedOurs) swallowedRenames.ourRenames ∧
      ValidRenames (leavesOf swallowedBase) (leavesOf swallowedTheirs)
        swallowedRenames.theirRenames) ∧
    mergeWithRenames blobEnv 1 .asGiven swallowedBase swallowedOurs swallowedTheirs
      swallowedRenames = .ok (fileTree [("b", [65])], []) ∧
    ¬ NothingLost blobEnv (leavesOf swallowedBase) (leavesOf swallowedOurs)
      (leavesOf swallowedTheirs) swallowedRenames swallowedRun.mergedFlat := by
  refine ⟨swallowedRenames_valid, by decide, fun h => ?_⟩
  have hrun : mergeFlats blobEnv .asGiven (leavesOf swallowedBase) (leavesOf swallowedOurs)
      (leavesOf swallowedTheirs) swallowedRenames = .ok swallowedRun := rfl
  have hclean := cleanRun_of_mergeFlats .asGiven swallowedRenames_valid.1 swallowedRenames_valid.2
    hrun (by decide)
  have hkept := destinationsKept_of_nothingLost swallowedRenames_valid.1 swallowedRenames_valid.2
    hclean h
  have hkeeps := hkept.addedByThem "a" (exactRename "a" "b" [65]) (.blob [66] false) (by decide)
    (fun _ _ hr => by cases hr) (by decide)
  have htheir : (leavesOf swallowedTheirs).lookup "a" = some (.blob [65] false) := by decide
  rcases hkeeps with hstores | hto | ⟨opposing, hopp, hhash⟩
  · rw [Stores, htheir] at hstores
    obtain ⟨pushed, hmerge⟩ := hstores
    cases hmerge
  · cases hto
  · rw [htheir] at hopp
    cases hopp
    cases hhash

end Swallowed

end Heddle.Merge
