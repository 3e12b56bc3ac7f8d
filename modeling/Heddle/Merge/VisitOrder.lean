import Heddle.Merge.RenamePasses

namespace Heddle.Merge
open Heddle.Lib

structure SameRenames (renames renames' : MergeRenameMap H) : Prop where
  ours : renames'.ourRenames.entries.Perm renames.ourRenames.entries
  theirs : renames'.theirRenames.entries.Perm renames.theirRenames.entries

structure SameResult (st st' : MergeState H) : Prop where
  leaves : ∀ path, st.mergedFlat.lookup path = st'.mergedFlat.lookup path
  conflicts : ∀ conflict, conflict ∈ st.conflicts ↔ conflict ∈ st'.conflicts

theorem SameRenames.refl (renames : MergeRenameMap H) : SameRenames renames renames :=
  ⟨.refl _, .refl _⟩

theorem SameRenames.claimed (h : SameRenames renames renames') :
    path ∈ renames'.claimed ↔ path ∈ renames.claimed := by
  simp only [mem_claimed, h.ours.mem_iff, h.theirs.mem_iff]

section VisitOrder
variable [DecidableEq H] {env : MergeEnv H} {baseFlat ourFlat theirFlat : FlatTree H}
variable {renames renames' : MergeRenameMap H}

theorem renameEffect_perm (h : opposingRenames'.entries.Perm opposingRenames.entries)
    (opposingFlat : FlatTree H) (basePath : String) (rename : RenameMatch H) :
    renameEffect env opposingRenames' opposingFlat basePath rename =
      renameEffect env opposingRenames opposingFlat basePath rename := by
  have hlookup : opposingRenames'.lookup basePath = opposingRenames.lookup basePath :=
    AList.perm_lookup h
  have hmem : basePath ∈ opposingRenames' ↔ basePath ∈ opposingRenames := by
    rw [← AList.lookup_isSome, ← AList.lookup_isSome, hlookup]
  simp only [renameEffect, divergingRename, hlookup, hmem]

theorem SameRenames.ourRenameEffect (h : SameRenames renames renames')
    (entry : RenameEntry H) :
    ourRenameEffect env theirFlat renames' entry = ourRenameEffect env theirFlat renames entry :=
  renameEffect_perm h.theirs _ _ _

theorem SameRenames.theirRenameEffect (h : SameRenames renames renames')
    (entry : RenameEntry H) :
    theirRenameEffect env ourFlat renames' entry = theirRenameEffect env ourFlat renames entry :=
  renameEffect_perm h.ours _ _ _

def ourWriter (env : MergeEnv H) (theirFlat : FlatTree H) (renames : MergeRenameMap H)
    (path : String) (entry : RenameEntry H) : Option (FlatLeaf H) :=
  writtenAt path (ourEffect env theirFlat renames entry).writes

def theirWriter (env : MergeEnv H) (ourFlat : FlatTree H) (renames : MergeRenameMap H)
    (path : String) (entry : RenameEntry H) : Option (FlatLeaf H) :=
  writtenAt path (theirEffect env ourFlat renames entry).writes

/-- Two renames of one pass that write the same path write the same leaf there. Our renames need to
agree only where no rename of theirs overwrites them. -/
def DeterminedWrites (env : MergeEnv H) (ourFlat theirFlat : FlatTree H)
    (renames : MergeRenameMap H) : Prop :=
  ∀ path, Agree (theirWriter env ourFlat renames path) renames.theirRenames.entries ∧
    ((∀ entry ∈ renames.theirRenames.entries, theirWriter env ourFlat renames path entry = none) →
      Agree (ourWriter env theirFlat renames path) renames.ourRenames.entries)

section
variable (h : SameRenames renames renames')
include h

theorem SameRenames.passesOk (hok : PassesOk env baseFlat ourFlat theirFlat renames) :
    PassesOk env baseFlat ourFlat theirFlat renames' where
  ours entry hmem := by
    rw [h.ourRenameEffect]
    exact hok.ours entry (h.ours.mem_iff.1 hmem)
  theirs entry hmem := by
    rw [h.theirRenameEffect]
    exact hok.theirs entry (h.theirs.mem_iff.1 hmem)
  remaining path hmem hc := hok.remaining path hmem (by rwa [h.claimed] at hc)

section
variable (hrun : mergeFlats env order baseFlat ourFlat theirFlat renames = .ok st)
include hrun

theorem mergeFlats_ok_perm (order' : IterationOrder) :
    ∃ st', mergeFlats env order' baseFlat ourFlat theirFlat renames' = .ok st' :=
  ⟨_, (mergeFlats_ok_iff order' _).2 ⟨h.passesOk ((mergeFlats_ok_iff order st).1 hrun).1, rfl⟩⟩

theorem mergeFlats_conflicts_perm
    (hrun' : mergeFlats env order' baseFlat ourFlat theirFlat renames' = .ok st')
    (conflict : String) : conflict ∈ st.conflicts ↔ conflict ∈ st'.conflicts := by
  rw [mergeFlats_conflicts order hrun, mergeFlats_conflicts order' hrun']
  simp only [List.mem_append, List.mem_flatMap, ourEffect, theirEffect, h.ourRenameEffect,
    h.theirRenameEffect, h.ours.mem_iff, h.theirs.mem_iff, (order.perm _).mem_iff,
    (order'.perm _).mem_iff, h.claimed]

end

theorem SameRenames.theirWrite (path : String) :
    theirWrite env ourFlat renames' path =
      lastSome (theirWriter env ourFlat renames path) renames'.theirRenames.entries := by
  unfold Merge.theirWrite theirWriter theirEffect
  simp only [h.theirRenameEffect]

theorem SameRenames.ourWrite (path : String) :
    ourWrite env theirFlat renames' path =
      lastSome (ourWriter env theirFlat renames path) renames'.ourRenames.entries := by
  unfold Merge.ourWrite ourWriter ourEffect
  simp only [h.ourRenameEffect]

theorem mergeFlats_lookup_perm (hdet : DeterminedWrites env ourFlat theirFlat renames)
    (hrun : mergeFlats env order baseFlat ourFlat theirFlat renames = .ok st)
    (hrun' : mergeFlats env order' baseFlat ourFlat theirFlat renames' = .ok st')
    (path : String) : st.mergedFlat.lookup path = st'.mergedFlat.lookup path := by
  rw [mergeFlats_lookup order hrun, mergeFlats_lookup order' hrun']
  by_cases hc : path ∈ renames.claimed
  · rw [if_pos hc, if_pos (h.claimed.2 hc)]
    obtain ⟨htheir, hour⟩ := hdet path
    have hT := lastSome_perm h.theirs htheir
    rw [h.theirWrite, h.ourWrite, (SameRenames.refl renames).theirWrite,
      (SameRenames.refl renames).ourWrite, hT]
    cases hlast : lastSome (theirWriter env ourFlat renames path) renames.theirRenames.entries with
    | some leaf => rfl
    | none =>
      rw [Option.none_or, Option.none_or, lastSome_perm h.ours (hour (lastSome_eq_none_iff.1 hlast))]
  · rw [if_neg hc, if_neg (fun hc' => hc (h.claimed.1 hc'))]

end

/-- Any two visiting orders of the renames and of the remaining paths give the same result. -/
def OrderIndependent (env : MergeEnv H) (fuel : Nat) (baseTree ourTree theirTree : Tree H)
    (renames : MergeRenameMap H) : Prop :=
  ∀ order order' renames₁ renames₂ st₁ st₂, SameRenames renames renames₁ →
    SameRenames renames renames₂ →
    mergeLeafMaps env fuel order baseTree ourTree theirTree renames₁ = .ok st₁ →
    mergeLeafMaps env fuel order' baseTree ourTree theirTree renames₂ = .ok st₂ →
    SameResult st₁ st₂

theorem determinedWrites_of_lookup (order : IterationOrder)
    (hrun : mergeFlats env order baseFlat ourFlat theirFlat renames = .ok st)
    (hind : ∀ renames' st', SameRenames renames renames' →
      mergeFlats env order baseFlat ourFlat theirFlat renames' = .ok st' → SameResult st st') :
    DeterminedWrites env ourFlat theirFlat renames := by
  have hwrites : ∀ renames' path, SameRenames renames renames' → path ∈ renames.claimed →
      (theirWrite env ourFlat renames path).or (ourWrite env theirFlat renames path) =
        (theirWrite env ourFlat renames' path).or (ourWrite env theirFlat renames' path) := by
    intro renames' path hsame hc
    obtain ⟨st', hrun'⟩ := mergeFlats_ok_perm hsame hrun order
    have hleaf := (hind renames' st' hsame hrun').leaves path
    rwa [mergeFlats_lookup order hrun, mergeFlats_lookup order hrun', if_pos hc,
      if_pos (hsame.claimed.2 hc)] at hleaf
  obtain ⟨hok, _⟩ := (mergeFlats_ok_iff order st).1 hrun
  have hclaimOurs : ∀ path, ∀ entry ∈ renames.ourRenames.entries,
      ourWriter env theirFlat renames path entry ≠ none → path ∈ renames.claimed :=
    fun _ _ hmem hw => ourEffect_claimed hok hmem hw
  have hclaimTheirs : ∀ path, ∀ entry ∈ renames.theirRenames.entries,
      theirWriter env ourFlat renames path entry ≠ none → path ∈ renames.claimed :=
    fun _ _ hmem hw => theirEffect_claimed hok hmem hw
  intro path
  constructor
  · refine agree_of_lastSome_perm fun ys hperm => ?_
    let renames' : MergeRenameMap H :=
      ⟨renames.ourRenames, ⟨ys, (List.perm_nodupKeys hperm).2 renames.theirRenames.nodupKeys⟩⟩
    have hsame : SameRenames renames renames' := ⟨.refl _, hperm⟩
    by_cases hnone : ∀ entry ∈ renames.theirRenames.entries,
        theirWriter env ourFlat renames path entry = none
    · rw [lastSome_eq_none_iff.2 hnone, lastSome_eq_none_iff]
      exact fun entry hmem => hnone entry (hperm.subset hmem)
    · push Not at hnone
      obtain ⟨entry, hmem, hw⟩ := hnone
      have heq := hwrites renames' path hsame (hclaimTheirs path entry hmem hw)
      have hsome : ∀ zs : List (RenameEntry H), entry ∈ zs →
          lastSome (theirWriter env ourFlat renames path) zs ≠ none :=
        fun zs hz hlast => hw (lastSome_eq_none_iff.1 hlast entry hz)
      rw [hsame.theirWrite, (SameRenames.refl renames).theirWrite,
        Option.or_of_isSome (Option.isSome_iff_ne_none.2 (hsome _ hmem)),
        Option.or_of_isSome (Option.isSome_iff_ne_none.2 (hsome _ (hperm.symm.subset hmem)))] at heq
      exact heq.symm
  · intro hnone
    refine agree_of_lastSome_perm fun ys hperm => ?_
    let renames' : MergeRenameMap H :=
      ⟨⟨ys, (List.perm_nodupKeys hperm).2 renames.ourRenames.nodupKeys⟩, renames.theirRenames⟩
    have hsame : SameRenames renames renames' := ⟨hperm, .refl _⟩
    by_cases hours : ∀ entry ∈ renames.ourRenames.entries,
        ourWriter env theirFlat renames path entry = none
    · rw [lastSome_eq_none_iff.2 hours, lastSome_eq_none_iff]
      exact fun entry hmem => hours entry (hperm.subset hmem)
    · push Not at hours
      obtain ⟨entry, hmem, hw⟩ := hours
      have heq := hwrites renames' path hsame (hclaimOurs path entry hmem hw)
      have htheirs : lastSome (theirWriter env ourFlat renames path)
          renames.theirRenames.entries = none := lastSome_eq_none_iff.2 hnone
      have htheirs' : theirWrite env ourFlat renames' path = none :=
        (hsame.theirWrite path).trans htheirs
      rw [htheirs', (SameRenames.refl renames).theirWrite, htheirs, Option.none_or, Option.none_or,
        hsame.ourWrite, (SameRenames.refl renames).ourWrite] at heq
      exact heq.symm

/-- The visiting order matters exactly when two renames of one pass write different leaves to one
path. -/
theorem mergeLeafMaps_order_iff (hB : flattenTree env fuel baseTree "" = .ok baseFlat)
    (hO : flattenTree env fuel ourTree "" = .ok ourFlat)
    (hT : flattenTree env fuel theirTree "" = .ok theirFlat)
    (hrun : mergeLeafMaps env fuel order baseTree ourTree theirTree renames = .ok st) :
    OrderIndependent env fuel baseTree ourTree theirTree renames ↔
      DeterminedWrites env ourFlat theirFlat renames := by
  rw [mergeLeafMaps_eq hB hO hT] at hrun
  constructor
  · intro hind
    refine determinedWrites_of_lookup order hrun fun renames' st' hsame hrun' => ?_
    exact hind order order renames renames' st st' (SameRenames.refl _) hsame
      (by rwa [mergeLeafMaps_eq hB hO hT]) (by rwa [mergeLeafMaps_eq hB hO hT])
  · intro hdet order₁ order₂ renames₁ renames₂ st₁ st₂ h₁ h₂ hrun₁ hrun₂
    rw [mergeLeafMaps_eq hB hO hT] at hrun₁ hrun₂
    constructor
    · intro path
      rw [← mergeFlats_lookup_perm h₁ hdet hrun hrun₁, mergeFlats_lookup_perm h₂ hdet hrun hrun₂]
    · intro conflict
      rw [← mergeFlats_conflicts_perm h₁ hrun hrun₁, mergeFlats_conflicts_perm h₂ hrun hrun₂]

end VisitOrder

section Crossed

def crossedBase : Tree Bytes := fileTree [("a", [65]), ("c", [67])]

def crossedOurs : Tree Bytes := fileTree [("x", [65]), ("c", [67])]

def crossedTheirs : Tree Bytes := fileTree [("y", [65]), ("x", [67])]

def crossedOurRenames : RenameMap Bytes := AList.singleton "a" (exactRename "a" "x" [65])

def crossedRenames : MergeRenameMap Bytes where
  ourRenames := crossedOurRenames
  theirRenames := (AList.singleton "a" (exactRename "a" "y" [65])).insert "c"
    (exactRename "c" "x" [67])

def crossedRenames' : MergeRenameMap Bytes where
  ourRenames := crossedOurRenames
  theirRenames := (AList.singleton "c" (exactRename "c" "x" [67])).insert "a"
    (exactRename "a" "y" [65])

def crossedRun (renames : MergeRenameMap Bytes) : Except Failure (MergeState Bytes) :=
  mergeLeafMaps blobEnv 1 .asGiven crossedBase crossedOurs crossedTheirs renames

theorem mergeLeafMaps_order_iff_crossed :
    OrderIndependent blobEnv 1 crossedBase crossedOurs crossedTheirs crossedRenames ↔
      DeterminedWrites blobEnv (okOr ∅ (flattenTree blobEnv 1 crossedOurs ""))
        (okOr ∅ (flattenTree blobEnv 1 crossedTheirs "")) crossedRenames := by
  have hB : flattenTree blobEnv 1 crossedBase "" =
      .ok (okOr ∅ (flattenTree blobEnv 1 crossedBase "")) := rfl
  have hrun : mergeLeafMaps blobEnv 1 .asGiven crossedBase crossedOurs crossedTheirs
      crossedRenames = .ok (okOr {} (crossedRun crossedRenames)) := rfl
  exact mergeLeafMaps_order_iff hB rfl rfl hrun

/-- `x` ends up with the content of `a` or with the content of `c`. -/
theorem mergeLeafMaps_order_matters :
    ¬ OrderIndependent blobEnv 1 crossedBase crossedOurs crossedTheirs crossedRenames := by
  intro hind
  have hsame : SameRenames crossedRenames crossedRenames' := ⟨by decide, by decide⟩
  have hresult := hind .asGiven .asGiven crossedRenames crossedRenames'
    (okOr {} (crossedRun crossedRenames)) (okOr {} (crossedRun crossedRenames'))
    (SameRenames.refl _) hsame rfl rfl
  have hx : (okOr {} (crossedRun crossedRenames)).mergedFlat.lookup "x" =
      some (.blob [65] false) := by decide
  have hx' : (okOr {} (crossedRun crossedRenames')).mergedFlat.lookup "x" =
      some (.blob [67] false) := by decide
  have hleaf := hresult.leaves "x"
  rw [hx, hx'] at hleaf
  exact absurd hleaf (by decide)

end Crossed

end Heddle.Merge
