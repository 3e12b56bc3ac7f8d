import Heddle.Merge.WithRenames

namespace Heddle.Merge
open Heddle.Lib List

structure Effect (H : Type) where
  writes : List (String × FlatLeaf H) := []
  conflicts : List String := []
  claims : List String := []

def MergeState.apply (st : MergeState H) (e : Effect H) : MergeState H where
  mergedFlat := insertAll st.mergedFlat e.writes
  conflicts := st.conflicts ++ e.conflicts
  claimedPaths := st.claimedPaths ++ e.claims

section Effects
variable [DecidableEq H] (env : MergeEnv H)

def renameEffect (opposingRenames : RenameMap H) (opposingFlat : FlatTree H) (basePath : String)
    (rename : RenameMatch H) : Except Failure (Effect H) :=
  match divergingRename opposingRenames basePath rename with
  | some opposingRename =>
    .ok {
      writes := [(rename.toPath, leafFromRename rename),
        (opposingRename.toPath, leafFromRename opposingRename)]
      conflicts := ["rename/rename conflict: " ++ basePath ++ " → " ++ rename.toPath ++ " vs " ++
        opposingRename.toPath]
      claims := [basePath, rename.toPath, opposingRename.toPath] }
  | none =>
    match opposingFlat.lookup basePath with
    | some opposing =>
      if opposing.hash ≠ rename.fromHash then do
        let (mergedHash, pushed) ← threeWayContentMerge env rename.fromHash rename.toHash
          opposing.hash rename.toPath
        let leaf := resolveMergedLeaf mergedHash (leafFromRename rename) opposing true
        return {
          writes := [(rename.toPath, leaf)]
          conflicts := pushed
          claims := [basePath, rename.toPath] }
      else
        let leaf := leafFromRename rename
        let executable := mergeExecutableValues rename.fromExecutable leaf.executable
          opposing.executable
        let leaf := if leaf.entryType = .blob then { leaf with executable } else leaf
        .ok { writes := [(rename.toPath, leaf)], claims := [basePath, rename.toPath] }
    | none =>
      .ok {
        writes := [(rename.toPath, leafFromRename rename)]
        conflicts := if basePath ∈ opposingRenames then []
          else ["rename/delete conflict: " ++ basePath ++ " renamed to " ++ rename.toPath ++
            " but deleted on other side"]
        claims := [basePath, rename.toPath] }

theorem applyRename_eq (opposingRenames : RenameMap H) (opposingFlat : FlatTree H)
    (st : MergeState H) (basePath : String) (rename : RenameMatch H) :
    applyRename env opposingRenames opposingFlat st basePath rename =
      (renameEffect env opposingRenames opposingFlat basePath rename).map st.apply := by
  unfold applyRename renameEffect
  cases divergingRename opposingRenames basePath rename with
  | some opposingRename => rfl
  | none =>
    cases opposingFlat.lookup basePath with
    | some opposing =>
      dsimp only
      split
      · cases threeWayContentMerge env rename.fromHash rename.toHash opposing.hash
          rename.toPath <;> rfl
      · simp only [Except.map, MergeState.apply, insertAll, foldl_cons, foldl_nil,
          append_nil]
    | none =>
      dsimp only
      split
      · simp only [Except.map, MergeState.apply, insertAll, foldl_cons, foldl_nil,
          append_nil]
      · rfl

/-- What one rename writes, claims and pushes. Past a divergence it writes its destination only. -/
theorem renameEffect_cases
    (h : renameEffect env opposingRenames opposingFlat basePath rename = .ok e) :
    (∃ opposing, divergingRename opposingRenames basePath rename = some opposing ∧
        e.writes = [(rename.toPath, leafFromRename rename),
          (opposing.toPath, leafFromRename opposing)] ∧
        e.conflicts ≠ [] ∧ e.claims = [basePath, rename.toPath, opposing.toPath]) ∨
      (divergingRename opposingRenames basePath rename = none ∧
        e.claims = [basePath, rename.toPath] ∧
        ((∃ opposing leaf pushed, opposingFlat.lookup basePath = some opposing ∧
            threeWayContentMerge env rename.fromHash rename.toHash opposing.hash rename.toPath =
              .ok (leaf.hash, pushed) ∧
            e.writes = [(rename.toPath, leaf)] ∧ e.conflicts = pushed) ∨
          (opposingFlat.lookup basePath = none ∧
            e.writes = [(rename.toPath, leafFromRename rename)] ∧
            (e.conflicts = [] ↔ basePath ∈ opposingRenames)))) := by
  unfold renameEffect at h
  cases hd : divergingRename opposingRenames basePath rename with
  | some opposing =>
    rw [hd] at h
    cases h
    exact .inl ⟨opposing, rfl, rfl, cons_ne_nil _ _, rfl⟩
  | none =>
    rw [hd] at h
    refine .inr ⟨rfl, ?_⟩
    cases hl : opposingFlat.lookup basePath with
    | some opposing =>
      rw [hl] at h
      dsimp only at h
      split at h
      · rw [bind_eq_ok] at h
        obtain ⟨⟨mergedHash, pushed⟩, hmerge, h⟩ := h
        cases h
        refine ⟨rfl, .inl ⟨opposing, _, pushed, rfl, ?_, rfl, rfl⟩⟩
        have hhash : (resolveMergedLeaf mergedHash (leafFromRename rename) opposing true).hash =
            mergedHash := by
          simp only [resolveMergedLeaf, FlatLeaf.blob]
          rfl
        rw [hhash, hmerge]
      · rename_i hsame
        cases h
        refine ⟨rfl, .inl ⟨opposing, _, [], rfl, ?_, rfl, rfl⟩⟩
        have hmerge : threeWayContentMerge env rename.fromHash rename.toHash opposing.hash
            rename.toPath = .ok (rename.toHash, []) := by
          rw [not_not.1 hsame]
          by_cases hto : rename.toHash = rename.fromHash
          · rw [threeWayContentMerge, if_pos hto]
          · rw [threeWayContentMerge, if_neg hto, if_neg hto, if_pos rfl]
        rw [hmerge]
        split <;> rfl
    | none =>
      rw [hl] at h
      cases h
      refine ⟨rfl, .inr ⟨rfl, rfl, ?_⟩⟩
      dsimp only
      split
      · exact ⟨fun _ => by assumption, fun _ => rfl⟩
      · exact ⟨fun h => absurd h (cons_ne_nil _ _), fun h => absurd h (by assumption)⟩

/-- The remaining paths are merged against the claims that the renames left. -/
def remainingEffect (claimed : List String) (baseFlat ourFlat theirFlat : FlatTree H)
    (path : String) : Except Failure (Effect H) :=
  if path ∈ claimed then .ok {}
  else do
    let (leaf, pushed) ← mergeLeaf env path (baseFlat.lookup path) (ourFlat.lookup path)
      (theirFlat.lookup path)
    return { writes := (leaf.map (fun leaf => (path, leaf))).toList, conflicts := pushed }

theorem remainingEffect_claims
    (h : remainingEffect env claimed baseFlat ourFlat theirFlat path = .ok e) : e.claims = [] := by
  unfold remainingEffect at h
  split at h
  · cases h
    rfl
  · rw [bind_eq_ok] at h
    obtain ⟨_, _, h⟩ := h
    cases h
    rfl

theorem mergeRemainingPath_eq (baseFlat ourFlat theirFlat : FlatTree H) (st : MergeState H)
    (path : String) :
    mergeRemainingPath env baseFlat ourFlat theirFlat st path =
      (remainingEffect env st.claimedPaths baseFlat ourFlat theirFlat path).map st.apply := by
  unfold mergeRemainingPath remainingEffect
  split
  · simp only [Except.map, MergeState.apply, insertAll, foldl_nil, append_nil]
  · cases mergeLeaf env path (baseFlat.lookup path) (ourFlat.lookup path)
        (theirFlat.lookup path) with
    | error e => rfl
    | ok r =>
      obtain ⟨leaf, pushed⟩ := r
      cases leaf <;> simp [bind, Except.bind, Except.map, MergeState.apply, insertAll]

end Effects

section Fold
variable (effect : α → Effect H)

def MergeState.applyAll (st : MergeState H) (xs : List α) : MergeState H :=
  xs.foldl (fun st x => st.apply (effect x)) st

section
variable (st : MergeState H) (xs : List α)

theorem applyAll_conflicts :
    (st.applyAll effect xs).conflicts = st.conflicts ++ xs.flatMap (fun x => (effect x).conflicts) := by
  unfold MergeState.applyAll
  induction xs generalizing st with
  | nil => exact (append_nil _).symm
  | cons x xs ih =>
    rw [foldl_cons, ih, flatMap_cons]
    exact append_assoc ..

theorem applyAll_claimedPaths :
    (st.applyAll effect xs).claimedPaths =
      st.claimedPaths ++ xs.flatMap (fun x => (effect x).claims) := by
  unfold MergeState.applyAll
  induction xs generalizing st with
  | nil => exact (append_nil _).symm
  | cons x xs ih =>
    rw [foldl_cons, ih, flatMap_cons]
    exact append_assoc ..

theorem applyAll_lookup (path : String) :
    (st.applyAll effect xs).mergedFlat.lookup path =
      (lastSome (fun x => writtenAt path (effect x).writes) xs).or (st.mergedFlat.lookup path) := by
  unfold MergeState.applyAll
  induction xs generalizing st with
  | nil => rfl
  | cons x xs ih =>
    rw [foldl_cons, ih, lastSome_cons, Option.or_assoc]
    congr 1
    exact lookup_insertAll _ _ _

end

end Fold

def MergeRenameMap.claimed (renames : MergeRenameMap H) : List String :=
  (renames.ourRenames.entries ++ renames.theirRenames.entries).flatMap
    (fun entry => [entry.1, entry.2.toPath])

section Run
variable [DecidableEq H] (env : MergeEnv H) (baseFlat ourFlat theirFlat : FlatTree H)
variable (renames : MergeRenameMap H)

abbrev RenameEntry (H : Type) := Sigma (fun _ : String => RenameMatch H)

def ourRenameEffect (entry : RenameEntry H) : Except Failure (Effect H) :=
  renameEffect env renames.theirRenames theirFlat entry.1 entry.2

def theirRenameEffect (entry : RenameEntry H) : Except Failure (Effect H) :=
  renameEffect env renames.ourRenames ourFlat entry.1 entry.2

def ourWrite (path : String) : Option (FlatLeaf H) :=
  lastSome (fun entry => writtenAt path (okOr {} (ourRenameEffect env theirFlat renames entry)).writes)
    renames.ourRenames.entries

def theirWrite (path : String) : Option (FlatLeaf H) :=
  lastSome (fun entry => writtenAt path (okOr {} (theirRenameEffect env ourFlat renames entry)).writes)
    renames.theirRenames.entries

def leafMerge (path : String) : Except Failure (Option (FlatLeaf H) × List String) :=
  mergeLeaf env path (baseFlat.lookup path) (ourFlat.lookup path) (theirFlat.lookup path)

structure PassesOk : Prop where
  ours : ∀ entry ∈ renames.ourRenames.entries,
    ∃ e, ourRenameEffect env theirFlat renames entry = .ok e
  theirs : ∀ entry ∈ renames.theirRenames.entries,
    ∃ e, theirRenameEffect env ourFlat renames entry = .ok e
  remaining : ∀ path ∈ allPaths baseFlat ourFlat theirFlat, path ∉ renames.claimed →
    ∃ r, leafMerge env baseFlat ourFlat theirFlat path = .ok r

/-- The effects of our pass, their pass and the remaining paths of a run that goes through. -/
def ourEffect (entry : RenameEntry H) : Effect H :=
  okOr {} (ourRenameEffect env theirFlat renames entry)

def theirEffect (entry : RenameEntry H) : Effect H :=
  okOr {} (theirRenameEffect env ourFlat renames entry)

def pathEffect (claimed : List String) (path : String) : Effect H :=
  okOr {} (remainingEffect env claimed baseFlat ourFlat theirFlat path)

def renamedState : MergeState H :=
  (MergeState.applyAll (ourEffect env theirFlat renames) {} renames.ourRenames.entries).applyAll
    (theirEffect env ourFlat renames) renames.theirRenames.entries

theorem applyRenames_ok_iff (activeRenames opposingRenames : RenameMap H)
    (opposingFlat : FlatTree H) (st st' : MergeState H) :
    applyRenames env activeRenames opposingRenames opposingFlat st = .ok st' ↔
      (∀ entry ∈ activeRenames.entries,
        ∃ e, renameEffect env opposingRenames opposingFlat entry.1 entry.2 = .ok e) ∧
      st' = st.applyAll
        (fun entry => okOr {} (renameEffect env opposingRenames opposingFlat entry.1 entry.2))
        activeRenames.entries := by
  unfold applyRenames MergeState.applyAll
  refine foldlM_ok_iff (P := fun _ => True) ({} : Effect H) (fun st entry _ => ?_)
    (fun _ _ _ _ _ => trivial) trivial
  exact applyRename_eq env opposingRenames opposingFlat st entry.1 entry.2

theorem mergeRemainingPaths_ok_iff (order : IterationOrder) (st st' : MergeState H) :
    mergeRemainingPaths env order baseFlat ourFlat theirFlat st = .ok st' ↔
      (∀ path ∈ allPaths baseFlat ourFlat theirFlat,
        ∃ e, remainingEffect env st.claimedPaths baseFlat ourFlat theirFlat path = .ok e) ∧
      st' = st.applyAll (pathEffect env baseFlat ourFlat theirFlat st.claimedPaths)
        (order.visit (allPaths baseFlat ourFlat theirFlat)) := by
  have hmem : ∀ path, path ∈ order.visit (allPaths baseFlat ourFlat theirFlat) ↔
      path ∈ allPaths baseFlat ourFlat theirFlat := fun _ => (order.perm _).mem_iff
  simp only [← hmem]
  unfold mergeRemainingPaths MergeState.applyAll pathEffect
  refine foldlM_ok_iff (P := fun s : MergeState H => s.claimedPaths = st.claimedPaths)
    ({} : Effect H) (fun s path hs => ?_) (fun s path e he hs => ?_) rfl
  · rw [mergeRemainingPath_eq, hs]
  · rw [MergeState.apply, remainingEffect_claims env he, append_nil, hs]

variable {env baseFlat ourFlat theirFlat renames}

omit [DecidableEq H] in
theorem mem_claimed : path ∈ renames.claimed ↔
    ∃ entry, (entry ∈ renames.ourRenames.entries ∨ entry ∈ renames.theirRenames.entries) ∧
      (path = entry.1 ∨ path = entry.2.toPath) := by
  simp only [MergeRenameMap.claimed, mem_flatMap, mem_append, mem_cons,
    not_mem_nil, or_false]

omit [DecidableEq H] in
theorem divergingRename_mem (h : divergingRename opposingRenames basePath rename = some opposing) :
    ⟨basePath, opposing⟩ ∈ opposingRenames.entries ∧ rename.toPath ≠ opposing.toPath := by
  rw [divergingRename, Option.filter_eq_some_iff] at h
  exact ⟨AList.mem_lookup_iff.1 h.1, by simpa using h.2⟩

section
variable (h : renameEffect env opposingRenames opposingFlat basePath rename = .ok e)
include h

theorem renameEffect_claims :
    basePath ∈ e.claims ∧ rename.toPath ∈ e.claims ∧
      ∀ path ∈ e.claims, path = basePath ∨ path = rename.toPath ∨
        ∃ opposing, ⟨basePath, opposing⟩ ∈ opposingRenames.entries ∧ path = opposing.toPath := by
  rcases renameEffect_cases env h with ⟨opposing, hd, _, _, hclaims⟩ | ⟨_, hclaims, _⟩
  · rw [hclaims]
    refine ⟨by simp, by simp, fun path hp => ?_⟩
    simp only [mem_cons, not_mem_nil, or_false] at hp
    rcases hp with hp | hp | hp
    · exact .inl hp
    · exact .inr (.inl hp)
    · exact .inr (.inr ⟨opposing, (divergingRename_mem hd).1, hp⟩)
  · rw [hclaims]
    refine ⟨by simp, by simp, fun path hp => ?_⟩
    simp only [mem_cons, not_mem_nil, or_false] at hp
    exact hp.imp id .inl

theorem renameEffect_writes (hw : writtenAt path e.writes ≠ none) : path ∈ e.claims := by
  have hkey : ∃ w ∈ e.writes, w.1 = path := by
    obtain ⟨leaf, hleaf⟩ := Option.ne_none_iff_exists'.1 hw
    obtain ⟨w, hmem, hif⟩ := exists_of_lastSome hleaf
    exact ⟨w, hmem, by_contra fun hne => by rw [if_neg hne] at hif; cases hif⟩
  obtain ⟨w, hmem, rfl⟩ := hkey
  rcases renameEffect_cases env h with
    ⟨opposing, _, hwrites, _, hclaims⟩ | ⟨_, hclaims, ⟨_, _, _, _, _, hwrites, _⟩ | ⟨_, hwrites, _⟩⟩
  all_goals
    rw [hwrites] at hmem
    rw [hclaims]
    simp only [mem_cons, not_mem_nil, or_false] at hmem
  · rcases hmem with rfl | rfl <;> simp
  · rw [hmem]
    simp
  · rw [hmem]
    simp

end

theorem renamedState_claimedPaths
    (hours : ∀ entry ∈ renames.ourRenames.entries,
      ∃ e, ourRenameEffect env theirFlat renames entry = .ok e)
    (htheirs : ∀ entry ∈ renames.theirRenames.entries,
      ∃ e, theirRenameEffect env ourFlat renames entry = .ok e) :
    path ∈ (renamedState env ourFlat theirFlat renames).claimedPaths ↔ path ∈ renames.claimed := by
  rw [renamedState, applyAll_claimedPaths, applyAll_claimedPaths, mem_claimed]
  simp only [nil_append, mem_append, mem_flatMap]
  constructor
  · rintro (⟨entry, hmem, hp⟩ | ⟨entry, hmem, hp⟩)
    · obtain ⟨e, he⟩ := hours entry hmem
      rw [ourEffect, he] at hp
      rcases (renameEffect_claims he).2.2 path hp with hp | hp | ⟨opposing, hopp, hp⟩
      · exact ⟨entry, .inl hmem, .inl hp⟩
      · exact ⟨entry, .inl hmem, .inr hp⟩
      · exact ⟨_, .inr hopp, .inr hp⟩
    · obtain ⟨e, he⟩ := htheirs entry hmem
      rw [theirEffect, he] at hp
      rcases (renameEffect_claims he).2.2 path hp with hp | hp | ⟨opposing, hopp, hp⟩
      · exact ⟨entry, .inr hmem, .inl hp⟩
      · exact ⟨entry, .inr hmem, .inr hp⟩
      · exact ⟨_, .inl hopp, .inr hp⟩
  · rintro ⟨entry, hmem | hmem, hp⟩
    · obtain ⟨e, he⟩ := hours entry hmem
      obtain ⟨hsource, hdest, _⟩ := renameEffect_claims he
      refine .inl ⟨entry, hmem, ?_⟩
      rw [ourEffect, he]
      rcases hp with rfl | rfl
      · exact hsource
      · exact hdest
    · obtain ⟨e, he⟩ := htheirs entry hmem
      obtain ⟨hsource, hdest, _⟩ := renameEffect_claims he
      refine .inr ⟨entry, hmem, ?_⟩
      rw [theirEffect, he]
      rcases hp with rfl | rfl
      · exact hsource
      · exact hdest

omit [DecidableEq H] in
theorem mem_allPaths : path ∈ allPaths baseFlat ourFlat theirFlat ↔
    path ∈ baseFlat ∨ path ∈ ourFlat ∨ path ∈ theirFlat := by
  simp only [allPaths, mem_dedup, mem_append, AList.mem_keys, or_assoc]

theorem remainingEffect_ok_iff :
    (∃ e, remainingEffect env claimed baseFlat ourFlat theirFlat path = .ok e) ↔
      (path ∉ claimed → ∃ r, leafMerge env baseFlat ourFlat theirFlat path = .ok r) := by
  unfold remainingEffect leafMerge
  split
  · rename_i hc
    exact ⟨fun _ h => absurd hc h, fun _ => ⟨_, rfl⟩⟩
  · rename_i hc
    constructor
    · rintro ⟨e, he⟩ _
      obtain ⟨r, hr, _⟩ := bind_eq_ok.1 he
      exact ⟨r, hr⟩
    · intro h
      obtain ⟨r, hr⟩ := h hc
      exact ⟨_, by rw [hr]; rfl⟩

/-- A run goes through exactly when its content merges do; the three passes then apply their effects
in turn. -/
theorem mergeFlats_ok_iff (order : IterationOrder) (st : MergeState H) :
    mergeFlats env order baseFlat ourFlat theirFlat renames = .ok st ↔
      PassesOk env baseFlat ourFlat theirFlat renames ∧
        st = (renamedState env ourFlat theirFlat renames).applyAll
          (pathEffect env baseFlat ourFlat theirFlat
            (renamedState env ourFlat theirFlat renames).claimedPaths)
          (order.visit (allPaths baseFlat ourFlat theirFlat)) := by
  unfold mergeFlats
  simp only [bind_eq_ok, applyRenames_ok_iff, mergeRemainingPaths_ok_iff]
  have hstate : (MergeState.applyAll (fun entry => okOr {} (renameEffect env renames.theirRenames
        theirFlat entry.1 entry.2)) {} renames.ourRenames.entries).applyAll
      (fun entry => okOr {} (renameEffect env renames.ourRenames ourFlat entry.1 entry.2))
      renames.theirRenames.entries = renamedState env ourFlat theirFlat renames := rfl
  constructor
  · rintro ⟨st₁, ⟨hours, rfl⟩, st₂, ⟨htheirs, rfl⟩, hpaths, rfl⟩
    rw [hstate] at hpaths
    refine ⟨⟨hours, htheirs, fun path hp hc => ?_⟩, rfl⟩
    refine remainingEffect_ok_iff.1 (hpaths path hp) ?_
    rwa [renamedState_claimedPaths hours htheirs]
  · rintro ⟨⟨hours, htheirs, hpaths⟩, rfl⟩
    refine ⟨_, ⟨hours, rfl⟩, _, ⟨htheirs, rfl⟩, fun path hp => ?_, rfl⟩
    rw [hstate]
    refine remainingEffect_ok_iff.2 fun hc => hpaths path hp ?_
    rwa [renamedState_claimedPaths hours htheirs] at hc

theorem ourEffect_claimed (hok : PassesOk env baseFlat ourFlat theirFlat renames)
    (hmem : entry ∈ renames.ourRenames.entries)
    (hw : writtenAt path (ourEffect env theirFlat renames entry).writes ≠ none) :
    path ∈ renames.claimed := by
  obtain ⟨e, he⟩ := hok.ours entry hmem
  rw [ourEffect, he] at hw
  rcases (renameEffect_claims he).2.2 path (renameEffect_writes he hw) with
    hp | hp | ⟨opposing, hopp, hp⟩
  · exact mem_claimed.2 ⟨entry, .inl hmem, .inl hp⟩
  · exact mem_claimed.2 ⟨entry, .inl hmem, .inr hp⟩
  · exact mem_claimed.2 ⟨_, .inr hopp, .inr hp⟩

theorem theirEffect_claimed (hok : PassesOk env baseFlat ourFlat theirFlat renames)
    (hmem : entry ∈ renames.theirRenames.entries)
    (hw : writtenAt path (theirEffect env ourFlat renames entry).writes ≠ none) :
    path ∈ renames.claimed := by
  obtain ⟨e, he⟩ := hok.theirs entry hmem
  rw [theirEffect, he] at hw
  rcases (renameEffect_claims he).2.2 path (renameEffect_writes he hw) with
    hp | hp | ⟨opposing, hopp, hp⟩
  · exact mem_claimed.2 ⟨entry, .inr hmem, .inl hp⟩
  · exact mem_claimed.2 ⟨entry, .inr hmem, .inr hp⟩
  · exact mem_claimed.2 ⟨_, .inl hopp, .inr hp⟩

theorem mergeLeafMaps_eq (hB : flattenTree env fuel baseTree "" = .ok baseFlat)
    (hO : flattenTree env fuel ourTree "" = .ok ourFlat)
    (hT : flattenTree env fuel theirTree "" = .ok theirFlat) (order : IterationOrder) :
    mergeLeafMaps env fuel order baseTree ourTree theirTree renames =
      mergeFlats env order baseFlat ourFlat theirFlat renames := by
  rw [mergeLeafMaps, hB, hO, hT]
  rfl

def remainingLeaf (env : MergeEnv H) (baseFlat ourFlat theirFlat : FlatTree H) (path : String) :
    Option (FlatLeaf H) :=
  (okOr (none, []) (leafMerge env baseFlat ourFlat theirFlat path)).1

theorem pathEffect_eq (hclaimed : path ∈ claimed ↔ path ∈ renames.claimed)
    (h : path ∉ renames.claimed → ∃ r, leafMerge env baseFlat ourFlat theirFlat path = .ok r) :
    pathEffect env baseFlat ourFlat theirFlat claimed path =
      if path ∈ renames.claimed then {} else
        { writes := ((remainingLeaf env baseFlat ourFlat theirFlat path).map
            (fun leaf => (path, leaf))).toList
          conflicts := (okOr (none, []) (leafMerge env baseFlat ourFlat theirFlat path)).2 } := by
  unfold pathEffect remainingEffect remainingLeaf
  by_cases hc : path ∈ renames.claimed
  · rw [if_pos hc, if_pos (hclaimed.2 hc)]
    rfl
  · obtain ⟨r, hr⟩ := h hc
    rw [if_neg hc, if_neg (fun h => hc (hclaimed.1 h)), hr]
    unfold leafMerge at hr
    rw [hr]
    rfl

omit [DecidableEq H] in
theorem writtenAt_singleton (path key : String) (leaf : FlatLeaf H) :
    writtenAt path [(key, leaf)] = if key = path then some leaf else none := by
  simp only [writtenAt, lastSome, foldl_cons, foldl_nil, Option.or_none]

section
variable (order : IterationOrder)
  (h : mergeFlats env order baseFlat ourFlat theirFlat renames = .ok st)
include h

/-- The merged map, path by path: their pass overwrites ours, and the rest is merged on its own. -/
theorem mergeFlats_lookup (path : String) :
    st.mergedFlat.lookup path =
      if path ∈ renames.claimed then
        (theirWrite env ourFlat renames path).or (ourWrite env theirFlat renames path)
      else remainingLeaf env baseFlat ourFlat theirFlat path := by
  obtain ⟨hok, rfl⟩ := (mergeFlats_ok_iff order st).1 h
  have hclaimed : ∀ p, p ∈ (renamedState env ourFlat theirFlat renames).claimedPaths ↔
      p ∈ renames.claimed := fun p => renamedState_claimedPaths hok.ours hok.theirs
  have hrenamed : (renamedState env ourFlat theirFlat renames).mergedFlat.lookup path =
      (theirWrite env ourFlat renames path).or (ourWrite env theirFlat renames path) := by
    rw [renamedState, applyAll_lookup, applyAll_lookup]
    simp only [AList.lookup_empty, Option.or_none]
    rfl
  rw [applyAll_lookup, hrenamed]
  have hother : ∀ p ∈ order.visit (allPaths baseFlat ourFlat theirFlat),
      writtenAt path (pathEffect env baseFlat ourFlat theirFlat
        (renamedState env ourFlat theirFlat renames).claimedPaths p).writes =
        if p = path ∧ p ∉ renames.claimed then remainingLeaf env baseFlat ourFlat theirFlat path
        else none := by
    intro p hp
    have hpmem := (order.perm _).mem_iff.1 hp
    rw [pathEffect_eq (hclaimed p) (hok.remaining p hpmem)]
    by_cases hc : p ∈ renames.claimed
    · rw [if_pos hc, if_neg (fun h => h.2 hc)]
      rfl
    · rw [if_neg hc]
      by_cases hpp : p = path
      · subst hpp
        rw [if_pos ⟨rfl, hc⟩]
        cases remainingLeaf env baseFlat ourFlat theirFlat p with
        | none => rfl
        | some leaf => exact (writtenAt_singleton _ _ _).trans (if_pos rfl)
      · rw [if_neg (fun h => hpp h.1)]
        cases remainingLeaf env baseFlat ourFlat theirFlat p with
        | none => rfl
        | some leaf => exact (writtenAt_singleton _ _ _).trans (if_neg hpp)
  by_cases hc : path ∈ renames.claimed
  · rw [if_pos hc, lastSome_eq_none_iff.2 fun p hp => ?_, Option.none_or]
    rw [hother p hp, if_neg]
    rintro ⟨rfl, hnc⟩
    exact hnc hc
  · rw [if_neg hc]
    have hnorename : (theirWrite env ourFlat renames path).or
        (ourWrite env theirFlat renames path) = none := by
      rw [Option.or_eq_none_iff]
      constructor
      · exact lastSome_eq_none_iff.2 fun entry hmem =>
          by_contra fun hw => hc (theirEffect_claimed hok hmem hw)
      · exact lastSome_eq_none_iff.2 fun entry hmem =>
          by_contra fun hw => hc (ourEffect_claimed hok hmem hw)
    rw [hnorename, Option.or_none]
    by_cases hall : path ∈ allPaths baseFlat ourFlat theirFlat
    · cases hr : remainingLeaf env baseFlat ourFlat theirFlat path with
      | none =>
        refine lastSome_eq_none_iff.2 fun p hp => ?_
        rw [hother p hp, hr, ite_self]
      | some leaf =>
        refine lastSome_eq_some ((order.perm _).mem_iff.2 hall) ?_ fun p hp c hpc => ?_
        · rw [hother path ((order.perm _).mem_iff.2 hall), if_pos ⟨rfl, hc⟩, hr]
        · rw [hother p hp, hr] at hpc
          split at hpc
          · exact (Option.some.inj hpc).symm
          · cases hpc
    · rw [mem_allPaths, not_or, not_or] at hall
      obtain ⟨hb, ho, ht⟩ := hall
      have hnone : remainingLeaf env baseFlat ourFlat theirFlat path = none := by
        rw [remainingLeaf, leafMerge, AList.lookup_eq_none.2 hb, AList.lookup_eq_none.2 ho,
          AList.lookup_eq_none.2 ht]
        rfl
      rw [hnone]
      refine lastSome_eq_none_iff.2 fun p hp => ?_
      rw [hother p hp, hnone, ite_self]

theorem mergeFlats_conflicts :
    st.conflicts =
      renames.ourRenames.entries.flatMap (fun entry => (ourEffect env theirFlat renames entry).conflicts) ++
      renames.theirRenames.entries.flatMap
        (fun entry => (theirEffect env ourFlat renames entry).conflicts) ++
      (order.visit (allPaths baseFlat ourFlat theirFlat)).flatMap (fun path =>
        if path ∈ renames.claimed then []
        else (okOr (none, []) (leafMerge env baseFlat ourFlat theirFlat path)).2) := by
  obtain ⟨hok, rfl⟩ := (mergeFlats_ok_iff order st).1 h
  rw [applyAll_conflicts, renamedState, applyAll_conflicts, applyAll_conflicts]
  congr 1
  refine flatMap_congr fun path hp => ?_
  have hclaimed : path ∈ (renamedState env ourFlat theirFlat renames).claimedPaths ↔
      path ∈ renames.claimed := renamedState_claimedPaths hok.ours hok.theirs
  have hpath := (order.perm _).mem_iff.1 hp
  rw [← renamedState, pathEffect_eq hclaimed (hok.remaining path hpath)]
  split <;> rfl

end

end Run

end Heddle.Merge
