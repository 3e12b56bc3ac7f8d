import Heddle.Worktree.Edits

namespace Heddle.Worktree
open Heddle.Lib List

section Below

def IsBelow (key path : String) : Prop :=
  if path = "" then key ≠ "" else ∃ rest, key = path ++ "/" ++ rest

theorem isDescendantPath_iff :
    isDescendantPath key path = true ↔ ∃ rest, key = path ++ "/" ++ rest := by
  unfold isDescendantPath
  rw [Option.any_eq_true]
  constructor
  · intro h
    obtain ⟨suffix, hsuffix, hfirst⟩ := h
    have hkey := dropPrefix?_eq_some_iff.1 hsuffix
    obtain ⟨start, hstart, heq⟩ := hkey
    cases suffix with
    | nil => simp at hfirst
    | cons c rest =>
      obtain rfl : c = '/' := by simpa using hfirst
      refine ⟨String.ofList rest, String.toList_inj.1 ?_⟩
      rw [hstart, beq_iff_eq.1 heq]
      simp only [String.toList_append, String.toList_ofList, append_assoc]
      rfl
  · intro h
    obtain ⟨rest, rfl⟩ := h
    refine ⟨'/' :: rest.toList, ?_, by simp⟩
    rw [dropPrefix?_eq_some_iff]
    refine ⟨path.toList, ?_, beq_self_eq_true _⟩
    rw [String.toList_append, String.toList_append, append_assoc]
    rfl

theorem prefix_of_between {start x rest : List Char} (h : ¬x < start) (h' : ¬start ++ rest < x) :
    start <+: x := by
  induction start generalizing x with
  | nil => exact nil_prefix
  | cons c start ih =>
    cases x with
    | nil => exact absurd (nil_lt_cons c start) h
    | cons d x =>
      rw [cons_append, cons_lt_cons_iff, not_or] at h'
      rw [cons_lt_cons_iff, not_or] at h
      obtain rfl : c = d := le_antisymm (not_lt.1 h.1) (not_lt.1 h'.1)
      exact (prefix_cons_inj c).2 (ih (fun hlt => h.2 ⟨rfl, hlt⟩) fun hlt => h'.2 ⟨rfl, hlt⟩)

theorem le_append (start rest : String) : start ≤ start ++ rest := by
  rw [← not_lt, String.lt_iff_toList_lt, String.toList_append]
  exact List.le_append_left

theorem append_of_between {start rest key : String} (h : start ≤ key) (h' : key ≤ start ++ rest) :
    ∃ rest', key = start ++ rest' := by
  rw [← not_lt, String.lt_iff_toList_lt] at h h'
  rw [String.toList_append] at h'
  obtain ⟨rest', hrest⟩ := prefix_of_between h h'
  refine ⟨String.ofList rest', String.toList_inj.1 ?_⟩
  rw [String.toList_append, String.toList_ofList, hrest]

end Below

section Ranges
variable {m : SortedMap String ν} {path : String}

theorem mem_rangeWhile : key ∈ rangeWhile m start p ↔ (m.get key).isSome ∧ start ≤ key ∧
    ∀ k, (m.get k).isSome → start ≤ k → k ≤ key → p k := by
  have hsorted : ((m.entries.map Prod.fst).filter (start ≤ ·)).Pairwise (· < ·) :=
    (pairwise_map.2 m.sorted).filter _
  unfold rangeWhile
  rw [mem_takeWhile_of_sorted hsorted]
  simp only [mem_filter, mem_keys, ← Option.isSome_iff_exists, decide_eq_true_eq, and_imp, and_assoc]

theorem get_removals (keys : List String) :
    (m.replay (keys.map fun key => (key, none))).get key = if key ∈ keys then none else m.get key := by
  rw [SortedMap.get_replay, SortedMap.lastEdit_removals]
  split <;> rfl

/-- A map lost the keys below `path`, and `path` itself when it is to go too, and nothing else. -/
def RemovesExactly (before after : SortedMap String ν) (path : String) (own : Bool) : Prop :=
  ∀ key value, after.get key = some value ↔
    before.get key = some value ∧ ¬(IsBelow key path ∨ own ∧ key = path)

/-- No key stands between `path` and the keys below it, as `path` extended by a byte that is smaller
than the separator does. -/
def Unbroken (m : SortedMap String ν) (path : String) : Prop :=
  path = "" ∨ ∀ sibling key, (m.get sibling).isSome → (m.get key).isSome → path < sibling →
    sibling < path ++ "/" → ¬IsBelow key path

theorem get_removePrefixedRange (start : String) :
    (removePrefixedRange m start).2.get key = some value ↔
      m.get key = some value ∧ ¬∃ rest, key = start ++ rest := by
  have hstarts (k : String) : start.toList.isPrefixOf k.toList = true ↔ ∃ rest, k = start ++ rest := by
    rw [List.isPrefixOf_iff_prefix]
    constructor
    · intro h
      obtain ⟨rest, hrest⟩ := h
      refine ⟨String.ofList rest, String.toList_inj.1 ?_⟩
      rw [String.toList_append, String.toList_ofList, hrest]
    · intro h
      obtain ⟨rest, rfl⟩ := h
      rw [String.toList_append]
      exact prefix_append ..
  have hmem : key ∈ rangeWhile m start (start.toList.isPrefixOf ·.toList) ↔
      (m.get key).isSome ∧ ∃ rest, key = start ++ rest := by
    rw [mem_rangeWhile]
    apply and_congr_right
    intro hkey
    constructor
    · intro h
      exact (hstarts key).1 (h.2 key hkey h.1 le_rfl)
    · intro h
      obtain ⟨rest, rfl⟩ := h
      exact ⟨le_append start rest, fun k _ hle hle' => (hstarts k).2 (append_of_between hle hle')⟩
  unfold removePrefixedRange
  simp only [get_removals]
  by_cases hin : ∃ rest, key = start ++ rest
  · split
    · simp only [reduceCtorEq, false_iff, not_and, not_not]
      exact fun _ => hin
    · rename_i hout
      rw [hmem, not_and_or, or_iff_left (not_not.2 hin), Option.not_isSome_iff_eq_none] at hout
      simp only [hout, reduceCtorEq, false_and]
  · rw [if_neg fun h => hin (hmem.1 h).2, and_iff_left hin]

theorem isBelow_iff (hpath : path ≠ "") : IsBelow key path ↔ ∃ rest, key = path ++ "/" ++ rest := by
  rw [IsBelow, if_neg hpath]

theorem removeDirectoryRange_exact_iff :
    RemovesExactly m (removeDirectoryRange m path).2 path true ↔ Unbroken m path := by
  unfold removeDirectoryRange
  by_cases hpath : path = ""
  · rw [if_pos hpath]
    refine ⟨fun _ => .inl hpath, fun _ key value => ?_⟩
    simp only [SortedMap.get_empty, reduceCtorEq, IsBelow, hpath, true_and, false_iff,
      not_and, not_not]
    exact fun _ => ne_or_eq key ""
  · rw [if_neg hpath]
    generalize hkeys : rangeWhile m path
      (fun candidate => candidate = path || isDescendantPath candidate path) = keys
    have hscan (key : String) : key ∈ keys ↔ (m.get key).isSome ∧ path ≤ key ∧
        ∀ k, (m.get k).isSome → path ≤ k → k ≤ key → k = path ∨ IsBelow k path := by
      rw [← hkeys, mem_rangeWhile]
      simp only [Bool.or_eq_true, decide_eq_true_eq, isDescendantPath_iff, isBelow_iff hpath]
    constructor
    · intro hexact
      refine .inr fun sibling key hsibling hkey hlow hhigh hbelow => ?_
      obtain ⟨value, hvalue⟩ := Option.isSome_iff_exists.1 hkey
      have hgone : key ∈ keys := by
        by_contra hkept
        have hget : (m.replay (keys.map fun key => (key, none))).get key = some value := by
          rw [get_removals, if_neg hkept, hvalue]
        exact ((hexact key value).1 hget).2 (.inl hbelow)
      obtain ⟨rest, rfl⟩ := (isBelow_iff hpath).1 hbelow
      have hle := hhigh.le.trans (le_append (path ++ "/") rest)
      rcases ((hscan _).1 hgone).2.2 sibling hsibling hlow.le hle with rfl | hsiblingBelow
      · exact lt_irrefl _ hlow
      · obtain ⟨rest', rfl⟩ := (isBelow_iff hpath).1 hsiblingBelow
        exact absurd (le_append (path ++ "/") rest') (not_le_of_gt hhigh)
    · intro hunbroken key value
      have hclear := hunbroken.resolve_left hpath
      have hmem : key ∈ keys ↔ (m.get key).isSome ∧ (IsBelow key path ∨ key = path) := by
        rw [hscan]
        apply and_congr_right
        intro hkey
        constructor
        · intro h
          exact (h.2 key hkey h.1 le_rfl).symm
        · intro h
          rcases h with hbelow | rfl
          · obtain ⟨rest, hrest⟩ := (isBelow_iff hpath).1 hbelow
            have hafter : path ++ "/" ≤ key := hrest ▸ le_append (path ++ "/") rest
            refine ⟨(le_append path "/").trans hafter, fun k hk hle hle' => ?_⟩
            rcases hle.eq_or_lt with heq | hlt
            · exact .inl heq.symm
            · apply Or.inr
              have hfrom : path ++ "/" ≤ k :=
                not_lt.1 fun hbetween => hclear k key hk hkey hlt hbetween hbelow
              exact (isBelow_iff hpath).2 (append_of_between hfrom (hrest ▸ hle'))
          · exact ⟨le_rfl, fun k _ hle hle' => .inl (le_antisymm hle' hle)⟩
      rw [get_removals]
      by_cases hgone : key ∈ keys
      · rw [if_pos hgone]
        simp only [reduceCtorEq, true_and, false_iff, not_and, not_not]
        exact fun _ => (hmem.1 hgone).2
      · rw [if_neg hgone, iff_self_and]
        intro hvalue hremoved
        exact hgone (hmem.2 ⟨hvalue ▸ rfl, by simpa using hremoved⟩)

end Ranges

inductive SubtreeRemoval where
  | pathAndDescendants
  | descendants
  | untrackedDirectoryDescendants
  | gitlinksAtOrBelow
  deriving DecidableEq

namespace SubtreeRemoval

def edit (path : String) : SubtreeRemoval → Edit
  | .pathAndDescendants => .removePathAndDescendants path
  | .descendants => .removeDescendants path
  | .untrackedDirectoryDescendants => .removeUntrackedDirectoryDescendants path
  | .gitlinksAtOrBelow => .removeGitlinksAtOrBelow path

/-- Whether a file at the path itself goes too. A directory at the path always does. -/
def removesFile : SubtreeRemoval → Bool
  | .pathAndDescendants => true
  | _ => false

/-- The subtree is gone from the maps that the operation covers, and all else is there. -/
def Exact (path : String) (before after : IndexMaps) (removal : SubtreeRemoval) : Prop :=
  match removal with
  | .untrackedDirectoryDescendants =>
    RemovesExactly before.untrackedDirectories after.untrackedDirectories path true ∧
      after = { before with untrackedDirectories := after.untrackedDirectories }
  | .gitlinksAtOrBelow =>
    RemovesExactly before.gitlinks after.gitlinks path true ∧
      after = { before with gitlinks := after.gitlinks }
  | _ =>
    RemovesExactly before.entries after.entries path removal.removesFile ∧
      RemovesExactly before.directories after.directories path true ∧
      RemovesExactly before.untrackedDirectories after.untrackedDirectories path true ∧
      after.gitlinks = before.gitlinks

/-- No scan stops early, and no file has the name of the root that is to stay. -/
def Clear (path : String) (maps : IndexMaps) (removal : SubtreeRemoval) : Prop :=
  match removal with
  | .untrackedDirectoryDescendants => Unbroken maps.untrackedDirectories path
  | .gitlinksAtOrBelow => True
  | _ => (path = "" → removal.removesFile ∨ maps.entries.get "" = none) ∧
      Unbroken maps.directories path ∧ Unbroken maps.untrackedDirectories path

end SubtreeRemoval

section Subtrees
variable {m : SortedMap String ν} {path : String}

/-- The scan over the keys that start with `path/` is exact, and the root's goes over all keys. -/
theorem removePrefixedRange_exact_iff (own : Bool) :
    RemovesExactly m (removePrefixedRange (if own then m.put path none else m)
      (descendantRangeStart path)).2 path own ↔ (path = "" → own ∨ m.get "" = none) := by
  have hput (key : String) (value : ν) : (if own then m.put path none else m).get key = some value ↔
      m.get key = some value ∧ ¬(own ∧ key = path) := by
    cases own with
    | false => simp
    | true =>
      rw [if_pos rfl, SortedMap.get_put]
      by_cases hkey : key = path
      · simp [hkey]
      · simp [hkey]
  unfold RemovesExactly
  simp only [get_removePrefixedRange, hput]
  by_cases hpath : path = ""
  · subst hpath
    have hall (key : String) : ∃ rest, key = descendantRangeStart "" ++ rest := ⟨key, by simp [descendantRangeStart]⟩
    simp only [hall, not_true_eq_false, and_false, false_iff, not_and, not_not, IsBelow, if_pos,
      forall_const]
    constructor
    · intro h
      cases hroot : m.get "" with
      | none => exact .inr rfl
      | some value => simpa using h "" value hroot
    · intro h key value hvalue
      by_cases hkey : key = ""
      · subst hkey
        exact .inr ⟨h.resolve_right (hvalue ▸ nofun), rfl⟩
      · exact .inl hkey
  · refine ⟨fun _ h => absurd h hpath, fun _ key value => ?_⟩
    rw [isBelow_iff hpath, descendantRangeStart, if_neg hpath, not_or, and_assoc, and_comm (a := ¬_)]

variable (index : WorktreeIndex)

theorem removeMatchingPaths_entries (removeFileAtPath : Bool) :
    (index.removeMatchingPaths path removeFileAtPath).entries =
      (removePrefixedRange (if removeFileAtPath then index.entries.put path none else index.entries)
        (descendantRangeStart path)).2 := by
  unfold WorktreeIndex.removeMatchingPaths
  cases removeFileAtPath with
  | false => rfl
  | true =>
    cases hget : index.entries.get path with
    | some entry => simp
    | none =>
      have hput := index.entries.put_get path
      rw [hget] at hput
      simp [hput]

/-- A subtree goes out exactly when no sibling stops the scan in front of it. The journal says in
any case what went. -/
theorem subtreeRemoval_exact_iff (index : WorktreeIndex) (path : String) (removal : SubtreeRemoval) :
    (removal.Exact path index.toIndexMaps (index.edit (removal.edit path)).toIndexMaps ∧
      Journaled index (index.edit (removal.edit path))) ↔ removal.Clear path index.toIndexMaps := by
  rw [and_iff_left (edit_journaled index _)]
  cases removal with
  | untrackedDirectoryDescendants =>
    exact (and_iff_left rfl).trans removeDirectoryRange_exact_iff
  | gitlinksAtOrBelow =>
    refine ⟨fun _ => trivial, fun _ => ⟨?_, rfl⟩⟩
    exact (removePrefixedRange_exact_iff true).2 fun _ => .inl rfl
  | pathAndDescendants =>
    refine and_congr ?_ (and_congr removeDirectoryRange_exact_iff
      ((and_iff_left rfl).trans removeDirectoryRange_exact_iff))
    exact (removeMatchingPaths_entries index true) ▸ removePrefixedRange_exact_iff true
  | descendants =>
    refine and_congr ?_ (and_congr removeDirectoryRange_exact_iff
      ((and_iff_left rfl).trans removeDirectoryRange_exact_iff))
    exact (removeMatchingPaths_entries index false) ▸ removePrefixedRange_exact_iff false

def siblingIndex : WorktreeIndex :=
  let directory : DirectoryCacheEntry := ⟨0, 0, 0, ⟨.replicate 32 0⟩, none⟩
  ((WorktreeIndex.new.insertDirectory "src" directory).insertDirectory "src-old" directory).insertDirectory
    "src/sub" directory

/-- The hyphen sorts before the separator, and the subdirectory stays. -/
theorem sibling_stops_removal :
    ¬(SubtreeRemoval.pathAndDescendants.Exact "src" siblingIndex.toIndexMaps
        (siblingIndex.edit (SubtreeRemoval.pathAndDescendants.edit "src")).toIndexMaps ∧
      Journaled siblingIndex (siblingIndex.edit (SubtreeRemoval.pathAndDescendants.edit "src"))) := by
  intro h
  have hexact := h.1.2.1
  have hunbroken : Unbroken siblingIndex.directories "src" := removeDirectoryRange_exact_iff.1 hexact
  refine hunbroken.resolve_left (by decide) "src-old" "src/sub" ?_ ?_ ?_ ?_ ?_
  · decide +kernel
  · decide +kernel
  · decide +kernel
  · decide +kernel
  · exact (isBelow_iff (by decide)).2 ⟨"sub", by decide⟩

end Subtrees

end Heddle.Worktree
