import Heddle.Worktree.Interruption

namespace Heddle.Worktree
open Heddle.Lib

section Sessions

instance [LinearOrder κ] [DecidableEq ν] : DecidableEq (SortedMap κ ν) := fun m m' =>
  decidable_of_iff (m.entries = m'.entries) SortedMap.ext_iff.symm

deriving instance DecidableEq for IndexMaps

/-- The files, the index in memory, the maps of the last completed save and those of the saves that
were interrupted since. -/
structure Session where
  files : Files := {}
  index : Option WorktreeIndex := none
  completed : IndexMaps := {}
  interrupted : List IndexMaps := []

inductive Action where
  | edit (edit : Edit)
  | save (kind : SaveKind) (markClean : Bool)
  | interrupt (kind : SaveKind) (steps bytes : Nat)
  | restart (replayMs : Nat)

variable (env : IndexEnv)

/-- One action. An interrupted save whose maps a load has returned counts as completed. -/
def Session.step (s : Session) : Action → Session
  | .edit edit => { s with index := s.index.map (·.edit edit) }
  | .save kind markClean =>
    match kind.saved s.index with
    | none => s
    | some index =>
      match runScript (kind.script env index s.files) s.files with
      | (files, .ok ()) => ⟨files, kind.keeps markClean index, index.toIndexMaps, []⟩
      | (files, .error _) => ⟨files, none, s.completed, index.toIndexMaps :: s.interrupted⟩
  | .interrupt kind steps bytes =>
    match kind.saved s.index with
    | none => s
    | some index =>
      ⟨Worktree.interrupted (kind.script env index s.files) steps bytes s.files, none, s.completed,
        index.toIndexMaps :: s.interrupted⟩
  | .restart replayMs =>
    match loadProfiled env s.files replayMs with
    | .ok index => { s with
        index := some index
        completed :=
          if index.toIndexMaps ∈ s.interrupted then index.toIndexMaps else s.completed
        interrupted := [] }
    | .error _ => { s with index := some .new }

def Session.run (s : Session) (actions : List Action) : Session := actions.foldl (Session.step env) s

/-- A load fails, or returns the maps of the last completed save or of one interrupted since. -/
def Session.CrashAtomic (s : Session) : Prop :=
  ∀ replayMs index, loadProfiled env s.files replayMs = .ok index →
    index.toIndexMaps = s.completed ∨ index.toIndexMaps ∈ s.interrupted

end Sessions

section Conditions

/-- Over a snapshot of `maps` the journal is refused, or its replay leaves the maps as they are or
gives those of the last completed save. -/
def ReplayHarmless (journal : Bytes) (maps completed : IndexMaps) : Prop :=
  (journal ≠ [] ∧ journal.length < 12) ∨ Condemned journal ∨
    ∃ batches, JournalHolds journal batches ∧
      (maps.applyOps batches.flatten = maps ∨ maps.applyOps batches.flatten = completed)

/-- The journal is not left beside a snapshot it does not belong to. -/
structure SnapshotSafe (maps completed : IndexMaps) (before after : Files) : Prop where
  fits : maps.Fits
  journal : after.snapshot = before.snapshot ∨ after.journal = none ∨
    ReplayHarmless (after.journal.getD []) maps completed

/-- The journal is written to only while it is whole, unless what comes of it is refused. -/
structure AppendSafe (ops : List JournalOp) (before after : Files) : Prop where
  fits : OpsFit ops
  journal : after.journal.getD [] = before.journal.getD [] ∨
    (∃ batches, WholeJournal (before.journal.getD []) batches) ∨ Condemned (after.journal.getD [])

def SaveKind.Safe (kind : SaveKind) (index : WorktreeIndex) (completed : IndexMaps)
    (before after : Files) : Prop :=
  match kind with
  | .saveSnapshot | .seedSnapshot _ _ => SnapshotSafe index.toIndexMaps completed before after
  | .save =>
    if index.pendingOps.isEmpty then True
    else if (compactReason index before).isSome then
      SnapshotSafe index.toIndexMaps completed before after
    else AppendSafe index.pendingOps before after

variable (env : IndexEnv)

def Session.Safe (s : Session) : Action → Prop
  | .edit _ | .restart _ => True
  | .save kind _ => ∀ index ∈ kind.saved s.index,
    kind.Safe index s.completed s.files (runScript (kind.script env index s.files) s.files).1
  | .interrupt kind steps bytes => ∀ index ∈ kind.saved s.index,
    kind.Safe index s.completed s.files
      (Worktree.interrupted (kind.script env index s.files) steps bytes s.files)

def Session.SafeRun : Session → List Action → Prop
  | _, [] => True
  | s, action :: actions => s.Safe env action ∧ Session.SafeRun (s.step env action) actions

end Conditions

section Invariant
variable (env : IndexEnv)

def Files.Stored (files : Files) : Prop :=
  files.snapshot = none ∧ files.journal = none ∨
    ∃ maps : IndexMaps, maps.Fits ∧ files.snapshot = some (snapshotBytes maps)

/-- The index is what its pending operations make of what is stored. -/
def FollowsFrom (index : WorktreeIndex) (files : Files) (completed : IndexMaps) : Prop :=
  ∃ base : IndexMaps, index.toIndexMaps = base.applyOps index.pendingOps ∧
    ∀ maps, loadMaps env files = .ok maps → maps = base ∧ maps = completed

structure Session.Invariant (s : Session) : Prop where
  stored : s.files.Stored
  loads : ∀ maps, loadMaps env s.files = .ok maps → maps = s.completed ∨ maps ∈ s.interrupted
  index : ∀ index ∈ s.index, FollowsFrom env index s.files s.completed

variable {env} {index : WorktreeIndex} {files after : Files}

theorem FollowsFrom.edit (h : FollowsFrom env index files completed) (edit : Edit) :
    FollowsFrom env (index.edit edit) files completed := by
  obtain ⟨base, hmaps, hload⟩ := h
  obtain ⟨ops, hpending, hedit, _⟩ := edit_journaled index edit
  refine ⟨base, ?_, hload⟩
  rw [hedit, hpending, hmaps, applyOps_append]

theorem FollowsFrom.saved (h : FollowsFrom env index files completed) (markClean : Bool)
    (hload : ∀ maps, loadMaps env after = .ok maps → maps = index.toIndexMaps) :
    FollowsFrom env (if markClean then index.markClean else index) after index.toIndexMaps := by
  obtain ⟨base, hmaps, _⟩ := h
  refine ⟨index.toIndexMaps, ?_, fun maps hmaps => ⟨hload maps hmaps, hload maps hmaps⟩⟩
  cases markClean with
  | true => rfl
  | false =>
    change index.toIndexMaps = index.toIndexMaps.applyOps index.pendingOps
    rw [hmaps, applyOps_applyOps]

theorem Files.Stored.congr (h : files.Stored) (hsame : SameIndex files after) : after.Stored := by
  rcases h with ⟨hsnapshot, hjournal⟩ | ⟨maps, hfits, hsnapshot⟩
  · exact .inl ⟨hsame.1.trans hsnapshot, hsame.2.trans hjournal⟩
  · exact .inr ⟨maps, hfits, hsame.1.trans hsnapshot⟩

theorem ReplayHarmless.loads (h : ReplayHarmless journal maps completed)
    (hload : applyJournal maps journal = .ok loaded) : loaded = maps ∨ loaded = completed := by
  rcases h with ⟨hne, hshort⟩ | hcondemned | ⟨batches, hholds, hsame⟩
  · obtain ⟨e, herror⟩ := applyJournal_short maps hne hshort
    rw [herror] at hload
    cases hload
  · obtain ⟨e, herror⟩ := applyJournal_condemned maps hcondemned
    rw [herror] at hload
    cases hload
  · rw [applyJournal_holds maps hholds] at hload
    cases hload
    exact hsame

theorem SnapshotSafe.stored (h : SnapshotSafe maps completed files after) (hstored : files.Stored)
    (houtcome : SameIndex files after ∨ Replaced maps files after) :
    after.Stored := by
  rcases houtcome with hsame | hreplaced
  · exact hstored.congr hsame
  · exact .inr ⟨maps, h.fits, hreplaced.1⟩

theorem SnapshotSafe.loads (h : SnapshotSafe maps completed files after)
    (houtcome : SameIndex files after ∨ Replaced maps files after)
    (hload : loadMaps env after = .ok loaded) :
    loadMaps env files = .ok loaded ∨ loaded = completed ∨ loaded = maps := by
  rcases houtcome with hsame | ⟨hsnapshot, hjournal⟩
  · rw [loadMaps_congr env hsame.1 hsame.2] at hload
    exact .inl hload
  · have happly := hload
    rw [loadMaps_eq env h.fits hsnapshot] at happly
    rcases h.journal with hkept | hnone | hharmless
    · rcases hjournal with hjournal | hnone
      · rw [loadMaps_congr env hkept hjournal] at hload
        exact .inl hload
      · rw [hnone] at happly
        cases happly
        exact .inr (.inr rfl)
    · rw [hnone] at happly
      cases happly
      exact .inr (.inr rfl)
    · rcases hharmless.loads happly with hmaps | hcompleted
      · exact .inr (.inr hmaps)
      · exact .inr (.inl hcompleted)

theorem Files.Stored.of_snapshot (h : files.Stored) (hsome : files.snapshot ≠ none)
    (hsame : after.snapshot = files.snapshot) : after.Stored := by
  rcases h with ⟨hnone, _⟩ | ⟨maps, hfits, hsnapshot⟩
  · exact absurd hnone hsome
  · exact .inr ⟨maps, hfits, hsame.trans hsnapshot⟩

section
variable (h : AppendSafe ops files after) (hstored : files.Stored) (hsome : files.snapshot ≠ none)
include h hstored hsome

theorem AppendSafe.loads (houtcome : Appended ops files after)
    (hload : loadMaps env after = .ok loaded) :
    loadMaps env files = .ok loaded ∨
      ∃ base : IndexMaps, loadMaps env files = .ok base ∧ loaded = base.applyOps ops := by
  rcases hstored with ⟨hnone, _⟩ | ⟨maps, hfits, hsnapshot⟩
  · exact absurd hnone hsome
  · rw [loadMaps_eq env hfits (houtcome.1.trans hsnapshot)] at hload
    rw [loadMaps_eq env hfits hsnapshot]
    rcases h.journal with hsame | ⟨batches, hwhole⟩ | hcondemned
    · rw [hsame] at hload
      exact .inl hload
    · rcases houtcome.2 with hsame | ⟨n, happended⟩
      · rw [hsame] at hload
        exact .inl hload
      · rw [happended, Option.getD_some] at hload
        rw [applyJournal_holds maps hwhole.holds]
        by_cases hn : n < (appendJournal ops (files.journal.getD [])).length
        · rcases hwhole.append_torn maps h.fits hn with hholds | ⟨e, herror⟩
          · rw [applyJournal_holds maps hholds] at hload
            exact .inl hload
          · rw [herror] at hload
            cases hload
        · rw [List.take_of_length_le (by omega), applyJournal_append maps hwhole h.fits] at hload
          cases hload
          exact .inr ⟨_, rfl, rfl⟩
    · obtain ⟨e, herror⟩ := applyJournal_condemned maps hcondemned
      rw [herror] at hload
      cases hload

theorem AppendSafe.loads_whole (hsnapshot : after.snapshot = files.snapshot)
    (hjournal : after.journal = some (files.journal.getD [] ++
      appendJournal ops (files.journal.getD []))) (hload : loadMaps env after = .ok loaded) :
    ∃ base : IndexMaps, loadMaps env files = .ok base ∧ loaded = base.applyOps ops := by
  rcases hstored with ⟨hnone, _⟩ | ⟨maps, hfits, hold⟩
  · exact absurd hnone hsome
  · rw [loadMaps_eq env hfits (hsnapshot.trans hold), hjournal, Option.getD_some] at hload
    rw [loadMaps_eq env hfits hold]
    rcases h.journal with hsame | ⟨batches, hwhole⟩ | hcondemned
    · rw [hjournal, Option.getD_some, List.append_right_eq_self] at hsame
      exact absurd hsame (appendJournal_ne_nil ops _)
    · rw [applyJournal_append maps hwhole h.fits] at hload
      cases hload
      exact ⟨_, applyJournal_holds maps hwhole.holds, rfl⟩
    · rw [hjournal, Option.getD_some] at hcondemned
      obtain ⟨e, herror⟩ := applyJournal_condemned maps hcondemned
      rw [herror] at hload
      cases hload

end

/-- What an interrupted save leaves: what loaded before, the last completed save or this one. -/
theorem SaveKind.interrupted_loads {kind : SaveKind}
    (hsafe : kind.Safe index completed files (interrupted (kind.script env index files) steps bytes files))
    (hstored : files.Stored)
    (hindex : kind = .save → FollowsFrom env index files completed) :
    (interrupted (kind.script env index files) steps bytes files).Stored ∧
      ∀ loaded, loadMaps env (interrupted (kind.script env index files) steps bytes files) = .ok loaded →
        loadMaps env files = .ok loaded ∨ loaded = completed ∨ loaded = index.toIndexMaps := by
  have hsnapshotCase : SnapshotSafe index.toIndexMaps completed files
      (interrupted (saveSnapshotProfiled env index files) steps bytes files) →
      (interrupted (saveSnapshotProfiled env index files) steps bytes files).Stored ∧
        ∀ loaded, loadMaps env (interrupted (saveSnapshotProfiled env index files) steps bytes files) =
          .ok loaded →
            loadMaps env files = .ok loaded ∨ loaded = completed ∨ loaded = index.toIndexMaps := by
    intro hsnapshot
    have houtcome := @interrupted_saveSnapshot env index files steps bytes
    exact ⟨hsnapshot.stored hstored houtcome, fun loaded hload => hsnapshot.loads houtcome hload⟩
  cases kind with
  | saveSnapshot => exact hsnapshotCase hsafe
  | seedSnapshot seeds directories => exact hsnapshotCase hsafe
  | save =>
    by_cases hempty : index.pendingOps.isEmpty
    · have hscript : SaveKind.script env .save index files = [] := if_pos hempty
      rw [hscript]
      exact ⟨hstored, fun loaded hload => .inl hload⟩
    · rw [Safe, if_neg hempty] at hsafe
      by_cases hcompact : (compactReason index files).isSome
      · have hscript : SaveKind.script env .save index files = saveSnapshotProfiled env index files :=
          (if_neg hempty).trans (if_pos hcompact)
        rw [hscript] at hsafe ⊢
        rw [if_pos hcompact] at hsafe
        exact hsnapshotCase hsafe
      · have hscript : SaveKind.script env .save index files =
            writeHotSidecars env index ++ appendToJournal index files :=
          (if_neg hempty).trans (if_neg hcompact)
        rw [hscript] at hsafe ⊢
        rw [if_neg hcompact] at hsafe
        have hsome := compactReason_snapshot (eq_false_of_ne_true hcompact)
        have houtcome := @interrupted_appendToJournal env index files steps bytes
        refine ⟨hstored.of_snapshot hsome houtcome.1, fun loaded hload => ?_⟩
        rcases hsafe.loads hstored hsome houtcome hload with hbefore | ⟨base, hbase, rfl⟩
        · exact .inl hbefore
        · obtain ⟨base', hmaps, hfollows⟩ := hindex rfl
          rw [(hfollows base hbase).1, ← hmaps]
          exact .inr (.inr rfl)

theorem SaveKind.completed_loads {kind : SaveKind}
    (hrun : runScript (kind.script env index files) files = (after, .ok ()))
    (hsafe : kind.Safe index completed files after) (hstored : files.Stored)
    (hindex : kind = .save → FollowsFrom env index files completed) :
    after.Stored ∧ ∀ loaded, loadMaps env after = .ok loaded → loaded = index.toIndexMaps := by
  have hsnapshotCase : runScript (saveSnapshotProfiled env index files) files = (after, .ok ()) →
      SnapshotSafe index.toIndexMaps completed files after →
      after.Stored ∧ ∀ loaded, loadMaps env after = .ok loaded → loaded = index.toIndexMaps := by
    intro hrun hsnapshot
    obtain ⟨hwritten, hnone⟩ := runScript_saveSnapshot env hrun
    refine ⟨.inr ⟨_, hsnapshot.fits, hwritten⟩, fun loaded hload => ?_⟩
    rw [loadMaps_eq env hsnapshot.fits hwritten, hnone] at hload
    cases hload
    rfl
  cases kind with
  | saveSnapshot => exact hsnapshotCase hrun hsafe
  | seedSnapshot seeds directories => exact hsnapshotCase hrun hsafe
  | save =>
    obtain ⟨base, hmaps, hfollows⟩ := hindex rfl
    by_cases hempty : index.pendingOps.isEmpty
    · have hscript : SaveKind.script env .save index files = [] := if_pos hempty
      rw [hscript] at hrun
      cases hrun
      refine ⟨hstored, fun loaded hload => ?_⟩
      rw [(hfollows loaded hload).1, hmaps, List.isEmpty_iff.1 hempty, applyOps_nil]
    · rw [Safe, if_neg hempty] at hsafe
      by_cases hcompact : (compactReason index files).isSome
      · have hscript : SaveKind.script env .save index files = saveSnapshotProfiled env index files :=
          (if_neg hempty).trans (if_pos hcompact)
        rw [hscript] at hrun
        rw [if_pos hcompact] at hsafe
        exact hsnapshotCase hrun hsafe
      · have hscript : SaveKind.script env .save index files =
            writeHotSidecars env index ++ appendToJournal index files :=
          (if_neg hempty).trans (if_neg hcompact)
        rw [hscript] at hrun
        rw [if_neg hcompact] at hsafe
        have hsome := compactReason_snapshot (eq_false_of_ne_true hcompact)
        obtain ⟨hsnapshot, hjournal⟩ := runScript_appendToJournal env hrun
        refine ⟨hstored.of_snapshot hsome hsnapshot, fun loaded hload => ?_⟩
        obtain ⟨before, hbefore, rfl⟩ := hsafe.loads_whole hstored hsome hsnapshot hjournal hload
        rw [(hfollows before hbefore).1, ← hmaps]

section
variable {s : Session} (h : s.Invariant env)
include h

theorem Session.Invariant.follows {kind : SaveKind} (hindex : kind.saved s.index = some index) :
    kind = .save → FollowsFrom env index s.files s.completed := by
  rintro rfl
  exact h.index index hindex

theorem Session.Invariant.interrupted {kind : SaveKind} (hindex : kind.saved s.index = some index)
    (hsafe : kind.Safe index s.completed s.files
      (Worktree.interrupted (kind.script env index s.files) steps bytes s.files)) :
    Session.Invariant env ⟨Worktree.interrupted (kind.script env index s.files) steps bytes s.files, none,
      s.completed, index.toIndexMaps :: s.interrupted⟩ := by
  obtain ⟨hstored, hloads⟩ := SaveKind.interrupted_loads hsafe h.stored (h.follows hindex)
  refine ⟨hstored, fun maps hload => ?_, nofun⟩
  rcases hloads maps hload with hbefore | hcompleted | hmaps
  · exact (h.loads maps hbefore).imp_right (List.mem_cons_of_mem _)
  · exact .inl hcompleted
  · exact .inr (hmaps ▸ .head _)

theorem Session.Invariant.step (hsafe : s.Safe env action) :
    (s.step env action).Invariant env := by
  cases action with
  | edit edit =>
    refine ⟨h.stored, h.loads, fun index hindex => ?_⟩
    obtain ⟨before, hbefore, rfl⟩ := Option.mem_map.1 hindex
    exact (h.index before hbefore).edit edit
  | save kind markClean =>
    rw [Session.step]
    cases hindex : kind.saved s.index with
    | none => exact h
    | some index =>
      have hsaved := hsafe index hindex
      dsimp only
      cases hrun : runScript (kind.script env index s.files) s.files with
      | mk files result =>
        rw [hrun] at hsaved
        cases result with
        | ok done =>
          obtain ⟨hstored, hloads⟩ :=
            SaveKind.completed_loads hrun hsaved h.stored (h.follows hindex)
          refine ⟨hstored, fun maps hload => .inl (hloads maps hload), ?_⟩
          intro kept hkept
          cases kind with
          | seedSnapshot seeds directories => cases hkept
          | save =>
            cases hkept
            exact (h.index index hindex).saved markClean hloads
          | saveSnapshot =>
            cases hkept
            exact (h.index index hindex).saved markClean hloads
        | error e =>
          have hstop := runScript_error _ hrun
          rw [← hstop] at hsaved
          have hinterrupted := h.interrupted hindex hsaved
          rw [hstop] at hinterrupted
          exact hinterrupted
  | interrupt kind steps bytes =>
    rw [Session.step]
    cases hindex : kind.saved s.index with
    | none => exact h
    | some index => exact h.interrupted hindex (hsafe index hindex)
  | restart replayMs =>
    rw [Session.step]
    cases hload : loadProfiled env s.files replayMs with
    | error e =>
      refine ⟨h.stored, h.loads, ?_⟩
      rintro index ⟨⟩
      refine ⟨{}, rfl, fun maps hmaps => ?_⟩
      rw [loadProfiled, hmaps] at hload
      cases hload
    | ok index =>
      obtain ⟨maps, hmaps, hindex⟩ := bind_eq_ok.1 hload
      cases hindex
      have hcompleted : maps = if maps ∈ s.interrupted then maps else s.completed := by
        split
        · rfl
        · rename_i habsent
          exact (h.loads maps hmaps).resolve_right habsent
      refine ⟨h.stored, fun loaded hloaded => ?_, ?_⟩
      · rw [hmaps] at hloaded
        cases hloaded
        exact .inl hcompleted
      · rintro index ⟨⟩
        refine ⟨maps, rfl, fun loaded hloaded => ?_⟩
        rw [hmaps] at hloaded
        cases hloaded
        exact ⟨rfl, hcompleted⟩

theorem Session.Invariant.run (hsafe : s.SafeRun env actions) :
    (s.run env actions).Invariant env := by
  induction actions generalizing s with
  | nil => exact h
  | cons action actions ih => exact ih (h.step hsafe.1) hsafe.2

theorem Session.Invariant.crashAtomic : s.CrashAtomic env := by
  intro replayMs index hload
  obtain ⟨maps, hmaps, hindex⟩ := bind_eq_ok.1 hload
  cases hindex
  exact h.loads maps hmaps

end

theorem Session.invariant_start : ({} : Session).Invariant env := by
  refine ⟨.inl ⟨rfl, rfl⟩, fun maps hload => ?_, nofun⟩
  cases hload
  exact .inl rfl

end Invariant

section Result

/-- While no save stops between a new snapshot and the removal of a journal that changes it, and
nothing is appended behind a torn frame, the stored index is the last saved one or the interrupted. -/
theorem crashAtomic_of_safeRun (env : IndexEnv) (actions : List Action) (h : ({} : Session).SafeRun env actions) :
    (({} : Session).run env actions).CrashAtomic env :=
  (Session.invariant_start.run h).crashAtomic

def sampleMaps (paths : List String) : IndexMaps :=
  { entries := SortedMap.empty.replay (paths.map fun path => (path, some sampleEntry)) }

def journaledActions : List Action :=
  [.restart 0, .edit (.insert "a" sampleEntry), .save .save true, .edit (.insert "b" sampleEntry),
    .save .save true]

def checkoutSeed : SaveKind := .seedSnapshot [("a", sampleEntry), ("c", sampleEntry)] []

theorem crashAtomic_beforeRename : (({} : Session).run sampleEnv
    (journaledActions ++ [.interrupt checkoutSeed 2 7, .restart 0])).CrashAtomic sampleEnv := by
  apply crashAtomic_of_safeRun
  refine ⟨trivial, trivial, ?_, trivial, ?_, ?_, trivial, trivial⟩
  · rintro index ⟨⟩
    change SnapshotSafe (sampleMaps ["a"]) _ _ _
    exact ⟨by decide, .inr (.inl rfl)⟩
  · rintro index ⟨⟩
    change AppendSafe [.upsertFile "b" sampleEntry] _ _
    exact ⟨by decide, .inr (.inl ⟨[], .inl ⟨rfl, rfl⟩⟩)⟩
  · rintro index ⟨⟩
    change SnapshotSafe (sampleMaps ["a", "c"]) _ _ _
    exact ⟨by decide, .inl rfl⟩

/-- Stopped behind the rename, the journal adds to the new snapshot what it no longer holds. -/
theorem crashAtomic_staleJournal :
    ¬∀ env actions, (({} : Session).run env actions).CrashAtomic env := by
  intro h
  specialize h sampleEnv (journaledActions ++ [.interrupt checkoutSeed 3 0])
  generalize hs : ({} : Session).run sampleEnv
    (journaledActions ++ [.interrupt checkoutSeed 3 0]) = s at h
  have hsnapshot : s.files.snapshot = some (snapshotBytes (sampleMaps ["a", "c"])) := hs ▸ rfl
  have hjournal : s.files.journal = some ([] ++ appendJournal [.upsertFile "b" sampleEntry] []) := hs ▸ rfl
  have hcompleted : s.completed = sampleMaps ["a", "b"] := hs ▸ rfl
  have hinterrupted : s.interrupted = [sampleMaps ["a", "c"]] := hs ▸ rfl
  have hload : loadMaps sampleEnv s.files = .ok (sampleMaps ["a", "b", "c"]) := by
    rw [loadMaps_eq sampleEnv (by decide) hsnapshot, hjournal, Option.getD_some,
      applyJournal_append _ (.inl ⟨rfl, rfl⟩) (by decide)]
    congr 1
  have hprofiled := h 0 _ (bind_eq_ok.2 ⟨_, hload, rfl⟩)
  rw [hcompleted, hinterrupted] at hprofiled
  have hneither : ¬(sampleMaps ["a", "b", "c"] = sampleMaps ["a", "b"] ∨
      sampleMaps ["a", "b", "c"] ∈ [sampleMaps ["a", "c"]]) := by decide
  exact hneither hprofiled

end Result

end Heddle.Worktree
