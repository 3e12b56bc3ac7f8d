import Heddle.Worktree.Storage

namespace Heddle.Worktree
open Heddle.Lib
open Heddle.Lib.MsgPack (beBytes ofBeBytes)

section Scripts

/-- Steps behind which the snapshot and the journal are what they were. -/
def FsStep.Beside : FsStep → Prop
  | .writeHotRecord _ _ | .writeHotGitlinks _ | .writeTemp _ => True
  | .renameTemp | .openJournal | .appendJournal _ | .removeJournal => False

def SameIndex (before after : Files) : Prop :=
  after.snapshot = before.snapshot ∧ after.journal = before.journal

theorem SameIndex.trans (h : SameIndex a b) (h' : SameIndex b c) : SameIndex a c :=
  ⟨h'.1.trans h.1, h'.2.trans h.2⟩

theorem FsStep.Beside.run {step : FsStep} (h : step.Beside) (files : Files) :
    SameIndex files (step.run files) := by
  cases step with
  | writeHotRecord name bytes => exact ⟨rfl, rfl⟩
  | writeHotGitlinks bytes => exact ⟨rfl, rfl⟩
  | writeTemp bytes => exact ⟨rfl, rfl⟩
  | _ => exact h.elim

theorem FsStep.Beside.cut {step step' : FsStep} (h : step.Beside) (hcut : step.cut n = some step') :
    step'.Beside := by
  cases step with
  | writeHotRecord name bytes =>
    cases hcut
    trivial
  | writeHotGitlinks bytes =>
    cases hcut
    trivial
  | writeTemp bytes =>
    cases hcut
    trivial
  | _ => exact h.elim

variable {script : Script}

theorem runScript_append (script rest : Script) (files : Files) :
    runScript (script ++ rest) files =
      match runScript script files with
      | (files, .ok ()) => runScript rest files
      | (files, .error e) => (files, .error e) := by
  induction script generalizing files with
  | nil => rfl
  | cons step script ih =>
    cases step with
    | ok step => exact ih _
    | error e => rfl

theorem runScript_beside (h : ∀ step, .ok step ∈ script → step.Beside) (files : Files) :
    SameIndex files (runScript script files).1 := by
  induction script generalizing files with
  | nil => exact ⟨rfl, rfl⟩
  | cons step script ih =>
    cases step with
    | ok step =>
      have hstep := (h step (.head _)).run files
      exact hstep.trans (ih (fun later hlater => h later (.tail _ hlater)) _)
    | error e => exact ⟨rfl, rfl⟩

theorem interrupted_beside (h : ∀ step, .ok step ∈ script → step.Beside) (steps bytes : Nat)
    (files : Files) : SameIndex files (interrupted script steps bytes files) := by
  induction script generalizing files steps with
  | nil => exact ⟨rfl, rfl⟩
  | cons step script ih =>
    cases step with
    | error e => exact ⟨rfl, rfl⟩
    | ok step =>
      have hbeside := h step (.head _)
      cases steps with
      | succ steps =>
        exact (hbeside.run files).trans (ih (fun later hlater => h later (.tail _ hlater)) _ _)
      | zero =>
        rw [interrupted]
        cases hcut : step.cut bytes with
        | none => exact ⟨rfl, rfl⟩
        | some part => exact (hbeside.cut hcut).run files

/-- An operation in two parts stops in its first part, or in its second behind the whole first one. -/
theorem interrupted_append (script rest : Script) (steps bytes : Nat) (files : Files) :
    (∃ steps', interrupted (script ++ rest) steps bytes files = interrupted script steps' bytes files) ∨
      ∃ steps', (runScript script files).2 = .ok () ∧ interrupted (script ++ rest) steps bytes files =
        interrupted rest steps' bytes (runScript script files).1 := by
  induction script generalizing files steps with
  | nil => exact .inr ⟨steps, rfl, rfl⟩
  | cons step script ih =>
    cases step with
    | error e => exact .inl ⟨0, rfl⟩
    | ok step =>
      cases steps with
      | zero => exact .inl ⟨0, rfl⟩
      | succ steps =>
        rcases ih steps (step.run files) with ⟨steps', hstop⟩ | ⟨steps', hok, hstop⟩
        · exact .inl ⟨steps' + 1, hstop⟩
        · exact .inr ⟨steps', hok, hstop⟩

theorem writeHotSidecars_beside (env : IndexEnv) (index : WorktreeIndex) :
    ∀ step, .ok step ∈ writeHotSidecars env index → step.Beside := by
  intro step hstep
  rcases List.mem_append.1 hstep with hstep | hstep
  · obtain ⟨key, _, hwrite⟩ := List.mem_map.1 hstep
    obtain ⟨cleanTree, _, hstep⟩ := bind_eq_ok.1 hwrite
    cases hstep
    trivial
  · cases List.mem_singleton.1 hstep
    trivial

end Scripts

section Outcomes
variable (env : IndexEnv) {index : WorktreeIndex} {files : Files}

/-- A snapshot in the place of the old one, with or without the old journal beside it. -/
def Replaced (maps : IndexMaps) (before after : Files) : Prop :=
  after.snapshot = some (snapshotBytes maps) ∧
    (after.journal = before.journal ∨ after.journal = none)

theorem interrupted_saveSnapshot (steps bytes : Nat) :
    SameIndex files (interrupted (saveSnapshotProfiled env index files) steps bytes files) ∨
      Replaced index.toIndexMaps files
        (interrupted (saveSnapshotProfiled env index files) steps bytes files) := by
  have hbeside := writeHotSidecars_beside env index
  rcases interrupted_append (writeHotSidecars env index)
    (writeSnapshot index ++ removeJournalIfThere files) steps bytes files with
    ⟨steps', hstop⟩ | ⟨steps', _, hstop⟩
  · exact .inl (hstop ▸ interrupted_beside hbeside steps' bytes files)
  · have hsame := runScript_beside hbeside files
    unfold saveSnapshotProfiled
    rw [hstop]
    generalize (runScript (writeHotSidecars env index) files).1 = mid at hsame
    rcases steps' with _ | _ | steps'
    · exact .inl hsame
    · exact .inl hsame
    · right
      unfold removeJournalIfThere
      split
      · cases steps' with
        | zero => exact ⟨rfl, .inl hsame.2⟩
        | succ steps' => exact ⟨rfl, .inr rfl⟩
      · exact ⟨rfl, .inl hsame.2⟩

/-- Nothing happened to the index, or some of the batch stands behind the journal. -/
def Appended (ops : List JournalOp) (before after : Files) : Prop :=
  after.snapshot = before.snapshot ∧ (after.journal.getD [] = before.journal.getD [] ∨
    ∃ n, after.journal = some (before.journal.getD [] ++
      (appendJournal ops (before.journal.getD [])).take n))

theorem interrupted_appendToJournal (steps bytes : Nat) : Appended index.pendingOps files
    (interrupted (writeHotSidecars env index ++ appendToJournal index files) steps bytes files) := by
  have hbeside := writeHotSidecars_beside env index
  rcases interrupted_append (writeHotSidecars env index) (appendToJournal index files) steps bytes
    files with ⟨steps', hstop⟩ | ⟨steps', _, hstop⟩
  · have hsame := interrupted_beside hbeside steps' bytes files
    rw [hstop]
    exact ⟨hsame.1, .inl (by rw [hsame.2])⟩
  · have hsame := runScript_beside hbeside files
    rw [hstop]
    generalize (runScript (writeHotSidecars env index) files).1 = mid at hsame
    obtain ⟨hsnapshot, hjournal⟩ := hsame
    rcases steps' with _ | _ | steps'
    · exact ⟨hsnapshot, .inl (by rw [← hjournal]; rfl)⟩
    · refine ⟨hsnapshot, .inr ⟨bytes, ?_⟩⟩
      change some (mid.journal.getD [] ++ _) = _
      rw [hjournal]
    · refine ⟨hsnapshot, .inr ⟨(appendJournal index.pendingOps (files.journal.getD [])).length, ?_⟩⟩
      change some (mid.journal.getD [] ++ _) = _
      rw [hjournal, List.take_length]

theorem runScript_saveSnapshot
    (h : runScript (saveSnapshotProfiled env index files) files = (after, .ok ())) :
    after.snapshot = some (snapshotBytes index.toIndexMaps) ∧ after.journal = none := by
  have hsame := runScript_beside (writeHotSidecars_beside env index) files
  unfold saveSnapshotProfiled at h
  rw [runScript_append] at h
  split at h
  · rename_i mid heq
    rw [heq] at hsame
    unfold removeJournalIfThere at h
    split at h
    · cases h
      exact ⟨rfl, rfl⟩
    · rename_i hnone
      cases h
      refine ⟨rfl, ?_⟩
      rw [Option.not_isSome_iff_eq_none] at hnone
      exact hsame.2.trans hnone
  · cases h

theorem runScript_appendToJournal
    (h : runScript (writeHotSidecars env index ++ appendToJournal index files) files = (after, .ok ())) :
    after.snapshot = files.snapshot ∧ after.journal = some (files.journal.getD [] ++
      appendJournal index.pendingOps (files.journal.getD [])) := by
  have hsame := runScript_beside (writeHotSidecars_beside env index) files
  rw [runScript_append] at h
  split at h
  · rename_i mid heq
    rw [heq] at hsame
    cases h
    refine ⟨hsame.1, ?_⟩
    change some (mid.journal.getD [] ++ _) = _
    rw [hsame.2]
  · cases h

theorem runScript_error (script : Script) (h : runScript script files = (after, .error e)) :
    interrupted script script.length 0 files = after := by
  induction script generalizing files with
  | nil => cases h
  | cons step script ih =>
    cases step with
    | ok step => exact ih h
    | error e =>
      cases h
      rfl

theorem compactReason_snapshot (h : (compactReason index files).isSome = false) :
    files.snapshot ≠ none := by
  intro hnone
  rw [compactReason, hnone, if_pos Option.isNone_none] at h
  cases h

end Outcomes

section Load
variable (env : IndexEnv) {files : Files} {maps : IndexMaps}

theorem loadSnapshot_snapshotBytes (h : maps.Fits) :
    loadSnapshot env (snapshotBytes maps) = .ok maps := by
  have hmagic : indexMagic.length = 8 := by decide
  have hlen : headerSizeV6 + 4 ≤ (snapshotBytes maps).length := by
    simp only [snapshotBytes, List.length_append, length_beBytes, hmagic, headerSizeV6,
      headerSizeV5, headerSizeV4]
    omega
  have htake : (snapshotBytes maps).take 8 = indexMagic := List.take_left' hmagic
  have hversion : ofBeBytes (((snapshotBytes maps).drop 8).take 4) = 6 := by
    rw [snapshotBytes, List.drop_left' hmagic, List.take_left' (length_beBytes _ _)]
    exact MsgPack.ofBeBytes_beBytes (by decide)
  have hsize : headerSizeV6 = 40 := rfl
  unfold loadSnapshot
  rw [if_neg (by omega), if_neg (not_not_intro htake)]
  dsimp only
  rw [hversion, if_neg (by omega), if_neg (by simp), if_neg (by omega), if_pos ⟨rfl, hlen⟩,
    loadV6_snapshotBytes h]

theorem loadMaps_eq (hfits : maps.Fits) (h : files.snapshot = some (snapshotBytes maps)) :
    loadMaps env files = applyJournal maps (files.journal.getD []) := by
  rw [loadMaps, h]
  dsimp only
  rw [loadSnapshot_snapshotBytes env hfits]
  cases files.journal with
  | none => rfl
  | some journal => rfl

theorem loadMaps_none (h : files.snapshot = none) : loadMaps env files = .ok {} := by
  rw [loadMaps, h]

theorem loadMaps_congr (hsnapshot : after.snapshot = files.snapshot)
    (hjournal : after.journal = files.journal) : loadMaps env after = loadMaps env files := by
  rw [loadMaps, loadMaps, hsnapshot, hjournal]

end Load

end Heddle.Worktree
