import Heddle.Worktree.HotRecords

namespace Heddle.Worktree
open Heddle.Lib Option
open Heddle.Lib.MsgPack (beBytes ofBeBytes)

section Sessions

/-- The files and the index in memory, loaded in full or of the hot records alone. -/
structure HotSession where
  files : Files := {}
  index : Option WorktreeIndex := none

inductive HotAction where
  | load (replayMs : Nat)
  | loadHot (directoryKeys : List String) (replayMs : Nat)
  | edit (edit : Edit)
  | save (kind : SaveKind) (markClean : Bool)

variable (env : IndexEnv)

def loadedOrNew : Except IndexError WorktreeIndex → WorktreeIndex
  | .ok index => index
  | .error _ => .new

/-- One completed action; `none` when its save does not complete. -/
def HotSession.step (s : HotSession) : HotAction → Option HotSession
  | .load replayMs => some { s with index := some (loadedOrNew (loadProfiled env s.files replayMs)) }
  | .loadHot directoryKeys replayMs => some { s with
      index := some (loadedOrNew (loadHotProfiledForDirectories env s.files directoryKeys replayMs)) }
  | .edit edit => some { s with index := s.index.map (·.edit edit) }
  | .save kind markClean =>
    match kind.saved s.index with
    | none => some s
    | some index =>
      match runScript (kind.script env index s.files) s.files with
      | (files, .ok ()) => some ⟨files, kind.keeps markClean index⟩
      | (_, .error _) => none

def HotSession.run (s : HotSession) (actions : List HotAction) : Option HotSession :=
  actions.foldlM (HotSession.step env) s

/-- The records a hot load returns for its keys are those of the full load. -/
def HotSession.HotAgrees (s : HotSession) : Prop :=
  ∀ directoryKeys replayMs replayMs' hot,
    loadHotProfiledForDirectories env s.files directoryKeys replayMs = .ok hot →
      ∃ full, loadProfiled env s.files replayMs' = .ok full ∧ ∀ key ∈ directoryKeys,
        (∀ entry, hot.directories.get key = some entry → full.directories.get key = some entry) ∧
        ∀ entry, hot.untrackedDirectories.get key = some entry →
          full.untrackedDirectories.get key = some entry

end Sessions

section Conditions
variable (env : IndexEnv)

/-- The record file of this name is among those the save rewrites. -/
def Rewrites (index : WorktreeIndex) (name : ContentHash) : Prop :=
  ∃ key ∈ hotKeys index, hotDirectoryRecordName env key = name

/-- A save that drops the journal rewrites every record file there is. -/
structure DropSafe (index : WorktreeIndex) (files : Files) : Prop where
  fits : index.toIndexMaps.Fits
  rewrites : ∀ name, files.hotRecords name ≠ none → Rewrites env index name

/-- An append that removes a record of the root rewrites the root's record file, when it has one. -/
structure HotAppendSafe (index : WorktreeIndex) (files : Files) : Prop where
  ops : OpsFit index.pendingOps
  records : ∀ key ∈ hotKeys index, TextFits key ∧
    ∀ entry ∈ index.untrackedDirectories.get key, entry.Fits
  root : files.hotRecords (hotDirectoryRecordName env "") = none ∨
    Rewrites env index (hotDirectoryRecordName env "") ∨
      .removeDirectory "" ∉ index.pendingOps ∧ .removeUntrackedDirectory "" ∉ index.pendingOps

def SaveKind.HotSafe (kind : SaveKind) (index : WorktreeIndex) (files : Files) : Prop :=
  match kind with
  | .saveSnapshot | .seedSnapshot _ _ => DropSafe env index files
  | .save =>
    if index.pendingOps.isEmpty then True
    else if (compactReason index files).isSome then DropSafe env index files
    else HotAppendSafe env index files

def HotSession.Safe (s : HotSession) : HotAction → Prop
  | .load _ | .loadHot _ _ | .edit _ => True
  | .save kind _ => ∀ index ∈ kind.saved s.index, kind.HotSafe env index s.files

def HotSession.SafeRun : HotSession → List HotAction → Prop
  | _, [] => True
  | s, action :: actions => s.Safe env action ∧
      ∀ next, s.step env action = some next → HotSession.SafeRun next actions

end Conditions

section Invariant
variable (env : IndexEnv)

/-- A record of the key is the stored one, or the journal's replay will replace it. -/
def RecordCurrent (key : String) (record : Option ν) (stored : SortedMap String ν)
    (edits : List (String × Option ν)) : Prop :=
  ∀ entry ∈ record, stored.get key = some entry ∨ key ≠ "" ∧ SortedMap.lastEdit key edits ≠ none

/-- Every record file was written for a key of its name and is current. -/
def RecordsCurrent (files : Files) (stored : IndexMaps) (ops : List JournalOp) : Prop :=
  ∀ name bytes, files.hotRecords name = some bytes → ∃ key directory untracked cleanTree,
    name = hotDirectoryRecordName env key ∧
    bytes = frameHotRecord (hotDirectoryBody key directory untracked cleanTree) ∧
    TextFits key ∧ (∀ entry ∈ untracked, entry.Fits) ∧
    RecordCurrent key directory stored.directories (ops.filterMap JournalOp.directoryEdit) ∧
    RecordCurrent key untracked stored.untrackedDirectories (ops.filterMap JournalOp.untrackedEdit)

def DirectoriesWithin (maps maps' : IndexMaps) : Prop :=
  maps.directories.Within maps'.directories ∧
    maps.untrackedDirectories.Within maps'.untrackedDirectories

/-- The index holds no other directory records than its pending operations make of what is stored. -/
structure WithinStored (index : WorktreeIndex) (stored : IndexMaps) : Prop where
  within : DirectoriesWithin index.toIndexMaps (stored.applyOps index.pendingOps)
  settled : ∃ start : IndexMaps, index.toIndexMaps = start.applyOps index.pendingOps

/-- A snapshot of `base` or none yet, and a journal of these batches. -/
structure StoredAs (files : Files) (base : IndexMaps) (batches : List (List JournalOp)) : Prop where
  fits : base.Fits
  snapshot : files.snapshot = some (snapshotBytes base) ∨
    files.snapshot = none ∧ files.journal = none ∧ base = {}
  journal : WholeJournal (files.journal.getD []) batches

structure HotSession.Invariant (s : HotSession) (base : IndexMaps) (batches : List (List JournalOp)) :
    Prop where
  stored : StoredAs s.files base batches
  records : RecordsCurrent env s.files (base.applyOps batches.flatten) batches.flatten
  index : ∀ index ∈ s.index, WithinStored index (base.applyOps batches.flatten)

variable {env} {index : WorktreeIndex} {files after : Files} {maps maps' stored base : IndexMaps}
  {batches : List (List JournalOp)}

theorem DirectoriesWithin.refl (maps : IndexMaps) : DirectoriesWithin maps maps :=
  ⟨.refl _, .refl _⟩

theorem DirectoriesWithin.applyOps (h : DirectoriesWithin maps maps') (ops : List JournalOp) :
    DirectoriesWithin (maps.applyOps ops) (maps'.applyOps ops) := by
  rw [applyOps_eq maps, applyOps_eq maps']
  exact ⟨h.1.replay _, h.2.replay _⟩

theorem WithinStored.new (stored : IndexMaps) : WithinStored .new stored :=
  ⟨⟨nofun, nofun⟩, {}, rfl⟩

theorem WithinStored.edit (h : WithinStored index stored) (edit : Edit) :
    WithinStored (index.edit edit) stored := by
  obtain ⟨ops, hpending, hmaps, _⟩ := edit_journaled index edit
  obtain ⟨start, hstart⟩ := h.settled
  constructor
  · rw [hmaps, hpending, applyOps_append]
    exact h.within.applyOps ops
  · exact ⟨start, by rw [hmaps, hpending, hstart, applyOps_append]⟩

theorem WithinStored.saved (h : WithinStored index stored) (markClean : Bool)
    (hwithin : DirectoriesWithin index.toIndexMaps stored)
    (hsettled : stored.applyOps index.pendingOps = stored) :
    WithinStored (if markClean then index.markClean else index) stored := by
  cases markClean with
  | true => exact ⟨hwithin, index.toIndexMaps, rfl⟩
  | false => exact ⟨by rw [if_neg Bool.false_ne_true, hsettled]; exact hwithin, h.settled⟩

theorem StoredAs.loadMaps (h : StoredAs files base batches) :
    loadMaps env files = .ok (base.applyOps batches.flatten) := by
  rcases h.snapshot with hsnapshot | ⟨hsnapshot, hjournal, rfl⟩
  · rw [loadMaps_eq env h.fits hsnapshot, applyJournal_holds base h.journal.holds]
  · rw [loadMaps_none env hsnapshot]
    have hwhole := h.journal
    rw [hjournal] at hwhole
    rcases hwhole with ⟨_, rfl⟩ | ⟨hempty, _⟩
    · rfl
    · have hlen := congrArg List.length hempty
      rw [List.length_append, journalHeader_length] at hlen
      exact absurd hlen (by rw [getD_none, List.length_nil]; omega)

theorem loadHotDirectoryRecord_current (h : RecordsCurrent env files stored ops)
    (hload : loadHotDirectoryRecord env files key decodeCleanTree = .ok (some record)) :
    RecordCurrent key record.directory stored.directories (ops.filterMap JournalOp.directoryEdit) ∧
      RecordCurrent key record.untracked stored.untrackedDirectories
        (ops.filterMap JournalOp.untrackedEdit) := by
  rw [loadHotDirectoryRecord] at hload
  cases hfile : files.hotRecords (hotDirectoryRecordName env key) with
  | none =>
    rw [hfile] at hload
    cases hload
  | some bytes =>
    obtain ⟨owner, directory, untracked, cleanTree, _, rfl, hkey, hfits, hdirectory, huntracked⟩ :=
      h _ _ hfile
    rw [hfile, bind_some, verifiedHotBody_frameHotRecord] at hload
    dsimp only at hload
    split at hload
    · cases hload
    · unfold wholeRecord at hload
      split at hload
      · rename_i read hread
        cases hload
        obtain ⟨rfl, rfl, rfl⟩ := readHotDirectoryRecord_written env _ _ hkey hfits hread
        exact ⟨hdirectory, huntracked⟩
      · cases hload
      · cases hload
      · cases hload

/-- The directory records of an index are current and of these keys. -/
def IndexCurrent (index : WorktreeIndex) (keys : List String) (stored : IndexMaps)
    (ops : List JournalOp) : Prop :=
  ∀ key, (∀ entry, index.directories.get key = some entry → key ∈ keys) ∧
    (∀ entry, index.untrackedDirectories.get key = some entry → key ∈ keys) ∧
    RecordCurrent key (index.directories.get key) stored.directories
      (ops.filterMap JournalOp.directoryEdit) ∧
    RecordCurrent key (index.untrackedDirectories.get key) stored.untrackedDirectories
      (ops.filterMap JournalOp.untrackedEdit)

theorem putRecord_current {m stored : SortedMap String ν} {record : Option ν}
    {edits : List (String × Option ν)} {keys : List String} (hkey : key ∈ keys)
    (h : ∀ other, (∀ entry, m.get other = some entry → other ∈ keys) ∧
      RecordCurrent other (m.get other) stored edits)
    (hrecord : RecordCurrent key record stored edits) (other : String) :
    (∀ entry, (putRecord m key record).get other = some entry → other ∈ keys) ∧
      RecordCurrent other ((putRecord m key record).get other) stored edits := by
  cases record with
  | none => exact h other
  | some entry =>
    rw [putRecord, SortedMap.get_put]
    by_cases hother : other = key
    · rw [if_pos hother]
      exact ⟨fun _ _ => hother ▸ hkey, hother ▸ hrecord⟩
    · rw [if_neg hother]
      exact h other

theorem addHotRecord_current (hkey : key ∈ keys) (h : IndexCurrent index keys stored ops)
    (hdirectory : RecordCurrent key record.directory stored.directories
      (ops.filterMap JournalOp.directoryEdit))
    (huntracked : RecordCurrent key record.untracked stored.untrackedDirectories
      (ops.filterMap JournalOp.untrackedEdit)) :
    IndexCurrent (addHotRecord index key (some record)) keys stored ops := by
  intro other
  obtain ⟨hkeys, hcurrent⟩ := putRecord_current hkey (m := index.directories)
    (fun other => ⟨(h other).1, (h other).2.2.1⟩) hdirectory other
  obtain ⟨hkeys', hcurrent'⟩ := putRecord_current hkey (m := index.untrackedDirectories)
    (fun other => ⟨(h other).2.1, (h other).2.2.2⟩) huntracked other
  exact ⟨hkeys, hkeys', hcurrent, hcurrent'⟩

theorem indexCurrent_empty (keys : List String) (stored : IndexMaps) (ops : List JournalOp) :
    IndexCurrent { hotLoaded := true } keys stored ops := by
  have hnone : ∀ (α : Type) (key : String) (entry : α), (SortedMap.empty : SortedMap String α).get key ≠
      some entry := by
    intro α key entry h
    cases h
  intro key
  refine ⟨fun entry h => ?_, fun entry h => ?_, fun entry h => ?_, fun entry h => ?_⟩
  · exact absurd h (hnone _ key entry)
  · exact absurd h (hnone _ key entry)
  · exact absurd h (hnone _ key entry)
  · exact absurd h (hnone _ key entry)

theorem loadHotRecords_current (h : RecordsCurrent env files stored ops)
    (hsub : ∀ key ∈ keys, key ∈ allKeys) (hindex : IndexCurrent index allKeys stored ops)
    (hload : loadHotRecords env files keys index = .ok hot) :
    IndexCurrent hot allKeys stored ops := by
  induction keys generalizing index with
  | nil =>
    cases hload
    exact hindex
  | cons key keys ih =>
    rw [loadHotRecords, List.foldlM_cons] at hload
    obtain ⟨next, hnext, hload⟩ := bind_eq_ok.1 hload
    obtain ⟨record, hrecord, rfl⟩ := map_eq_ok_iff.1 hnext
    refine ih (fun later hlater => hsub later (.tail _ hlater)) ?_ hload
    cases record with
    | none => exact hindex
    | some record =>
      obtain ⟨hdirectory, huntracked⟩ := loadHotDirectoryRecord_current h hrecord
      exact addHotRecord_current (hsub key (.head _)) hindex hdirectory huntracked

theorem loadHotGitlinks_directories (h : loadHotGitlinks files index = .ok (valid, hot)) :
    hot.directories = index.directories ∧ hot.untrackedDirectories = index.untrackedDirectories := by
  unfold loadHotGitlinks at h
  repeat' split at h
  all_goals
    cases h
    try exact ⟨rfl, rfl⟩

theorem RecordCurrent.within {m start : SortedMap String ν}
    (h : ∀ key, RecordCurrent key (m.get key) (start.replay edits) edits) :
    (m.replay edits).Within (start.replay edits) := by
  intro key entry hget
  rw [SortedMap.get_replay] at hget
  cases hlast : SortedMap.lastEdit key edits with
  | some last =>
    rw [hlast] at hget
    rw [SortedMap.get_replay, hlast]
    exact hget
  | none =>
    rw [hlast] at hget
    rcases h key entry hget with hstored | ⟨_, htouched⟩
    · exact hstored
    · exact absurd hlast htouched

/-- Without a replay there is no journal to wait for, or only the root's record was asked for. -/
theorem RecordCurrent.within_of_unreplayed {m stored : SortedMap String ν}
    {edits : List (String × Option ν)} {keys : List String}
    (h : ∀ key, RecordCurrent key (m.get key) stored edits)
    (hkeys : ∀ key entry, m.get key = some entry → key ∈ keys)
    (hnone : edits = [] ∨ ∀ key ∈ keys, key = "") : m.Within stored := by
  intro key entry hget
  rcases h key entry hget with hstored | ⟨hroot, htouched⟩
  · exact hstored
  · rcases hnone with rfl | hkeys'
    · exact absurd rfl htouched
    · exact absurd (hkeys' key (hkeys key entry hget)) hroot

theorem dropRoot_current (h : IndexCurrent index keys stored ops) (valid : Bool) :
    IndexCurrent (dropRootWithoutGitlinks valid index) keys stored ops := by
  cases valid with
  | true => exact h
  | false =>
    intro key
    obtain ⟨hkeys, hkeys', hcurrent, hcurrent'⟩ := h key
    refine ⟨?_, hkeys', ?_, hcurrent'⟩
    · intro entry hentry
      change (index.directories.put "" none).get key = some entry at hentry
      rw [SortedMap.get_put] at hentry
      split at hentry
      · cases hentry
      · exact hkeys entry hentry
    · change RecordCurrent key ((index.directories.put "" none).get key) _ _
      rw [SortedMap.get_put]
      split
      · exact nofun
      · exact hcurrent

theorem replayHotJournal_within (hcurrent :
      IndexCurrent index keys (base.applyOps batches.flatten) batches.flatten)
    (hjournal : WholeJournal (files.journal.getD []) batches)
    (hload : replayHotJournal files keys replayMs index = .ok hot) :
    DirectoriesWithin hot.toIndexMaps (base.applyOps batches.flatten) := by
  rw [applyOps_eq base] at hcurrent ⊢
  have hunreplayed : (batches.flatten = [] ∨ ∀ key ∈ keys, key = "") →
      DirectoriesWithin index.toIndexMaps (base.applyOps batches.flatten) := by
    intro hnone
    rw [applyOps_eq base]
    constructor
    · apply RecordCurrent.within_of_unreplayed (fun key => (hcurrent key).2.2.1)
        fun key => (hcurrent key).1
      exact hnone.imp_left fun hempty => by rw [hempty, List.filterMap_nil]
    · apply RecordCurrent.within_of_unreplayed (fun key => (hcurrent key).2.2.2)
        fun key => (hcurrent key).2.1
      exact hnone.imp_left fun hempty => by rw [hempty, List.filterMap_nil]
  rw [applyOps_eq base] at hunreplayed
  unfold replayHotJournal at hload
  cases hfile : files.journal with
  | none =>
    rw [hfile] at hload hjournal
    cases hload
    rcases hjournal with ⟨_, rfl⟩ | ⟨hempty, _⟩
    · exact hunreplayed (.inl rfl)
    · have hlen := congrArg List.length hempty
      rw [List.length_append, journalHeader_length, getD_none, List.length_nil] at hlen
      exact absurd hlen (by omega)
  | some journal =>
    rw [hfile] at hload hjournal
    rw [getD_some] at hjournal
    dsimp only at hload
    by_cases hany : keys.any (· ≠ "")
    · rw [if_pos hany, applyJournal_holds _ hjournal.holds] at hload
      cases hload
      rw [applyOps_eq index.toIndexMaps]
      exact ⟨RecordCurrent.within fun key => (hcurrent key).2.2.1,
        RecordCurrent.within fun key => (hcurrent key).2.2.2⟩
    · rw [if_neg hany] at hload
      cases hload
      refine hunreplayed (.inr fun key hkey => ?_)
      by_contra hne
      exact hany (List.any_eq_true.2 ⟨key, hkey, decide_eq_true hne⟩)

/-- A hot load returns no directory record that is not stored. -/
theorem HotSession.Invariant.loadHot_within {s : HotSession} (h : s.Invariant env base batches)
    (hload : loadHotProfiledForDirectories env s.files keys replayMs = .ok hot) :
    DirectoriesWithin hot.toIndexMaps (base.applyOps batches.flatten) ∧ hot.pendingOps = [] := by
  unfold loadHotProfiledForDirectories at hload
  cases hsnapshot : s.files.snapshot with
  | none =>
    rw [hsnapshot] at hload
    cases hload
    exact ⟨⟨nofun, nofun⟩, rfl⟩
  | some snapshot =>
    rw [hsnapshot] at hload
    obtain ⟨_, _, hload⟩ := bind_eq_ok.1 hload
    obtain ⟨index, hrecords, hload⟩ := bind_eq_ok.1 hload
    obtain ⟨⟨valid, linked⟩, hlinks, hload⟩ := bind_eq_ok.1 hload
    have hcurrent := loadHotRecords_current h.records (fun _ hkey => hkey)
      (indexCurrent_empty keys _ _) hrecords
    obtain ⟨hdirectories, huntracked⟩ := loadHotGitlinks_directories hlinks
    have hlinked : IndexCurrent linked keys (base.applyOps batches.flatten) batches.flatten := by
      intro key
      rw [hdirectories, huntracked]
      exact hcurrent key
    obtain ⟨replayed, hreplay, hload⟩ := bind_eq_ok.1 hload
    cases hload
    have hwithin := replayHotJournal_within (dropRoot_current hlinked valid) h.stored.journal hreplay
    exact ⟨hwithin, rfl⟩

theorem RecordCurrent.append (h : RecordCurrent key record m edits)
    (hroot : key = "" → SortedMap.lastEdit key more = none) :
    RecordCurrent key record (m.replay more) (edits ++ more) := by
  intro entry hentry
  rw [SortedMap.get_replay, SortedMap.lastEdit_append]
  cases hlast : SortedMap.lastEdit key more with
  | some last =>
    refine .inr ⟨fun hkey => ?_, nofun⟩
    rw [hroot hkey] at hlast
    cases hlast
  | none => exact h entry hentry

theorem removeDirectory_mem {ops : List JournalOp}
    (h : (key, none) ∈ ops.filterMap JournalOp.directoryEdit) : .removeDirectory key ∈ ops := by
  obtain ⟨op, hop, hedit⟩ := List.mem_filterMap.1 h
  cases op with
  | removeDirectory path =>
    cases hedit
    exact hop
  | _ => cases hedit

theorem removeUntrackedDirectory_mem {ops : List JournalOp}
    (h : (key, none) ∈ ops.filterMap JournalOp.untrackedEdit) : .removeUntrackedDirectory key ∈ ops := by
  obtain ⟨op, hop, hedit⟩ := List.mem_filterMap.1 h
  cases op with
  | removeUntrackedDirectory path =>
    cases hedit
    exact hop
  | _ => cases hedit

theorem lastEdit_of_absent {m start : SortedMap String ν} (hsettled : m = start.replay edits)
    (habsent : ∀ entry, m.get key ≠ some entry) (hremoval : (key, none) ∉ edits) :
    SortedMap.lastEdit key edits = none := by
  cases hlast : SortedMap.lastEdit key edits with
  | none => rfl
  | some last =>
    cases last with
    | none => exact absurd (SortedMap.mem_of_lastEdit hlast) hremoval
    | some entry =>
      refine absurd ?_ (habsent entry)
      rw [hsettled, SortedMap.get_replay, hlast, getD_some]

theorem recordsFit (h : index.toIndexMaps.Fits) : ∀ key ∈ hotKeys index, TextFits key ∧
    ∀ entry ∈ index.untrackedDirectories.get key, entry.Fits := by
  intro key hkey
  constructor
  · rcases mem_hotKeys.1 hkey with ⟨entry, hentry⟩ | ⟨entry, hentry⟩
    · exact h.directories.2 _ (SortedMap.get_eq_some.1 hentry)
    · exact (h.untrackedDirectories.2 _ (SortedMap.get_eq_some.1 hentry)).1
  · intro entry hentry
    exact (h.untrackedDirectories.2 _ (SortedMap.get_eq_some.1 hentry)).2

theorem HotAppendSafe.records_current {ops : List JournalOp} (h : HotAppendSafe env index files)
    (hcurrent : RecordsCurrent env files stored ops) (hindex : WithinStored index stored)
    (hrewritten : ∀ name, Rewritten env index (hotKeys index) files after name) :
    RecordsCurrent env after (stored.applyOps index.pendingOps) (ops ++ index.pendingOps) := by
  intro name bytes hbytes
  rcases hrewritten name with ⟨hsame, hnone⟩ | ⟨key, hkey, rfl, cleanTree, hwritten⟩
  · rw [hsame] at hbytes
    obtain ⟨key, directory, untracked, cleanTree, hname, hrecord, hfits, huntracked, hdirectory,
      huntrackedCurrent⟩ := hcurrent name bytes hbytes
    have habsent : key ∉ hotKeys index := fun hkey => hnone key hkey hname.symm
    have hroot : key = "" → .removeDirectory "" ∉ index.pendingOps ∧
        .removeUntrackedDirectory "" ∉ index.pendingOps := by
      rintro rfl
      rcases h.root with hmissing | ⟨key, hkey, hrewrites⟩ | hkept
      · rw [← hname, hbytes] at hmissing
        cases hmissing
      · exact absurd (hrewrites.trans hname.symm) (hnone key hkey)
      · exact hkept
    obtain ⟨start, hstart⟩ := hindex.settled
    rw [applyOps_eq start] at hstart
    rw [applyOps_eq stored, List.filterMap_append, List.filterMap_append]
    refine ⟨key, directory, untracked, cleanTree, hname, hrecord, hfits, huntracked, ?_, ?_⟩
    · apply hdirectory.append
      intro hkey
      apply lastEdit_of_absent (congrArg IndexMaps.directories hstart)
      · intro entry hentry
        exact habsent (mem_hotKeys.2 (.inl ⟨entry, hentry⟩))
      · intro hmem
        exact (hroot hkey).1 (hkey ▸ removeDirectory_mem hmem)
    · apply huntrackedCurrent.append
      intro hkey
      apply lastEdit_of_absent (congrArg IndexMaps.untrackedDirectories hstart)
      · intro entry hentry
        exact habsent (mem_hotKeys.2 (.inr ⟨entry, hentry⟩))
      · intro hmem
        exact (hroot hkey).2 (hkey ▸ removeUntrackedDirectory_mem hmem)
  · rw [hbytes, some.injEq] at hwritten
    obtain ⟨hfits, huntracked⟩ := h.records key hkey
    exact ⟨key, _, _, cleanTree, rfl, hwritten, hfits, huntracked,
      fun entry hentry => .inl (hindex.within.1 key entry hentry),
      fun entry hentry => .inl (hindex.within.2 key entry hentry)⟩

theorem DropSafe.records_current (h : DropSafe env index files)
    (hrewritten : ∀ name, Rewritten env index (hotKeys index) files after name) :
    RecordsCurrent env after index.toIndexMaps [] := by
  intro name bytes hbytes
  rcases hrewritten name with ⟨hsame, hnone⟩ | ⟨key, hkey, rfl, cleanTree, hwritten⟩
  · rw [hsame] at hbytes
    obtain ⟨key, hkey, hname⟩ := h.rewrites name (by rw [hbytes]; exact nofun)
    exact absurd hname (hnone key hkey)
  · rw [hbytes, some.injEq] at hwritten
    obtain ⟨hfits, huntracked⟩ := recordsFit h.fits key hkey
    exact ⟨key, _, _, cleanTree, rfl, hwritten, hfits, huntracked,
      fun entry hentry => .inl hentry, fun entry hentry => .inl hentry⟩

theorem WithinStored.loaded (hpending : index.pendingOps = [])
    (h : DirectoriesWithin index.toIndexMaps stored) : WithinStored index stored :=
  ⟨by rw [hpending]; exact h, index.toIndexMaps, by rw [hpending]; rfl⟩

theorem DropSafe.step (h : DropSafe env index files) (markClean : Bool)
    (hsettled : ∃ start : IndexMaps, index.toIndexMaps = start.applyOps index.pendingOps)
    (hrun : runScript (saveSnapshotProfiled env index files) files = (after, .ok ())) :
    HotSession.Invariant env ⟨after, some (if markClean then index.markClean else index)⟩
      index.toIndexMaps [] := by
  obtain ⟨hsnapshot, hjournal⟩ := runScript_saveSnapshot env hrun
  obtain ⟨start, hstart⟩ := hsettled
  have hsame : index.toIndexMaps.applyOps index.pendingOps = index.toIndexMaps := by
    rw [hstart, applyOps_applyOps]
  refine ⟨⟨h.fits, .inl hsnapshot, ?_⟩, ?_, ?_⟩
  · rw [hjournal]
    exact .inl ⟨rfl, rfl⟩
  · exact h.records_current fun name => rewritten_saveSnapshot env hrun name
  · rintro kept ⟨⟩
    have hwithin : WithinStored index index.toIndexMaps :=
      ⟨by rw [hsame]; exact .refl _, start, hstart⟩
    exact hwithin.saved markClean (.refl _) hsame

theorem HotSession.Invariant.forget {s : HotSession} (h : s.Invariant env base batches) :
    HotSession.Invariant env ⟨s.files, none⟩ base batches :=
  ⟨h.stored, h.records, nofun⟩

theorem HotAppendSafe.step {s : HotSession} (h : HotAppendSafe env index s.files) (markClean : Bool)
    (hinv : s.Invariant env base batches) (hindex : WithinStored index (base.applyOps batches.flatten))
    (hsome : s.files.snapshot ≠ none)
    (hrun : runScript (writeHotSidecars env index ++ appendToJournal index s.files) s.files =
      (after, .ok ())) :
    HotSession.Invariant env ⟨after, some (if markClean then index.markClean else index)⟩ base
      (batches ++ [index.pendingOps]) := by
  obtain ⟨hsnapshot, hjournal⟩ := runScript_appendToJournal env hrun
  have hstored : base.applyOps (batches ++ [index.pendingOps]).flatten =
      (base.applyOps batches.flatten).applyOps index.pendingOps := by
    rw [List.flatten_append, applyOps_append, List.flatten_singleton]
  refine ⟨⟨hinv.stored.fits, ?_, ?_⟩, ?_, ?_⟩
  · rcases hinv.stored.snapshot with hsame | ⟨hnone, _⟩
    · exact .inl (hsnapshot.trans hsame)
    · exact absurd hnone hsome
  · rw [hjournal]
    exact hinv.stored.journal.append h.ops
  · rw [hstored, List.flatten_append, List.flatten_singleton]
    exact h.records_current hinv.records hindex fun name => rewritten_append env hrun name
  · rintro kept ⟨⟩
    rw [hstored]
    have hwithin : WithinStored index ((base.applyOps batches.flatten).applyOps index.pendingOps) :=
      ⟨by rw [applyOps_applyOps]; exact hindex.within, hindex.settled⟩
    exact hwithin.saved markClean hindex.within (applyOps_applyOps _ _)

theorem seededIndex_pendingOps (seeds : List (String × IndexEntry))
    (directories : List (String × DirectoryCacheEntry)) :
    (seededIndex seeds directories).pendingOps = [] := by
  have hfiles : ∀ (seeds : List (String × IndexEntry)) (index : WorktreeIndex),
      (seeds.foldl (fun index entry => index.insertSeeded entry.1 entry.2) index).pendingOps =
        index.pendingOps := by
    intro seeds
    induction seeds with
    | nil => exact fun _ => rfl
    | cons seed seeds ih => exact fun index => ih _
  have hdirectories : ∀ (directories : List (String × DirectoryCacheEntry)) (index : WorktreeIndex),
      (directories.foldl (fun index entry => index.insertSeededDirectory entry.1 entry.2) index).pendingOps =
        index.pendingOps := by
    intro directories
    induction directories with
    | nil => exact fun _ => rfl
    | cons directory directories ih => exact fun index => ih _
  exact (hdirectories directories _).trans (hfiles seeds _)

theorem HotSession.Invariant.step {s next : HotSession} (h : s.Invariant env base batches)
    (hsafe : s.Safe env action) (hstep : s.step env action = some next) :
    ∃ base batches, next.Invariant env base batches := by
  cases action with
  | edit edit =>
    cases hstep
    refine ⟨base, batches, h.stored, h.records, fun index hindex => ?_⟩
    obtain ⟨before, hbefore, rfl⟩ := mem_map.1 hindex
    exact (h.index before hbefore).edit edit
  | load replayMs =>
    cases hstep
    refine ⟨base, batches, h.stored, h.records, ?_⟩
    rintro index ⟨⟩
    rw [loadProfiled, h.stored.loadMaps]
    exact .loaded rfl (.refl _)
  | loadHot directoryKeys replayMs =>
    cases hstep
    refine ⟨base, batches, h.stored, h.records, ?_⟩
    rintro index ⟨⟩
    cases hload : loadHotProfiledForDirectories env s.files directoryKeys replayMs with
    | error e => exact .new _
    | ok hot =>
      obtain ⟨hwithin, hpending⟩ := h.loadHot_within hload
      exact .loaded hpending hwithin
  | save kind markClean =>
    rw [HotSession.step] at hstep
    cases hindex : kind.saved s.index with
    | none =>
      rw [hindex] at hstep
      cases hstep
      exact ⟨base, batches, h⟩
    | some index =>
      have hsaved := hsafe index hindex
      rw [hindex] at hstep
      dsimp only at hstep
      split at hstep
      · rename_i after hrun
        cases hstep
        cases kind with
        | seedSnapshot seeds directories =>
          cases hindex
          have hsettled : ∃ start : IndexMaps, (seededIndex seeds directories).toIndexMaps =
              start.applyOps (seededIndex seeds directories).pendingOps :=
            ⟨_, by rw [seededIndex_pendingOps]; rfl⟩
          exact ⟨_, _, (DropSafe.step hsaved true hsettled hrun).forget⟩
        | saveSnapshot => exact ⟨_, _, DropSafe.step hsaved markClean (h.index index hindex).settled hrun⟩
        | save =>
          by_cases hempty : index.pendingOps.isEmpty
          · have hscript : SaveKind.script env .save index s.files = [] := if_pos hempty
            rw [hscript] at hrun
            cases hrun
            refine ⟨base, batches, h.stored, h.records, ?_⟩
            rintro kept ⟨⟩
            have hwithin := h.index index hindex
            have hnone := List.isEmpty_iff.1 hempty
            apply hwithin.saved markClean
            · have hdirectories := hwithin.within
              rwa [hnone, applyOps_nil] at hdirectories
            · rw [hnone, applyOps_nil]
          · rw [SaveKind.HotSafe, if_neg hempty] at hsaved
            by_cases hcompact : (compactReason index s.files).isSome
            · have hscript : SaveKind.script env .save index s.files =
                  saveSnapshotProfiled env index s.files :=
                (if_neg hempty).trans (if_pos hcompact)
              rw [hscript] at hrun
              rw [if_pos hcompact] at hsaved
              exact ⟨_, _, hsaved.step markClean (h.index index hindex).settled hrun⟩
            · have hscript : SaveKind.script env .save index s.files =
                  writeHotSidecars env index ++ appendToJournal index s.files :=
                (if_neg hempty).trans (if_neg hcompact)
              rw [hscript] at hrun
              rw [if_neg hcompact] at hsaved
              have hsome := compactReason_snapshot (eq_false_of_ne_true hcompact)
              exact ⟨_, _, hsaved.step markClean h (h.index index hindex) hsome hrun⟩
      · cases hstep

theorem HotSession.Invariant.run {s next : HotSession} (h : s.Invariant env base batches)
    (hsafe : s.SafeRun env actions) (hrun : s.run env actions = some next) :
    ∃ base batches, next.Invariant env base batches := by
  induction actions generalizing s base batches with
  | nil =>
    cases hrun
    exact ⟨base, batches, h⟩
  | cons action actions ih =>
    rw [HotSession.run, List.foldlM_cons] at hrun
    obtain ⟨mid, hmid, hrun⟩ := bind_eq_some_iff.1 hrun
    obtain ⟨base', batches', h'⟩ := h.step hsafe.1 hmid
    exact ih h' (hsafe.2 mid hmid) hrun

theorem HotSession.Invariant.hotAgrees {s : HotSession} (h : s.Invariant env base batches) :
    s.HotAgrees env := by
  intro directoryKeys replayMs replayMs' hot hload
  obtain ⟨hwithin, _⟩ := h.loadHot_within hload
  refine ⟨_, bind_eq_ok.2 ⟨_, h.stored.loadMaps, rfl⟩, fun key _ => ?_⟩
  exact ⟨hwithin.1 key, hwithin.2 key⟩

theorem HotSession.invariant_start : HotSession.Invariant env {} {} [] := by
  refine ⟨⟨by decide, .inr ⟨rfl, rfl, rfl⟩, .inl ⟨rfl, rfl⟩⟩, ?_, nofun⟩
  intro name bytes hbytes
  cases hbytes

end Invariant

section Result

/-- While every save that drops the journal rewrites each record file there is, and the root's record
is not removed behind its file, a hot load agrees with the full one. -/
theorem hotAgrees_of_safeRun (env : IndexEnv) (actions : List HotAction) (s : HotSession)
    (hsafe : HotSession.SafeRun env {} actions) (hrun : HotSession.run env {} actions = some s) :
    s.HotAgrees env := by
  obtain ⟨base, batches, h⟩ := HotSession.invariant_start.run hsafe hrun
  exact h.hotAgrees

def removeAndRematerialize : List HotAction :=
  [.load 0, .edit (.insertDirectory "src" sampleDirectory), .save .save true,
    .edit (.removeDirectory "src"), .save .save true,
    .save (.seedSnapshot [("a", sampleEntry)] []) true]

theorem hotAgrees_afterAppend : ∃ s, HotSession.run sampleEnv {} (removeAndRematerialize.take 3 ++
    [.edit (.insert "a" sampleEntry), .save .save true]) = some s ∧ s.HotAgrees sampleEnv := by
  refine ⟨_, rfl, hotAgrees_of_safeRun sampleEnv (removeAndRematerialize.take 3 ++
    [.edit (.insert "a" sampleEntry), .save .save true]) _ ?_ rfl⟩
  refine ⟨trivial, ?_⟩
  rintro _ ⟨⟩
  refine ⟨trivial, ?_⟩
  rintro _ ⟨⟩
  refine ⟨?_, ?_⟩
  · rintro index ⟨⟩
    change DropSafe sampleEnv _ _
    exact ⟨by decide, fun name h => absurd rfl h⟩
  · rintro _ ⟨⟩
    refine ⟨trivial, ?_⟩
    rintro _ ⟨⟩
    refine ⟨?_, fun _ _ => trivial⟩
    rintro index ⟨⟩
    change HotAppendSafe sampleEnv _ _
    exact ⟨by decide, by decide, .inr (.inr ⟨nofun, nofun⟩)⟩

/-- The record file that outlived the removal is returned as clean. -/
theorem hotAgrees_staleRecord : ¬∀ env actions s, HotSession.run env {} actions = some s →
    s.HotAgrees env := by
  intro h
  specialize h sampleEnv removeAndRematerialize
  have hsnapshot : (HotSession.run sampleEnv {} removeAndRematerialize).bind (·.files.snapshot) =
      some (snapshotBytes (seededIndex [("a", sampleEntry)] []).toIndexMaps) := rfl
  have hjournal : (HotSession.run sampleEnv {} removeAndRematerialize).bind (·.files.journal) = none := rfl
  have hrecord : (HotSession.run sampleEnv {} removeAndRematerialize).bind
      (·.files.hotRecords (hotDirectoryRecordName sampleEnv "src")) =
        some (frameHotRecord (hotDirectoryBody "src" (some sampleDirectory) none none)) := rfl
  have hgitlinks : (HotSession.run sampleEnv {} removeAndRematerialize).bind (·.files.hotGitlinks) =
      some (frameHotRecord (hotGitlinksBody (seededIndex [("a", sampleEntry)] []))) := rfl
  cases hrun : HotSession.run sampleEnv {} removeAndRematerialize with
  | none =>
    rw [hrun] at hsnapshot
    cases hsnapshot
  | some s =>
    specialize h s hrun
    rw [hrun, bind_some] at hsnapshot hjournal hrecord hgitlinks
    have hload : loadHotDirectoryRecord sampleEnv s.files "src" true =
        .ok (some ⟨some sampleDirectory, none, none⟩) :=
      loadHotDirectoryRecord_own sampleEnv true hrecord (by decide) nofun
    have hrecords : loadHotRecords sampleEnv s.files ["src"] { hotLoaded := true } =
        .ok (addHotRecord { hotLoaded := true } "src" (some ⟨some sampleDirectory, none, none⟩)) := by
      rw [loadHotRecords, List.foldlM_cons]
      change (loadHotDirectoryRecord sampleEnv s.files "src" true).map _ >>= _ = _
      rw [hload]
      rfl
    have hlinks : ∀ index, loadHotGitlinks s.files index = .ok (false, index) := by
      intro index
      rw [loadHotGitlinks, hgitlinks, bind_some, verifiedHotBody_frameHotRecord]
      rfl
    have hreplay : ∀ index, replayHotJournal s.files ["src"] 0 index = .ok index := by
      intro index
      rw [replayHotJournal, hjournal]
    have hhot : loadHotProfiledForDirectories sampleEnv s.files ["src"] 0 = .ok (dropRootWithoutGitlinks
        false (addHotRecord { hotLoaded := true } "src" (some ⟨some sampleDirectory, none, none⟩))).markClean := by
      rw [loadHotProfiledForDirectories, hsnapshot]
      refine bind_eq_ok.2 ⟨(), checkSnapshotHeader_snapshotBytes _, ?_⟩
      refine bind_eq_ok.2 ⟨_, hrecords, ?_⟩
      refine bind_eq_ok.2 ⟨_, hlinks _, ?_⟩
      exact bind_eq_ok.2 ⟨_, hreplay _, rfl⟩
    have hdirectory : (dropRootWithoutGitlinks false (addHotRecord { hotLoaded := true } "src"
        (some ⟨some sampleDirectory, none, none⟩))).markClean.directories.get "src" =
          some sampleDirectory := by decide
    obtain ⟨full, hfull, hagrees⟩ := h ["src"] 0 0 _ hhot
    have hsame := (hagrees "src" (.head _)).1 _ hdirectory
    have hmaps : loadMaps sampleEnv s.files = .ok (seededIndex [("a", sampleEntry)] []).toIndexMaps := by
      rw [loadMaps_eq sampleEnv (by decide) hsnapshot, hjournal]
      rfl
    rw [loadProfiled, hmaps] at hfull
    cases hfull
    cases hsame

end Result

end Heddle.Worktree
