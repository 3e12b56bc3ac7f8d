import Heddle.Worktree.Interruption

namespace Heddle.Worktree
open Heddle.Lib
open List hiding after count keys mem_keys
open Heddle.Lib.MsgPack (beBytes ofBeBytes)

section Records

def verifiedHotBody (bytes : Bytes) : Option Bytes :=
  if bytes.length < 4 then none
  else
    let body := bytes.take (bytes.length - 4)
    if (crc32 body).toNat = ofBeBytes (bytes.drop (bytes.length - 4)) then some body else none

/-- A reader of hot records ends early in two ways: `none` takes the record for absent, an error is
an error of the load. -/
abbrev HotReader (α : Type) := Reader (Option IndexError) α

def strict (read : Reader IndexError α) : HotReader α := fun bytes => mapErr some (read bytes)

def readHotHeader (message : String) : HotReader Unit := do
  let magic ← takeBytes none 8
  liftRead (refuse (magic ≠ hotRecordMagic) none)
  let version ← strict (takeU32 (truncated message))
  liftRead (refuse (version.toNat ≠ hotRecordVersion) none)

def readOptional (read : HotReader α) : HotReader (Option α) := do
  let present ← takeByte none
  if present ≠ 0 then (do return some (← read)) else return none

structure HotDirectoryRecord where
  directory : Option DirectoryCacheEntry
  untracked : Option UntrackedDirectoryCacheEntry
  cleanTree : Option (Tree ContentHash)

variable (env : IndexEnv)

def readCleanTree (decodeCleanTree : Bool) : HotReader (Option (Tree ContentHash)) := do
  let len ← strict (takeU32 (truncated "hot tree length"))
  let encoded ← takeBytes (some (truncated "hot tree")) len.toNat
  if decodeCleanTree then liftRead (mapErr some ((env.treeFromSlice encoded).map some)) else pure none

def readHotDirectoryRecord (total : Nat) (expectedKey : String) (decodeCleanTree : Bool) :
    HotReader HotDirectoryRecord := do
  readHotHeader "hot record version"
  let key ← strict (readString total)
  liftRead (refuse (key ≠ expectedKey) none)
  let directory ← readOptional (strict readDirectoryEntryPayload)
  let untracked ← readOptional (strict (readUntrackedDirectoryEntryPayload total))
  let cleanTree ← readOptional (readCleanTree env decodeCleanTree)
  return ⟨directory, untracked, cleanTree.join⟩

def wholeRecord (read : HotReader α) (body : Bytes) : Except IndexError (Option α) :=
  match read body with
  | .ok (a, []) => .ok (some a)
  | .ok (_, _ :: _) => .ok none
  | .error none => .ok none
  | .error (some e) => .error e

def loadHotDirectoryRecord (files : Files) (expectedKey : String) (decodeCleanTree : Bool) :
    Except IndexError (Option HotDirectoryRecord) :=
  match (files.hotRecords (hotDirectoryRecordName env expectedKey)).bind verifiedHotBody with
  | none => .ok none
  | some body =>
    if body.length < 12 then .ok none
    else wholeRecord (readHotDirectoryRecord env body.length expectedKey decodeCleanTree) body

end Records

section Gitlinks

def insertGitlinks (gitlinks : SortedMap String String) (links : List (String × String)) :
    SortedMap String String :=
  gitlinks.replay (links.map fun link => (link.1, some link.2))

def readHotGitlink (total : Nat) : HotReader (String × String) := do
  let path ← strict (readString total)
  let target ← strict (readString total)
  return (path, target)

def readHotGitlinksHeader : HotReader (Option ContentHash × UInt32) := do
  readHotHeader "hot gitlink version"
  let hasRoot ← takeByte none
  let root ← strict readHash
  liftRead (refuse (hasRoot = 0) none)
  let count ← strict (takeU32 (truncated "hot gitlink count"))
  return (some root, count)

/-- Whether the summary is valid, and the index with what was read of it. -/
def loadHotGitlinks (files : Files) (index : WorktreeIndex) : Except IndexError (Bool × WorktreeIndex) :=
  match files.hotGitlinks.bind verifiedHotBody with
  | none => .ok (false, index)
  | some body =>
    if body.length < 12 + 1 + 32 + 4 then .ok (false, index)
    else
      match readHotGitlinksHeader body with
      | .error none => .ok (false, index)
      | .error (some e) => .error e
      | .ok ((root, count), rest) =>
        match takeMany (readHotGitlink body.length) count.toNat rest with
        | .error none => .ok (false, index)
        | .error (some e) => .error e
        | .ok (links, rest) => .ok (rest.isEmpty, { index with
            gitlinksTree := root
            gitlinks := insertGitlinks index.gitlinks links })

end Gitlinks

section Load
variable (env : IndexEnv)

def checkSnapshotHeader (snapshot : Bytes) : Except IndexError Unit := do
  refuse (snapshot.length < 12) (.io "failed to fill whole buffer")
  refuse (snapshot.take 8 ≠ indexMagic) (.invalidFormat "missing magic bytes")
  let version := ofBeBytes ((snapshot.drop 8).take 4)
  refuse (version ≠ indexVersion) (.versionMismatch indexVersion version)

def putRecord (m : SortedMap String ν) (key : String) : Option ν → SortedMap String ν
  | some record => m.put key (some record)
  | none => m

def addHotRecord (index : WorktreeIndex) (key : String) : Option HotDirectoryRecord → WorktreeIndex
  | none => index
  | some record => { index with
      directories := putRecord index.directories key record.directory
      untrackedDirectories := putRecord index.untrackedDirectories key record.untracked
      cleanTrees := putRecord index.cleanTrees key record.cleanTree }

def loadHotRecords (files : Files) (keys : List String) (index : WorktreeIndex) :
    Except IndexError WorktreeIndex :=
  keys.foldlM
    (fun index key => (loadHotDirectoryRecord env files key (key ≠ "")).map (addHotRecord index key)) index

/-- The journal is replayed for some sets of keys only; `replayMs` is what the clock said of it. -/
def replayHotJournal (files : Files) (directoryKeys : List String) (replayMs : Nat)
    (index : WorktreeIndex) : Except IndexError WorktreeIndex :=
  match files.journal with
  | none => .ok index
  | some journal =>
    if directoryKeys.any (· ≠ "") then
      (applyJournal index.toIndexMaps journal).map fun maps =>
        { index with toIndexMaps := maps, lastJournalReplayMs := replayMs }
    else .ok index

def dropRootWithoutGitlinks (gitlinksValid : Bool) (index : WorktreeIndex) : WorktreeIndex :=
  if gitlinksValid then index else { index with directories := index.directories.put "" none }

def loadHotProfiledForDirectories (files : Files) (directoryKeys : List String) (replayMs : Nat) :
    Except IndexError WorktreeIndex :=
  match files.snapshot with
  | none => .ok .new
  | some snapshot => do
    checkSnapshotHeader snapshot
    let index ← loadHotRecords env files directoryKeys { hotLoaded := true }
    let (gitlinksValid, index) ← loadHotGitlinks files index
    let index ← replayHotJournal files directoryKeys replayMs
      (dropRootWithoutGitlinks gitlinksValid index)
    return index.markClean

end Load

section Readers

theorem verifiedHotBody_frameHotRecord (body : Bytes) :
    verifiedHotBody (frameHotRecord body) = some body := by
  have hlen : (frameHotRecord body).length = body.length + 4 := by
    rw [frameHotRecord, length_append, length_beBytes]
  have hsub : body.length + 4 - 4 = body.length := rfl
  rw [verifiedHotBody, if_neg (by omega), hlen, hsub]
  dsimp only
  rw [frameHotRecord, take_left, drop_left,
    MsgPack.ofBeBytes_beBytes (UInt32.toNat_lt (crc32 body)), if_pos rfl]

theorem reads_strict {read : Reader IndexError α} (h : Reads read bytes a) :
    Reads (strict read) bytes a := by
  intro rest
  rw [Worktree.strict, h rest]
  rfl

theorem reads_readOptional {read : HotReader α} (o : Option α)
    (h : ∀ a ∈ o, Reads read (write a) a) :
    Reads (readOptional read) (writeOptional write o) o := by
  cases o with
  | none =>
    apply (Reads.takeByte _ 0).bind
    exact Reads.pure none
  | some a =>
    apply (Reads.takeByte _ 1).bind
    exact (h a rfl).bind_nil (Reads.pure (some a))

theorem reads_readHotHeader (message : String) : Reads (readHotHeader message) hotHeader () := by
  have hversion : Reads (takeU32 (truncated message)) (beBytes 4 hotRecordVersion) 1 :=
    reads_length (by decide) _
  have hmagic : Reads (liftRead (refuse (hotRecordMagic ≠ hotRecordMagic) (none : Option IndexError)))
      [] () := Reads.lift (refuse_eq_ok.2 (not_not_intro rfl))
  apply (Reads.takeBytes none (by decide)).bind
  apply hmagic.bind
  apply (reads_strict hversion).bind_nil
  exact Reads.lift (refuse_eq_ok.2 (not_not_intro rfl))

theorem reads_hotDirectoryRecord (env : IndexEnv) (total : Nat) (decodeCleanTree : Bool)
    {key : String} {directory : Option DirectoryCacheEntry}
    {untracked : Option UntrackedDirectoryCacheEntry} (hkey : TextFits key)
    (huntracked : ∀ entry ∈ untracked, entry.Fits) :
    Reads (readHotDirectoryRecord env total key decodeCleanTree)
      (hotDirectoryBody key directory untracked none) ⟨directory, untracked, none⟩ := by
  apply (reads_readHotHeader _).bind
  apply (reads_strict (reads_readString total hkey)).bind
  apply (Reads.lift (a := ()) (refuse_eq_ok.2 (not_not_intro rfl))).bind
  apply (reads_readOptional directory fun entry _ => reads_strict (reads_directoryEntryPayload entry)).bind
  apply (reads_readOptional untracked fun entry hentry =>
    reads_strict (reads_untrackedDirectoryEntryPayload total (huntracked entry hentry))).bind
  have hnone : Reads (readOptional (readCleanTree env decodeCleanTree))
      (writeOptional (fun encoded => beBytes 4 encoded.length ++ encoded) none) none :=
    (Reads.takeByte none 0).bind (Reads.pure none)
  exact hnone.bind_nil (Reads.pure _)

theorem reads_inj {read : Reader ε α} (h : Reads read bytes a)
    (hread : read (bytes ++ rest) = .ok (a', rest')) : a' = a ∧ rest' = rest := by
  rw [h rest] at hread
  cases hread
  exact ⟨rfl, rfl⟩

theorem readHotDirectoryRecord_written (env : IndexEnv) (total : Nat) (decodeCleanTree : Bool)
    (hkey : TextFits key) (huntracked : ∀ entry ∈ untracked, entry.Fits)
    (h : readHotDirectoryRecord env total expectedKey decodeCleanTree
      (hotDirectoryBody key directory untracked cleanTree) = .ok (record, rest)) :
    key = expectedKey ∧ record.directory = directory ∧ record.untracked = untracked := by
  obtain ⟨_, _, hheader, h⟩ := read_bind_ok_iff.1 h
  obtain ⟨-, rfl⟩ := reads_inj (reads_readHotHeader _) hheader
  obtain ⟨_, _, hread, h⟩ := read_bind_ok_iff.1 h
  obtain ⟨rfl, rfl⟩ := reads_inj (reads_strict (reads_readString total hkey)) hread
  obtain ⟨_, _, hexpected, h⟩ := read_bind_ok_iff.1 h
  obtain ⟨hsame, rfl⟩ := liftRead_ok_iff.1 hexpected
  obtain ⟨_, _, hread, h⟩ := read_bind_ok_iff.1 h
  obtain ⟨rfl, rfl⟩ := reads_inj (reads_readOptional directory fun entry _ =>
    reads_strict (reads_directoryEntryPayload entry)) hread
  obtain ⟨_, _, hread, h⟩ := read_bind_ok_iff.1 h
  obtain ⟨rfl, rfl⟩ := reads_inj (reads_readOptional untracked fun entry hentry =>
    reads_strict (reads_untrackedDirectoryEntryPayload total (huntracked entry hentry))) hread
  obtain ⟨_, _, _, h⟩ := read_bind_ok_iff.1 h
  obtain ⟨rfl, -⟩ := read_pure_ok_iff.1 h
  exact ⟨not_not.1 (refuse_eq_ok.1 hsame), rfl, rfl⟩

end Readers

section Load
variable (env : IndexEnv) {files : Files} {maps : IndexMaps}

theorem checkSnapshotHeader_snapshotBytes (maps : IndexMaps) :
    checkSnapshotHeader (snapshotBytes maps) = .ok () := by
  have hmagic : indexMagic.length = 8 := by decide
  have hlen : ¬(snapshotBytes maps).length < 12 := by
    simp only [snapshotBytes, length_append, length_beBytes, hmagic]
    omega
  have hversion : ofBeBytes (((snapshotBytes maps).drop 8).take 4) = indexVersion := by
    rw [snapshotBytes, drop_left' hmagic, take_left' (length_beBytes _ _)]
    exact MsgPack.ofBeBytes_beBytes (by decide)
  refine bind_eq_ok.2 ⟨(), refuse_eq_ok.2 hlen, ?_⟩
  refine bind_eq_ok.2 ⟨(), refuse_eq_ok.2 (not_not_intro (take_left' hmagic)), ?_⟩
  exact refuse_eq_ok.2 (not_not_intro hversion)

theorem loadHotDirectoryRecord_own (decodeCleanTree : Bool) {key : String}
    {directory : Option DirectoryCacheEntry} {untracked : Option UntrackedDirectoryCacheEntry}
    (hfile : files.hotRecords (hotDirectoryRecordName env key) =
      some (frameHotRecord (hotDirectoryBody key directory untracked none)))
    (hkey : TextFits key) (huntracked : ∀ entry ∈ untracked, entry.Fits) :
    loadHotDirectoryRecord env files key decodeCleanTree = .ok (some ⟨directory, untracked, none⟩) := by
  have hlong : ¬(hotDirectoryBody key directory untracked none).length < 12 := by
    have hheader : hotHeader.length = 12 := by decide
    rw [hotDirectoryBody, length_append, hheader]
    omega
  have hread := @reads_hotDirectoryRecord env (hotDirectoryBody key directory untracked none).length
    decodeCleanTree key directory untracked hkey huntracked []
  rw [append_nil] at hread
  rw [loadHotDirectoryRecord, hfile, Option.bind_some, verifiedHotBody_frameHotRecord]
  dsimp only
  rw [if_neg hlong, wholeRecord, hread]

end Load

section Written
variable (env : IndexEnv) {index : WorktreeIndex} {files after : Files}

theorem mem_hotKeys : key ∈ hotKeys index ↔ (∃ entry, index.directories.get key = some entry) ∨
    ∃ entry, index.untrackedDirectories.get key = some entry := by
  have hinsert : ∀ keys : List String, (∃ value, (insertAll (keys.map (·, ()))).get key = some value) ↔
      key ∈ keys := by
    intro keys
    rw [insertAll, SortedMap.get_replay, map_map]
    constructor
    · rintro ⟨value, hvalue⟩
      cases hlast : SortedMap.lastEdit key (keys.map ((fun entry => (entry.1, some entry.2)) ∘ (·, ()))) with
      | none =>
        rw [hlast] at hvalue
        cases hvalue
      | some last =>
        obtain ⟨key', hkey', heq⟩ := mem_map.1 (SortedMap.mem_of_lastEdit hlast)
        cases heq
        exact hkey'
    · intro hkey
      obtain ⟨last, hlast⟩ := SortedMap.lastEdit_isSome
        (mem_map.2 ⟨key, hkey, rfl⟩ : (key, some ()) ∈
          keys.map ((fun entry => (entry.1, some entry.2)) ∘ (·, ()))) rfl
      rw [hlast]
      obtain ⟨key', _, heq⟩ := mem_map.1 (SortedMap.mem_of_lastEdit hlast)
      cases heq
      exact ⟨(), rfl⟩
  rw [hotKeys, mem_keys, hinsert, mem_append, mem_keys, mem_keys]

/-- What the record file of one of these names holds after the records of `keys` were written. -/
def Rewritten (index : WorktreeIndex) (keys : List String) (before after : Files) (name : ContentHash) :
    Prop :=
  (after.hotRecords name = before.hotRecords name ∧ ∀ key ∈ keys, hotDirectoryRecordName env key ≠ name) ∨
    ∃ key ∈ keys, hotDirectoryRecordName env key = name ∧ ∃ cleanTree, after.hotRecords name =
      some (frameHotRecord (hotDirectoryBody key (index.directories.get key)
        (index.untrackedDirectories.get key) cleanTree))

theorem runScript_writeHotDirectory
    (h : runScript (keys.map (writeHotDirectory env index)) files = (after, .ok ()))
    (name : ContentHash) : Rewritten env index keys files after name := by
  induction keys generalizing files with
  | nil =>
    cases h
    exact .inl ⟨rfl, nofun⟩
  | cons key keys ih =>
    rw [map_cons] at h
    cases hwrite : writeHotDirectory env index key with
    | error e =>
      rw [hwrite] at h
      cases h
    | ok step =>
      rw [hwrite] at h
      obtain ⟨cleanTree, _, hstep⟩ := bind_eq_ok.1 hwrite
      cases hstep
      rcases ih h with ⟨hsame, hnone⟩ | ⟨later, hlater, hname, hbytes⟩
      · by_cases hname : hotDirectoryRecordName env key = name
        · subst hname
          refine .inr ⟨key, .head _, rfl, cleanTree, ?_⟩
          rw [hsame]
          exact Function.update_self _ _ _
        · refine .inl ⟨?_, ?_⟩
          · rw [hsame]
            exact Function.update_of_ne (Ne.symm hname) _ _
          · intro key' hkey'
            rcases mem_cons.1 hkey' with rfl | hkey'
            · exact hname
            · exact hnone key' hkey'
      · exact .inr ⟨later, .tail _ hlater, hname, hbytes⟩

theorem runScript_hotRecords
    (h : ∀ step, .ok step ∈ script → ∀ files, (step.run files).hotRecords = files.hotRecords)
    (files : Files) : (runScript script files).1.hotRecords = files.hotRecords := by
  induction script generalizing files with
  | nil => rfl
  | cons step script ih =>
    cases step with
    | error e => rfl
    | ok step =>
      exact (ih (fun later hlater => h later (.tail _ hlater)) _).trans (h step (.head _) files)

/-- A completed save has rewritten the record files of its own keys and no others. -/
theorem runScript_rewritten
    (hrest : ∀ step, .ok step ∈ rest → ∀ files, (step.run files).hotRecords = files.hotRecords)
    (h : runScript (writeHotSidecars env index ++ rest) files = (after, .ok ()))
    (name : ContentHash) :
    Rewritten env index (hotKeys index) files after name := by
  rw [writeHotSidecars, append_assoc, runScript_append] at h
  split at h
  · rename_i mid hmid
    have hwritten := runScript_writeHotDirectory env hmid name
    have hkept : (runScript ([.ok (.writeHotGitlinks (frameHotRecord (hotGitlinksBody index)))] ++
        rest) mid).1.hotRecords = mid.hotRecords := runScript_hotRecords ?_ mid
    · rw [h] at hkept
      unfold Rewritten at hwritten ⊢
      rw [hkept]
      exact hwritten
    · intro step hstep
      rcases mem_cons.1 hstep with hstep | hstep
      · cases hstep
        exact fun _ => rfl
      · exact hrest step hstep
  · cases h

theorem rewritten_saveSnapshot
    (h : runScript (saveSnapshotProfiled env index files) files = (after, .ok ())) (name : ContentHash) :
    Rewritten env index (hotKeys index) files after name := by
  refine runScript_rewritten env ?_ h name
  intro step hstep
  unfold writeSnapshot removeJournalIfThere at hstep
  split at hstep
  · simp only [cons_append, nil_append, mem_cons, Except.ok.injEq, not_mem_nil,
      or_false] at hstep
    rcases hstep with rfl | rfl | rfl
    · exact fun _ => rfl
    · exact fun _ => rfl
    · exact fun _ => rfl
  · simp only [cons_append, nil_append, mem_cons, Except.ok.injEq, not_mem_nil,
      or_false] at hstep
    rcases hstep with rfl | rfl
    · exact fun _ => rfl
    · exact fun _ => rfl

theorem rewritten_append
    (h : runScript (writeHotSidecars env index ++ appendToJournal index files) files = (after, .ok ()))
    (name : ContentHash) : Rewritten env index (hotKeys index) files after name := by
  refine runScript_rewritten env ?_ h name
  intro step hstep
  simp only [appendToJournal, mem_cons, Except.ok.injEq, not_mem_nil, or_false] at hstep
  rcases hstep with rfl | rfl
  · exact fun _ => rfl
  · exact fun _ => rfl

end Written

end Heddle.Worktree
