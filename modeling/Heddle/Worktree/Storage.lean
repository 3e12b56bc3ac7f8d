import Heddle.Worktree.Snapshot

namespace Heddle.Worktree
open Heddle.Lib
open Heddle.Lib.MsgPack (beBytes ofBeBytes)

/-- What the index files rest on: the hash that names a record, the encoding of a clean tree and the
loaders of the older snapshot versions. -/
structure IndexEnv where
  blake3 : Bytes → ContentHash
  treeToVecNamed : Tree ContentHash → Except IndexError Bytes
  treeFromSlice : Bytes → Except IndexError (Tree ContentHash)
  loadLegacy : Nat → Bytes → Except IndexError IndexMaps

/-- The index files: the snapshot, a temporary file not yet in its place, the journal and the hot
records beside them. -/
structure Files where
  snapshot : Option Bytes := none
  temp : Option Bytes := none
  journal : Option Bytes := none
  hotRecords : ContentHash → Option Bytes := fun _ => none
  hotGitlinks : Option Bytes := none

inductive FsStep where
  | writeHotRecord (name : ContentHash) (bytes : Bytes)
  | writeHotGitlinks (bytes : Bytes)
  | writeTemp (bytes : Bytes)
  | renameTemp
  | openJournal
  | appendJournal (bytes : Bytes)
  | removeJournal

def FsStep.run : FsStep → Files → Files
  | .writeHotRecord name bytes, files =>
    { files with hotRecords := Function.update files.hotRecords name (some bytes) }
  | .writeHotGitlinks bytes, files => { files with hotGitlinks := some bytes }
  | .writeTemp bytes, files => { files with temp := some bytes }
  | .renameTemp, files => { files with snapshot := files.temp, temp := none }
  | .openJournal, files => { files with journal := some (files.journal.getD []) }
  | .appendJournal bytes, files => { files with journal := some (files.journal.getD [] ++ bytes) }
  | .removeJournal, files => { files with journal := none }

/-- The step when only the first `n` bytes of its write arrive. -/
def FsStep.cut (n : Nat) : FsStep → Option FsStep
  | .writeHotRecord name bytes => some (.writeHotRecord name (bytes.take n))
  | .writeHotGitlinks bytes => some (.writeHotGitlinks (bytes.take n))
  | .writeTemp bytes => some (.writeTemp (bytes.take n))
  | .appendJournal bytes => some (.appendJournal (bytes.take n))
  | .renameTemp | .openJournal | .removeJournal => none

/-- The file system steps of an operation, up to the error that ends it. -/
abbrev Script := List (Except IndexError FsStep)

def runScript : Script → Files → Files × Except IndexError Unit
  | [], files => (files, .ok ())
  | .ok step :: script, files => runScript script (step.run files)
  | .error e :: _, files => (files, .error e)

/-- The files when the operation stops behind `steps` steps and `bytes` bytes of the next one. -/
def interrupted : Script → (steps bytes : Nat) → Files → Files
  | .ok step :: script, steps + 1, bytes, files => interrupted script steps bytes (step.run files)
  | .ok step :: _, 0, bytes, files =>
    match step.cut bytes with
    | some step => step.run files
    | none => files
  | .error _ :: _, _, _, files | [], _, _, files => files

section HotRecords
variable (env : IndexEnv)

def hotRecordMagic : Bytes := utf8 "HDLEHOT\x00"
def hotRecordVersion : Nat := 1

def hotDirectoryRecordName (key : String) : ContentHash :=
  computeTyped env.blake3 "worktree-index-hot-path" (utf8 key)

def frameHotRecord (body : Bytes) : Bytes := body ++ beBytes 4 (crc32 body).toNat

def writeOptional (write : α → Bytes) : Option α → Bytes
  | none => [0]
  | some a => 1 :: write a

def hotHeader : Bytes := hotRecordMagic ++ beBytes 4 hotRecordVersion

def hotDirectoryBody (key : String) (directory : Option DirectoryCacheEntry)
    (untracked : Option UntrackedDirectoryCacheEntry) (cleanTree : Option Bytes) : Bytes :=
  hotHeader ++ (writeString key ++ (writeOptional writeDirectoryEntryPayload directory ++
    (writeOptional writeUntrackedDirectoryEntryPayload untracked ++
      writeOptional (fun encoded => beBytes 4 encoded.length ++ encoded) cleanTree)))

def encodeCleanTree (index : WorktreeIndex) (key : String) : Except IndexError (Option Bytes) :=
  match index.cleanTrees.get key with
  | some tree => (env.treeToVecNamed tree).map some
  | none => .ok none

def writeHotDirectory (index : WorktreeIndex) (key : String) : Except IndexError FsStep := do
  let cleanTree ← encodeCleanTree env index key
  return .writeHotRecord (hotDirectoryRecordName env key) (frameHotRecord
    (hotDirectoryBody key (index.directories.get key) (index.untrackedDirectories.get key) cleanTree))

def hotGitlinksBody (index : WorktreeIndex) : Bytes :=
  hotHeader ++ (writeFlag index.gitlinksTree.isSome ++
    ((index.gitlinksTree.getD zeroHash).asBytes ++ (beBytes 4 index.gitlinks.entries.length ++
      index.gitlinks.entries.flatMap fun entry => writeString entry.1 ++ writeString entry.2)))

def hotKeys (index : WorktreeIndex) : List String :=
  (insertAll ((index.directories.entries.map Prod.fst ++
    index.untrackedDirectories.entries.map Prod.fst).map (·, ()))).entries.map Prod.fst

def writeHotSidecars (index : WorktreeIndex) : Script :=
  (hotKeys index).map (writeHotDirectory env index) ++
    [.ok (.writeHotGitlinks (frameHotRecord (hotGitlinksBody index)))]

end HotRecords

section Save
variable (env : IndexEnv)

def compactReason (index : WorktreeIndex) (files : Files) : Option String :=
  if files.snapshot.isNone then some "missing_snapshot"
  else if index.hotLoaded = false ∧ index.pendingOps.length > maxJournalOpsBeforeCompact then
    some "pending_ops"
  else if index.hotLoaded = false ∧ (files.journal.getD []).length > maxJournalBytesBeforeCompact then
    some "journal_bytes"
  else if index.hotLoaded = false ∧ index.lastJournalReplayMs > maxJournalReplayMsBeforeCompact then
    some "replay_ms"
  else none

def writeSnapshot (index : WorktreeIndex) : Script :=
  [.ok (.writeTemp (snapshotBytes index.toIndexMaps)), .ok .renameTemp]

def removeJournalIfThere (files : Files) : Script :=
  if files.journal.isSome then [.ok .removeJournal] else []

def appendToJournal (index : WorktreeIndex) (files : Files) : Script :=
  [.ok .openJournal, .ok (.appendJournal (appendJournal index.pendingOps (files.journal.getD [])))]

def saveSnapshotProfiled (index : WorktreeIndex) (files : Files) : Script :=
  writeHotSidecars env index ++ (writeSnapshot index ++ removeJournalIfThere files)

def saveProfiled (index : WorktreeIndex) (files : Files) : Script :=
  if index.pendingOps.isEmpty then []
  else if (compactReason index files).isSome then
    writeHotSidecars env index ++ (writeSnapshot index ++ removeJournalIfThere files)
  else writeHotSidecars env index ++ appendToJournal index files

def seededIndex (files : List (String × IndexEntry)) (directories : List (String × DirectoryCacheEntry)) :
    WorktreeIndex :=
  let index := files.foldl (fun index entry => index.insertSeeded entry.1 entry.2) .new
  directories.foldl (fun index entry => index.insertSeededDirectory entry.1 entry.2) index

inductive SaveKind where
  | save
  | saveSnapshot
  | seedSnapshot (files : List (String × IndexEntry)) (directories : List (String × DirectoryCacheEntry))

def SaveKind.saved (kind : SaveKind) (current : Option WorktreeIndex) : Option WorktreeIndex :=
  match kind with
  | .save | .saveSnapshot => current
  | .seedSnapshot files directories => some (seededIndex files directories)

def SaveKind.script (kind : SaveKind) (index : WorktreeIndex) (files : Files) : Script :=
  match kind with
  | .save => saveProfiled env index files
  | .saveSnapshot | .seedSnapshot _ _ => saveSnapshotProfiled env index files

def SaveKind.keeps (kind : SaveKind) (markClean : Bool) (index : WorktreeIndex) : Option WorktreeIndex :=
  match kind with
  | .save | .saveSnapshot => some (if markClean then index.markClean else index)
  | .seedSnapshot _ _ => none

end Save

section Load
variable (env : IndexEnv)

def loadSnapshot (file : Bytes) : Except IndexError IndexMaps :=
  if file.length < 12 then .error (truncated "index header")
  else if file.take 8 ≠ indexMagic then .error (.invalidFormat "missing magic bytes")
  else
    let version := ofBeBytes ((file.drop 8).take 4)
    if version = 1 ∧ 16 ≤ file.length then env.loadLegacy version file
    else if version ∈ [2, 3, 4] ∧ headerSizeV4 + 4 ≤ file.length then env.loadLegacy version file
    else if version = 5 ∧ headerSizeV5 + 4 ≤ file.length then env.loadLegacy version file
    else if version = 6 ∧ headerSizeV6 + 4 ≤ file.length then loadV6 file
    else .error (.versionMismatch indexVersion version)

def loadMaps (files : Files) : Except IndexError IndexMaps :=
  match files.snapshot with
  | none => .ok {}
  | some snapshot => do
    let maps ← loadSnapshot env snapshot
    match files.journal with
    | some journal => applyJournal maps journal
    | none => return maps

/-- `replayMs` is what the clock said of the journal's replay. -/
def loadProfiled (files : Files) (replayMs : Nat) : Except IndexError WorktreeIndex := do
  let maps ← loadMaps env files
  return { maps with
    lastJournalReplayMs := if files.snapshot.isSome ∧ files.journal.isSome then replayMs else 0 }

end Load

section Samples

def sampleEnv : IndexEnv where
  blake3 bytes := ⟨Vector.replicate 32 (bytes.foldl (· + ·) 0)⟩
  treeToVecNamed := fun _ => .ok []
  treeFromSlice := fun _ => .ok { entries := [] }
  loadLegacy := fun _ _ => .ok {}

def sampleEntry : IndexEntry := ⟨zeroHash, 1, 1700000000, 0, false, .file⟩
def sampleDirectory : DirectoryCacheEntry := ⟨1700000000, 0, 1, zeroHash, some zeroHash⟩

end Samples

end Heddle.Worktree
