import Heddle.Object.Frame
import Heddle.Worktree.Journal

namespace Heddle.Worktree
open Heddle.Lib
open List hiding after toString
open Heddle.Lib.MsgPack (beBytes ofBeBytes)

def indexMagic : Bytes := utf8 "HDLEIDX\x00"
def indexVersion : Nat := 6
def headerSizeV4 : Nat := 8 + 4 + 4 + 4
def headerSizeV5 : Nat := headerSizeV4 + 4
def headerSizeV6 : Nat := headerSizeV5 + 4 + 8 + 4

inductive IndexEntryType where
  | file
  | directory
  | untrackedDirectory
  | gitlink
  deriving DecidableEq

namespace IndexEntryType

def fromU8 (v : UInt8) : Option IndexEntryType :=
  match v.toNat with
  | 1 => some .file
  | 2 => some .directory
  | 3 => some .untrackedDirectory
  | 4 => some .gitlink
  | _ => none

def toU8 : IndexEntryType → UInt8
  | .file => 1
  | .directory => 2
  | .untrackedDirectory => 3
  | .gitlink => 4

theorem fromU8_toU8 (entryType : IndexEntryType) : fromU8 entryType.toU8 = some entryType := by
  cases entryType with
  | _ => rfl

end IndexEntryType

section Write

def writeFileEntry (entry : String × IndexEntry) : Bytes :=
  IndexEntryType.file.toU8 :: (writeString entry.1 ++ writeFileEntryPayload entry.2)

def writeDirectoryEntry (entry : String × DirectoryCacheEntry) : Bytes :=
  IndexEntryType.directory.toU8 :: (writeString entry.1 ++ writeDirectoryEntryPayload entry.2)

def writeUntrackedDirectoryEntry (entry : String × UntrackedDirectoryCacheEntry) : Bytes :=
  IndexEntryType.untrackedDirectory.toU8 ::
    (writeString entry.1 ++ writeUntrackedDirectoryEntryPayload entry.2)

def writeGitlinkEntry (entry : String × String) : Bytes :=
  IndexEntryType.gitlink.toU8 :: (writeString entry.1 ++ writeString entry.2)

def fileData (maps : IndexMaps) : Bytes := maps.entries.entries.flatMap writeFileEntry

def hotData (maps : IndexMaps) : Bytes :=
  maps.directories.entries.flatMap writeDirectoryEntry ++
    (maps.untrackedDirectories.entries.flatMap writeUntrackedDirectoryEntry ++
      maps.gitlinks.entries.flatMap writeGitlinkEntry)

def snapshotBytes (maps : IndexMaps) : Bytes :=
  indexMagic ++ (beBytes 4 indexVersion ++ (beBytes 4 maps.entries.entries.length ++
    (beBytes 4 maps.directories.entries.length ++
      (beBytes 4 maps.untrackedDirectories.entries.length ++
        (beBytes 4 maps.gitlinks.entries.length ++ (beBytes 8 (hotData maps).length ++
          (beBytes 4 (crc32 (hotData maps)).toNat ++ ((hotData maps ++ fileData maps) ++
            beBytes 4 (crc32 (hotData maps ++ fileData maps)).toNat))))))))

end Write

section Read

def expectEntryType (expected : IndexEntryType) : Reader IndexError Unit
  | [] => .error (truncated "entry type")
  | value :: bytes =>
    if IndexEntryType.fromU8 value ≠ some expected then
      .error (.invalidFormat ("unexpected index entry type " ++ toString value.toNat))
    else .ok ((), bytes)

def readPath (total : Nat) (context : String) (after : Nat) (message : String) :
    Reader IndexError String := do
  require 4 "truncated path len"
  let pathLen ← takeU32 (truncated context)
  require (pathLen.toNat + after) message
  readUtf8 total pathLen.toNat

def readFileEntry (total : Nat) : Reader IndexError (String × IndexEntry) := do
  expectEntryType .file
  let path ← readPath total "journal file path length" (32 + 8 + 8 + 4 + 1 + 1)
    "truncated file entry data"
  let entry ← readFileEntryFields
  return (path, entry)

def readCompactDirectoryEntry (total : Nat) : Reader IndexError (String × DirectoryCacheEntry) := do
  expectEntryType .directory
  let path ← readPath total "compact file path length" (8 + 4 + 4 + 32 + 1 + 32)
    "truncated directory entry data"
  let entry ← readDirectoryEntryFields "compact file"
  return (path, entry)

def readUntrackedDirectoryEntry (total : Nat) :
    Reader IndexError (String × UntrackedDirectoryCacheEntry) := do
  expectEntryType .untrackedDirectory
  let path ← readPath total "legacy index path length" (8 + 4 + 4 + 32 + 32 + 4)
    "truncated untracked directory entry"
  let entry ← readUntrackedDirectoryEntryPayload total
  return (path, entry)

def readGitlinkEntry (total : Nat) : Reader IndexError (String × String) := do
  expectEntryType .gitlink
  let path ← readString total
  let target ← readString total
  return (path, target)

def insertAll (entries : List (String × ν)) : SortedMap String ν :=
  SortedMap.empty.replay (entries.map fun entry => (entry.1, some entry.2))

structure SnapshotHeader where
  fileCount : UInt32
  dirCount : UInt32
  untrackedCount : UInt32
  gitlinkCount : UInt32
  hotLen : UInt64
  hotChecksum : UInt32

def readHeader : Reader IndexError SnapshotHeader := do
  let _ ← takeBytes (truncated "index header") 12
  let fileCount ← takeU32 (truncated "index file count")
  let dirCount ← takeU32 (truncated "index directory count")
  let untrackedCount ← takeU32 (truncated "index untracked directory count")
  let gitlinkCount ← takeU32 (truncated "index gitlink count")
  let hotLen ← takeU64 (truncated "index hot section length")
  let hotChecksum ← takeU32 (truncated "index hot section checksum")
  return ⟨fileCount, dirCount, untrackedCount, gitlinkCount, hotLen, hotChecksum⟩

def readHotSection (header : SnapshotHeader) (total : Nat) : Reader IndexError IndexMaps := do
  let directories ← takeMany (readCompactDirectoryEntry total) header.dirCount.toNat
  let untrackedDirectories ← takeMany (readUntrackedDirectoryEntry total) header.untrackedCount.toNat
  let gitlinks ← takeMany (readGitlinkEntry total) header.gitlinkCount.toNat
  return {
    directories := insertAll directories
    untrackedDirectories := insertAll untrackedDirectories
    gitlinks := insertAll gitlinks }

def loadV6 (file : Bytes) : Except IndexError IndexMaps := do
  let (header, data) ← readHeader file
  refuse (file.length < headerSizeV6 + 4) (.invalidFormat "truncated v6 index")
  let dataLen := file.length - (headerSizeV6 + 4)
  refuse (dataLen < header.hotLen.toNat) (.invalidFormat "hot section exceeds index data")
  let hot := data.take header.hotLen.toNat
  refuse (crc32 hot ≠ header.hotChecksum) .checksumMismatch
  let (maps, rest) ← readHotSection header hot.length hot
  refuse (rest ≠ []) (.invalidFormat "trailing bytes in hot index section")
  let files := (data.drop header.hotLen.toNat).take (dataLen - header.hotLen.toNat)
  let (entries, rest) ← takeMany (readFileEntry files.length) header.fileCount.toNat files
  refuse (rest ≠ []) (.invalidFormat "trailing bytes in file index section")
  let footer := (data.drop dataLen).take 4
  refuse ((crc32 (hot ++ files)).toNat ≠ ofBeBytes footer) .checksumMismatch
  return { maps with entries := insertAll entries }

end Read

structure IndexMaps.Fits (maps : IndexMaps) : Prop where
  entries : maps.entries.entries.length < 2 ^ 32 ∧ ∀ entry ∈ maps.entries.entries, TextFits entry.1
  directories : maps.directories.entries.length < 2 ^ 32 ∧
    ∀ entry ∈ maps.directories.entries, TextFits entry.1
  untrackedDirectories : maps.untrackedDirectories.entries.length < 2 ^ 32 ∧
    ∀ entry ∈ maps.untrackedDirectories.entries, TextFits entry.1 ∧ entry.2.Fits
  gitlinks : maps.gitlinks.entries.length < 2 ^ 32 ∧
    ∀ entry ∈ maps.gitlinks.entries, TextFits entry.1 ∧ TextFits entry.2
  hot : (hotData maps).length < 2 ^ 64

instance (maps : IndexMaps) : Decidable maps.Fits :=
  decidable_of_iff
    (((maps.entries.entries.length < 2 ^ 32 ∧ ∀ entry ∈ maps.entries.entries, TextFits entry.1) ∧
      (maps.directories.entries.length < 2 ^ 32 ∧
        ∀ entry ∈ maps.directories.entries, TextFits entry.1)) ∧
      ((maps.untrackedDirectories.entries.length < 2 ^ 32 ∧
        ∀ entry ∈ maps.untrackedDirectories.entries, TextFits entry.1 ∧ entry.2.Fits) ∧
      (maps.gitlinks.entries.length < 2 ^ 32 ∧
        ∀ entry ∈ maps.gitlinks.entries, TextFits entry.1 ∧ TextFits entry.2)) ∧
      (hotData maps).length < 2 ^ 64)
    ⟨fun h => ⟨h.1.1, h.1.2, h.2.1.1, h.2.1.2, h.2.2⟩,
      fun h => ⟨⟨h.entries, h.directories⟩, ⟨h.untrackedDirectories, h.gitlinks⟩, h.hot⟩⟩

section RoundTrip

theorem reads_expectEntryType (entryType : IndexEntryType) :
    Reads (expectEntryType entryType) [entryType.toU8] () := by
  intro rest
  rw [singleton_append, expectEntryType, IndexEntryType.fromU8_toU8]
  exact if_neg (not_not_intro rfl)

theorem reads_readPath {next : String → Reader IndexError α} (total : Nat)
    (context message : String) (h : TextFits path)
    (hnext : Reads (next path) bytes a) (hafter : after ≤ bytes.length) :
    Reads (readPath total context after message >>= next) (writeString path ++ bytes) a := by
  unfold readPath writeString
  rw [bind_assoc, append_assoc]
  apply reads_require
  · rw [bind_assoc]
    apply (reads_length h _).bind
    rw [bind_assoc]
    apply reads_require
    · rw [UInt32.toNat_ofNat_of_lt' h]
      exact (reads_readUtf8 total path).bind hnext
    · rw [UInt32.toNat_ofNat_of_lt' h, length_append]
      omega
  · rw [length_append, length_beBytes]
    omega

theorem insertAll_entries (m : SortedMap String ν) : insertAll m.entries = m := m.replay_entries

theorem reads_fileEntry (total : Nat) (h : TextFits entry.1) :
    Reads (readFileEntry total) (writeFileEntry entry) entry := by
  apply (reads_expectEntryType .file).bind
  apply reads_readPath total _ _ h
  · exact (reads_fileEntryFields entry.2).bind_nil (Reads.pure _)
  simp only [writeFileEntryPayload, writeFlag, length_append, length_beBytes,
    ContentHash.asBytes_length, length_cons, length_nil]
  omega

theorem reads_directoryEntry (total : Nat) (h : TextFits entry.1) :
    Reads (readCompactDirectoryEntry total) (writeDirectoryEntry entry) entry := by
  apply (reads_expectEntryType .directory).bind
  apply reads_readPath total _ _ h
  · exact (reads_directoryEntryFields _ entry.2).bind_nil (Reads.pure _)
  simp only [writeDirectoryEntryPayload, writeFlag, length_append, length_beBytes,
    ContentHash.asBytes_length, length_cons, length_nil]
  omega

theorem reads_untrackedDirectoryEntry (total : Nat) (h : TextFits entry.1 ∧ entry.2.Fits) :
    Reads (readUntrackedDirectoryEntry total) (writeUntrackedDirectoryEntry entry) entry := by
  apply (reads_expectEntryType .untrackedDirectory).bind
  apply reads_readPath total _ _ h.1
  · exact (reads_untrackedDirectoryEntryPayload total h.2).bind_nil (Reads.pure _)
  simp only [writeUntrackedDirectoryEntryPayload, length_append, length_beBytes,
    ContentHash.asBytes_length]
  omega

theorem reads_gitlinkEntry (total : Nat) (h : TextFits entry.1 ∧ TextFits entry.2) :
    Reads (readGitlinkEntry total) (writeGitlinkEntry entry) entry := by
  apply (reads_expectEntryType .gitlink).bind
  apply (reads_readString total h.1).bind
  exact (reads_readString total h.2).bind_nil (Reads.pure _)

theorem reads_section {read : Reader ε α} (n : Nat) (hn : n = xs.length)
    (h : ∀ x ∈ xs, Reads read (write x) x) :
    Reads (takeMany read n) (xs.flatMap write) xs := by
  subst hn
  have hmany : Reads (takeMany read xs.length) (xs.flatMap write) (xs.map id) := Reads.many h
  rwa [map_id] at hmany

def snapshotHeader (maps : IndexMaps) : SnapshotHeader :=
  ⟨UInt32.ofNat maps.entries.entries.length, UInt32.ofNat maps.directories.entries.length,
    UInt32.ofNat maps.untrackedDirectories.entries.length,
    UInt32.ofNat maps.gitlinks.entries.length, UInt64.ofNat (hotData maps).length,
    crc32 (hotData maps)⟩

variable {maps : IndexMaps} (h : maps.Fits)
include h

theorem reads_hotSection (total : Nat) : Reads (readHotSection (snapshotHeader maps) total)
    (hotData maps) { maps with entries := .empty } := by
  have hdirectories : Reads (takeMany (readCompactDirectoryEntry total)
      (snapshotHeader maps).dirCount.toNat) (maps.directories.entries.flatMap writeDirectoryEntry)
      maps.directories.entries :=
    reads_section _ (UInt32.toNat_ofNat_of_lt' h.directories.1) fun entry hentry =>
      reads_directoryEntry total (h.directories.2 entry hentry)
  have huntracked : Reads (takeMany (readUntrackedDirectoryEntry total)
      (snapshotHeader maps).untrackedCount.toNat)
      (maps.untrackedDirectories.entries.flatMap writeUntrackedDirectoryEntry)
      maps.untrackedDirectories.entries :=
    reads_section _ (UInt32.toNat_ofNat_of_lt' h.untrackedDirectories.1) fun entry hentry =>
      reads_untrackedDirectoryEntry total (h.untrackedDirectories.2 entry hentry)
  have hgitlinks : Reads (takeMany (readGitlinkEntry total) (snapshotHeader maps).gitlinkCount.toNat)
      (maps.gitlinks.entries.flatMap writeGitlinkEntry) maps.gitlinks.entries :=
    reads_section _ (UInt32.toNat_ofNat_of_lt' h.gitlinks.1) fun entry hentry =>
      reads_gitlinkEntry total (h.gitlinks.2 entry hentry)
  unfold readHotSection hotData
  apply hdirectories.bind
  apply huntracked.bind
  apply hgitlinks.bind_nil
  rw [insertAll_entries, insertAll_entries, insertAll_entries]
  exact Reads.pure _

theorem reads_fileSection (total : Nat) :
    Reads (takeMany (readFileEntry total) (snapshotHeader maps).fileCount.toNat)
      (fileData maps) maps.entries.entries :=
  reads_section _ (UInt32.toNat_ofNat_of_lt' h.entries.1) fun entry hentry =>
    reads_fileEntry total (h.entries.2 entry hentry)

theorem readHeader_snapshotBytes : readHeader (snapshotBytes maps) = .ok (snapshotHeader maps,
    (hotData maps ++ fileData maps) ++ beBytes 4 (crc32 (hotData maps ++ fileData maps)).toNat) := by
  have hhot : (UInt64.ofNat (hotData maps).length).toNat = (hotData maps).length :=
    UInt64.toNat_ofNat_of_lt' h.hot
  have hheader : Reads readHeader (indexMagic ++ beBytes 4 indexVersion ++
      (beBytes 4 maps.entries.entries.length ++ (beBytes 4 maps.directories.entries.length ++
        (beBytes 4 maps.untrackedDirectories.entries.length ++
          (beBytes 4 maps.gitlinks.entries.length ++ (beBytes 8 (hotData maps).length ++
            beBytes 4 (crc32 (hotData maps)).toNat)))))) (snapshotHeader maps) := by
    unfold readHeader
    apply (Reads.takeBytes _ (by decide)).bind
    apply (reads_length h.entries.1 _).bind
    apply (reads_length h.directories.1 _).bind
    apply (reads_length h.untrackedDirectories.1 _).bind
    apply (reads_length h.gitlinks.1 _).bind
    have hlen := Reads.takeU64 (truncated "index hot section length") (UInt64.ofNat (hotData maps).length)
    rw [hhot] at hlen
    apply hlen.bind
    exact (Reads.takeU32 _ _).bind_nil (Reads.pure _)
  rw [← hheader, snapshotBytes]
  simp only [append_assoc]

theorem loadV6_snapshotBytes : loadV6 (snapshotBytes maps) = .ok maps := by
  have hhot : (snapshotHeader maps).hotLen.toNat = (hotData maps).length :=
    UInt64.toNat_ofNat_of_lt' h.hot
  have hlen : (snapshotBytes maps).length =
      headerSizeV6 + 4 + ((hotData maps).length + (fileData maps).length) := by
    have hmagic : indexMagic.length = 8 := by decide
    simp only [snapshotBytes, length_append, length_beBytes, hmagic, headerSizeV6,
      headerSizeV5, headerSizeV4]
    omega
  have hsections := reads_hotSection h (hotData maps).length []
  have hfiles := reads_fileSection h (fileData maps).length []
  rw [append_nil] at hsections hfiles
  have hbody : (hotData maps ++ fileData maps ++
      beBytes 4 (crc32 (hotData maps ++ fileData maps)).toNat).drop (hotData maps).length =
        fileData maps ++ beBytes 4 (crc32 (hotData maps ++ fileData maps)).toNat := by
    rw [append_assoc, drop_left]
  have hfooter : (hotData maps ++ fileData maps ++
      beBytes 4 (crc32 (hotData maps ++ fileData maps)).toNat).drop
        ((hotData maps).length + (fileData maps).length) =
          beBytes 4 (crc32 (hotData maps ++ fileData maps)).toNat :=
    drop_left' length_append
  have hsum : ofBeBytes ((beBytes 4 (crc32 (hotData maps ++ fileData maps)).toNat).take 4) =
      (crc32 (hotData maps ++ fileData maps)).toNat := by
    rw [take_of_length_le (length_beBytes _ _).le]
    exact MsgPack.ofBeBytes_beBytes (UInt32.toNat_lt _)
  have htake : (hotData maps ++ fileData maps ++
      beBytes 4 (crc32 (hotData maps ++ fileData maps)).toNat).take (hotData maps).length =
        hotData maps := by
    rw [append_assoc, take_left]
  have hsize : (snapshotBytes maps).length - (headerSizeV6 + 4) =
      (hotData maps).length + (fileData maps).length := by omega
  refine bind_eq_ok.2 ⟨_, readHeader_snapshotBytes h, ?_⟩
  refine bind_eq_ok.2 ⟨(), refuse_eq_ok.2 (by omega), ?_⟩
  dsimp only
  rw [hhot, hsize, hbody, hfooter, hsum, htake, Nat.add_sub_cancel_left, take_left]
  refine bind_eq_ok.2 ⟨(), refuse_eq_ok.2 (by omega), ?_⟩
  refine bind_eq_ok.2 ⟨(), refuse_eq_ok.2 (not_not_intro rfl), ?_⟩
  refine bind_eq_ok.2 ⟨_, hsections, ?_⟩
  refine bind_eq_ok.2 ⟨(), refuse_eq_ok.2 (not_not_intro rfl), ?_⟩
  refine bind_eq_ok.2 ⟨_, hfiles, ?_⟩
  refine bind_eq_ok.2 ⟨(), refuse_eq_ok.2 (not_not_intro rfl), ?_⟩
  refine bind_eq_ok.2 ⟨(), refuse_eq_ok.2 (not_not_intro rfl), ?_⟩
  rw [insertAll_entries]
  rfl

end RoundTrip

end Heddle.Worktree
