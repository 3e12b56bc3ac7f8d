import Heddle.Lib.Framing
import Heddle.Worktree.Index

namespace Heddle.Worktree
open Heddle.Lib List
open Heddle.Lib.MsgPack (beBytes)

inductive IndexError where
  | io (message : String)
  | invalidFormat (message : String)
  | versionMismatch (expected got : Nat)
  | checksumMismatch
  | invalidUtf8 (message : String)

def crc32Byte (crc : UInt32) (byte : UInt8) : UInt32 :=
  (List.range 8).foldl
    (fun crc _ => if crc &&& 1 ≠ 0 then (crc >>> 1) ^^^ 0xEDB88320 else crc >>> 1)
    (crc ^^^ byte.toUInt32)

def crc32 (data : Bytes) : UInt32 := ~~~(data.foldl crc32Byte 0xFFFFFFFF)

section Write

def writeString (value : String) : Bytes := beBytes 4 (utf8 value).length ++ utf8 value

def writeFlag (flag : Bool) : Bytes := [if flag then 1 else 0]

def writeFileEntryPayload (entry : IndexEntry) : Bytes :=
  entry.hash.asBytes ++ (beBytes 8 entry.size.toNat ++ (beBytes 8 entry.modifiedSec.toUInt64.toNat ++
    (beBytes 4 entry.modifiedNsec.toNat ++ (writeFlag entry.executable ++ [entry.kind.toU8]))))

def zeroHash : ContentHash := ⟨Vector.replicate 32 0⟩

def writeDirectoryEntryPayload (entry : DirectoryCacheEntry) : Bytes :=
  beBytes 8 entry.mtimeSec.toUInt64.toNat ++ (beBytes 4 entry.mtimeNsec.toNat ++
    (beBytes 4 entry.childCount.toNat ++ (entry.childDigest.asBytes ++
      (writeFlag entry.cleanTreeHash.isSome ++ (entry.cleanTreeHash.getD zeroHash).asBytes))))

def writeUntrackedDirectoryEntryPayload (entry : UntrackedDirectoryCacheEntry) : Bytes :=
  beBytes 8 entry.mtimeSec.toUInt64.toNat ++ (beBytes 4 entry.mtimeNsec.toNat ++
    (beBytes 4 entry.childCount.toNat ++ (entry.childDigest.asBytes ++
      (entry.ignoreFingerprint.asBytes ++ (beBytes 4 entry.addedPaths.length ++
        entry.addedPaths.flatMap writeString)))))

end Write

section Read

def require (n : Nat) (message : String) : Reader IndexError Unit := fun bytes =>
  if n ≤ bytes.length then .ok ((), bytes) else .error (.invalidFormat message)

def truncated (context : String) : IndexError := .invalidFormat ("truncated " ++ context)

/-- `total` is the length of what is read from, for the offset in the message. -/
def readUtf8 (total n : Nat) : Reader IndexError String := fun bytes =>
  match fromUtf8 (bytes.take n) with
  | some value => .ok (value, bytes.drop n)
  | none => .error (.invalidUtf8 ("path at offset " ++ toString (total - bytes.length)))

def readString (total : Nat) : Reader IndexError String := do
  require 4 "truncated string len"
  let pathLen ← takeU32 (truncated "journal string length")
  require pathLen.toNat "truncated string data"
  readUtf8 total pathLen.toNat

def readHash : Reader IndexError ContentHash := return ⟨← takeVector (truncated "hash") 32⟩

def readFileEntryFields : Reader IndexError IndexEntry := do
  let hash ← readHash
  let size ← takeU64 (truncated "journal file size")
  let modifiedSec ← takeI64 (truncated "journal file modified seconds")
  let modifiedNsec ← takeU32 (truncated "journal file modified nanos")
  let executable ← takeByte (truncated "executable flag")
  let kind ← takeByte (truncated "entry kind")
  return ⟨hash, size, modifiedSec, modifiedNsec, executable ≠ 0, IndexEntryKind.fromU8 kind⟩

def readFileEntryPayload : Reader IndexError IndexEntry := do
  require (32 + 8 + 8 + 4 + 1 + 1) "truncated file journal payload"
  readFileEntryFields

def readDirectoryEntryFields (context : String) : Reader IndexError DirectoryCacheEntry := do
  let mtimeSec ← takeI64 (truncated (context ++ " mtime seconds"))
  let mtimeNsec ← takeU32 (truncated (context ++ " mtime nanos"))
  let childCount ← takeU32 (truncated (context ++ " child count"))
  let childDigest ← readHash
  let present ← takeByte (truncated "clean tree flag")
  let hash ← readHash
  return ⟨mtimeSec, mtimeNsec, childCount, childDigest, if present ≠ 0 then some hash else none⟩

def readDirectoryEntryPayload : Reader IndexError DirectoryCacheEntry := do
  require (8 + 4 + 4 + 32 + 1 + 32) "truncated directory journal payload"
  readDirectoryEntryFields "journal directory"

def readUntrackedDirectoryEntryPayload (total : Nat) :
    Reader IndexError UntrackedDirectoryCacheEntry := do
  require (8 + 4 + 4 + 32 + 32 + 4) "truncated untracked directory payload"
  let mtimeSec ← takeI64 (truncated "journal untracked directory mtime seconds")
  let mtimeNsec ← takeU32 (truncated "journal untracked directory mtime nanos")
  let childCount ← takeU32 (truncated "journal untracked directory child count")
  let childDigest ← readHash
  let ignoreFingerprint ← readHash
  let addedPathCount ← takeU32 (truncated "journal added path count")
  let addedPaths ← takeMany (readString total) addedPathCount.toNat
  return ⟨mtimeSec, mtimeNsec, childCount, childDigest, ignoreFingerprint, addedPaths⟩

end Read

section Fits

def TextFits (value : String) : Prop := (utf8 value).length < 2 ^ 32

def UntrackedDirectoryCacheEntry.Fits (entry : UntrackedDirectoryCacheEntry) : Prop :=
  entry.addedPaths.length < 2 ^ 32 ∧ ∀ path ∈ entry.addedPaths, TextFits path

instance (value : String) : Decidable (TextFits value) :=
  inferInstanceAs (Decidable (_ < _))

instance (entry : UntrackedDirectoryCacheEntry) : Decidable entry.Fits :=
  inferInstanceAs (Decidable (_ ∧ _))

end Fits

section RoundTrip

theorem reads_require {read : Reader IndexError α} (h : Reads read bytes a)
    (hn : n ≤ bytes.length) : Reads (require n message >>= fun _ => read) bytes a := by
  intro rest
  refine read_bind_ok_iff.2 ⟨(), bytes ++ rest, ?_, h rest⟩
  rw [require, if_pos]
  rw [length_append]
  omega

theorem reads_readUtf8 (total : Nat) (value : String) :
    Reads (readUtf8 total (utf8 value).length) (utf8 value) value := by
  intro rest
  rw [readUtf8, take_left, fromUtf8_utf8, drop_left]

theorem reads_length (h : n < 2 ^ 32) (e : ε) :
    Reads (takeU32 e) (beBytes 4 n) (UInt32.ofNat n) := by
  have hreads := Reads.takeU32 e (UInt32.ofNat n)
  rwa [UInt32.toNat_ofNat_of_lt' h] at hreads

theorem reads_readString (total : Nat) (h : TextFits value) :
    Reads (readString total) (writeString value) value := by
  unfold readString writeString
  apply reads_require
  · apply (reads_length h _).bind
    apply reads_require
    · rw [UInt32.toNat_ofNat_of_lt' h]
      exact reads_readUtf8 total value
    · rw [UInt32.toNat_ofNat_of_lt' h]
  · rw [length_append, length_beBytes]
    omega

theorem reads_readHash (hash : ContentHash) : Reads readHash hash.asBytes hash :=
  (Reads.takeVector _ hash.bytes).bind_nil (Reads.pure _)

theorem reads_flag (e : ε) (flag : Bool) :
    Reads (takeByte e) (writeFlag flag) (if flag then 1 else 0) :=
  Reads.takeByte e _

theorem reads_fileEntryFields (entry : IndexEntry) :
    Reads readFileEntryFields (writeFileEntryPayload entry) entry := by
  unfold readFileEntryFields writeFileEntryPayload
  apply (reads_readHash entry.hash).bind
  apply (Reads.takeU64 _ entry.size).bind
  apply (Reads.takeI64 _ entry.modifiedSec).bind
  apply (Reads.takeU32 _ entry.modifiedNsec).bind
  apply (reads_flag _ entry.executable).bind
  apply (Reads.takeByte _ entry.kind.toU8).bind_nil
  rw [IndexEntryKind.fromU8_toU8]
  obtain ⟨hash, size, modifiedSec, modifiedNsec, executable, kind⟩ := entry
  cases executable with
  | false => exact Reads.pure _
  | true => exact Reads.pure _

theorem reads_fileEntryPayload (entry : IndexEntry) :
    Reads readFileEntryPayload (writeFileEntryPayload entry) entry := by
  apply reads_require (reads_fileEntryFields entry)
  simp only [writeFileEntryPayload, writeFlag, length_append, length_beBytes,
    ContentHash.asBytes_length, length_cons, length_nil]
  omega

theorem reads_directoryEntryFields (context : String) (entry : DirectoryCacheEntry) :
    Reads (readDirectoryEntryFields context) (writeDirectoryEntryPayload entry) entry := by
  unfold readDirectoryEntryFields writeDirectoryEntryPayload
  apply (Reads.takeI64 _ entry.mtimeSec).bind
  apply (Reads.takeU32 _ entry.mtimeNsec).bind
  apply (Reads.takeU32 _ entry.childCount).bind
  apply (reads_readHash entry.childDigest).bind
  apply (reads_flag _ entry.cleanTreeHash.isSome).bind
  apply (reads_readHash _).bind_nil
  obtain ⟨mtimeSec, mtimeNsec, childCount, childDigest, cleanTreeHash⟩ := entry
  cases cleanTreeHash with
  | none => exact Reads.pure _
  | some hash => exact Reads.pure _

theorem reads_directoryEntryPayload (entry : DirectoryCacheEntry) :
    Reads readDirectoryEntryPayload (writeDirectoryEntryPayload entry) entry := by
  apply reads_require (reads_directoryEntryFields _ entry)
  simp only [writeDirectoryEntryPayload, writeFlag, length_append, length_beBytes,
    ContentHash.asBytes_length, length_cons, length_nil]
  omega

theorem reads_untrackedDirectoryEntryPayload (total : Nat) (h : entry.Fits) :
    Reads (readUntrackedDirectoryEntryPayload total)
      (writeUntrackedDirectoryEntryPayload entry) entry := by
  unfold readUntrackedDirectoryEntryPayload writeUntrackedDirectoryEntryPayload
  apply reads_require
  · apply (Reads.takeI64 _ entry.mtimeSec).bind
    apply (Reads.takeU32 _ entry.mtimeNsec).bind
    apply (Reads.takeU32 _ entry.childCount).bind
    apply (reads_readHash entry.childDigest).bind
    apply (reads_readHash entry.ignoreFingerprint).bind
    apply (reads_length h.1 _).bind
    have hpaths : Reads (takeMany (readString total) entry.addedPaths.length)
        (entry.addedPaths.flatMap writeString) (entry.addedPaths.map id) :=
      Reads.many fun path hpath => reads_readString total (h.2 path hpath)
    rw [map_id] at hpaths
    rw [UInt32.toNat_ofNat_of_lt' h.1]
    exact hpaths.bind_nil (Reads.pure _)
  · simp only [length_append, length_beBytes, ContentHash.asBytes_length]
    omega

end RoundTrip

end Heddle.Worktree
