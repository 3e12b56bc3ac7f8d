import Heddle.Worktree.Codec
import Heddle.Worktree.Edits

namespace Heddle.Worktree
open Heddle.Lib List
open Heddle.Lib.MsgPack (beBytes ofBeBytes)

def journalMagic : Bytes := utf8 "HDLEJNL\x00"
def journalVersion : Nat := 1
def maxJournalOpsBeforeCompact : Nat := 256
def maxJournalBytesBeforeCompact : Nat := 256 * 1024
def maxJournalReplayMsBeforeCompact : Nat := 16

section Operations

def writeJournalOp : JournalOp → Bytes
  | .upsertFile path entry => 0x01 :: (writeString path ++ writeFileEntryPayload entry)
  | .removeFile path => 0x02 :: writeString path
  | .upsertDirectory path entry => 0x03 :: (writeString path ++ writeDirectoryEntryPayload entry)
  | .removeDirectory path => 0x04 :: writeString path
  | .upsertUntrackedDirectory path entry =>
    0x05 :: (writeString path ++ writeUntrackedDirectoryEntryPayload entry)
  | .removeUntrackedDirectory path => 0x06 :: writeString path
  | .upsertGitlink path target => 0x07 :: (writeString path ++ writeString target)
  | .removeGitlink path => 0x08 :: writeString path

def serializeJournalOps (ops : List JournalOp) : Bytes := ops.flatMap writeJournalOp

def readJournalOpBody (total : Nat) (opType : UInt8) : Reader IndexError JournalOp :=
  match opType.toNat with
  | 0x01 => do
    let path ← readString total
    let entry ← readFileEntryPayload
    return .upsertFile path entry
  | 0x02 => do
    let path ← readString total
    return .removeFile path
  | 0x03 => do
    let path ← readString total
    let entry ← readDirectoryEntryPayload
    return .upsertDirectory path entry
  | 0x04 => do
    let path ← readString total
    return .removeDirectory path
  | 0x05 => do
    let path ← readString total
    let entry ← readUntrackedDirectoryEntryPayload total
    return .upsertUntrackedDirectory path entry
  | 0x06 => do
    let path ← readString total
    return .removeUntrackedDirectory path
  | 0x07 => do
    let path ← readString total
    let target ← readString total
    return .upsertGitlink path target
  | 0x08 => do
    let path ← readString total
    return .removeGitlink path
  | _ => liftRead (.error (.invalidFormat "invalid journal op type"))

def readJournalOp (total : Nat) : Reader IndexError JournalOp := do
  let opType ← takeByte (truncated "journal op")
  readJournalOpBody total opType

def deserializeJournalOps (payload : Bytes) : Except IndexError (List JournalOp) :=
  readAll (readJournalOp payload.length) payload.length payload

end Operations

section File

def journalHeader : Bytes := journalMagic ++ beBytes 4 journalVersion

/-- What `append_journal` writes behind what the journal holds. -/
def appendJournal (pendingOps : List JournalOp) (journal : Bytes) : Bytes :=
  (if journal.length = 0 then journalHeader else []) ++
    FrameLog.frame crc32 (serializeJournalOps pendingOps)

def applyFrame (maps : IndexMaps) (payload : Bytes) : Except IndexError IndexMaps :=
  (deserializeJournalOps payload).map maps.applyOps

def applyJournal (maps : IndexMaps) (journal : Bytes) : Except IndexError IndexMaps :=
  if journal.length = 0 then .ok maps
  else if journal.length < 12 then .error (truncated "journal header")
  else if journal.take 8 ≠ journalMagic then .error (.invalidFormat "missing journal magic bytes")
  else
    let version := ofBeBytes ((journal.drop 8).take 4)
    if version ≠ journalVersion then .error (.versionMismatch journalVersion version)
    else FrameLog.replay crc32 .checksumMismatch applyFrame maps (journal.drop 12)

end File

section Fits

def JournalOp.Fits : JournalOp → Prop
  | .upsertUntrackedDirectory path entry => TextFits path ∧ entry.Fits
  | .upsertGitlink path target => TextFits path ∧ TextFits target
  | .upsertFile path _ | .removeFile path | .upsertDirectory path _ | .removeDirectory path
  | .removeUntrackedDirectory path | .removeGitlink path => TextFits path

theorem length_le_flatMap {xs : List α} (h : ∀ x ∈ xs, f x ≠ []) :
    xs.length ≤ (xs.flatMap f).length := by
  induction xs with
  | nil => exact le_rfl
  | cons x xs ih =>
    have hx := length_pos_iff.2 (h x (.head _))
    have hxs := ih fun y hy => h y (.tail _ hy)
    rw [length_cons, flatMap_cons, length_append]
    omega

theorem length_le_flatMap_of_mem {xs : List α} (h : x ∈ xs) :
    (f x).length ≤ (xs.flatMap f).length := by
  obtain ⟨before, after, rfl⟩ := append_of_mem h
  rw [flatMap_append, flatMap_cons, length_append, length_append]
  omega

theorem length_writeString (value : String) : (writeString value).length = 4 + (utf8 value).length := by
  rw [writeString, length_append, length_beBytes]

theorem writeString_ne_nil (value : String) : writeString value ≠ [] := by
  intro h
  have hlen := length_writeString value
  rw [h, length_nil] at hlen
  omega

theorem UntrackedDirectoryCacheEntry.fits_of_length
    (h : (writeUntrackedDirectoryEntryPayload entry).length < 2 ^ 32) : entry.Fits := by
  have hpaths : (entry.addedPaths.flatMap writeString).length < 2 ^ 32 := by
    simp only [writeUntrackedDirectoryEntryPayload, length_append] at h
    omega
  constructor
  · exact (length_le_flatMap fun path _ => writeString_ne_nil path).trans_lt hpaths
  · intro path hpath
    have hle := length_le_flatMap_of_mem (f := writeString) hpath
    rw [length_writeString] at hle
    unfold TextFits
    omega

theorem JournalOp.fits_of_length (h : (writeJournalOp op).length < 2 ^ 32) :
    op.Fits := by
  cases op with
  | upsertUntrackedDirectory path entry =>
    simp only [writeJournalOp, length_cons, length_append, length_writeString] at h
    exact ⟨by unfold TextFits; omega, UntrackedDirectoryCacheEntry.fits_of_length (by omega)⟩
  | upsertGitlink path target =>
    simp only [writeJournalOp, length_cons, length_append, length_writeString] at h
    exact ⟨by unfold TextFits; omega, by unfold TextFits; omega⟩
  | _ =>
    simp only [writeJournalOp, length_cons, length_append, length_writeString] at h
    unfold Fits TextFits
    omega

end Fits

section RoundTrip

theorem reads_journalOp (total : Nat) (h : op.Fits) :
    Reads (readJournalOp total) (writeJournalOp op) op := by
  cases op with
  | upsertFile path entry =>
    apply (Reads.takeByte _ 0x01).bind
    apply (reads_readString total h).bind
    exact (reads_fileEntryPayload entry).bind_nil (Reads.pure _)
  | removeFile path =>
    apply (Reads.takeByte _ 0x02).bind
    exact (reads_readString total h).bind_nil (Reads.pure _)
  | upsertDirectory path entry =>
    apply (Reads.takeByte _ 0x03).bind
    apply (reads_readString total h).bind
    exact (reads_directoryEntryPayload entry).bind_nil (Reads.pure _)
  | removeDirectory path =>
    apply (Reads.takeByte _ 0x04).bind
    exact (reads_readString total h).bind_nil (Reads.pure _)
  | upsertUntrackedDirectory path entry =>
    apply (Reads.takeByte _ 0x05).bind
    apply (reads_readString total h.1).bind
    exact (reads_untrackedDirectoryEntryPayload total h.2).bind_nil (Reads.pure _)
  | removeUntrackedDirectory path =>
    apply (Reads.takeByte _ 0x06).bind
    exact (reads_readString total h).bind_nil (Reads.pure _)
  | upsertGitlink path target =>
    apply (Reads.takeByte _ 0x07).bind
    apply (reads_readString total h.1).bind
    exact (reads_readString total h.2).bind_nil (Reads.pure _)
  | removeGitlink path =>
    apply (Reads.takeByte _ 0x08).bind
    exact (reads_readString total h).bind_nil (Reads.pure _)

theorem writeJournalOp_ne_nil (op : JournalOp) : writeJournalOp op ≠ [] := by
  cases op with
  | _ => exact cons_ne_nil _ _

theorem deserialize_serialize (h : (serializeJournalOps ops).length < 2 ^ 32) :
    deserializeJournalOps (serializeJournalOps ops) = .ok ops := by
  apply readAll_flatMap
  · intro op hop
    apply reads_journalOp
    exact JournalOp.fits_of_length ((length_le_flatMap_of_mem hop).trans_lt h)
  · exact fun op _ => writeJournalOp_ne_nil op
  · exact length_le_flatMap fun op _ => writeJournalOp_ne_nil op

end RoundTrip

section Contents

def journalFrame (ops : List JournalOp) : Bytes := FrameLog.frame crc32 (serializeJournalOps ops)

def OpsFit (ops : List JournalOp) : Prop := (serializeJournalOps ops).length < 2 ^ 32

instance (ops : List JournalOp) : Decidable (OpsFit ops) :=
  inferInstanceAs (Decidable (_ < _))

def WholeJournal (journal : Bytes) (batches : List (List JournalOp)) : Prop :=
  journal = [] ∧ batches = [] ∨
    journal = journalHeader ++ batches.flatMap journalFrame ∧ ∀ ops ∈ batches, OpsFit ops

/-- Nothing yet, or the header, the frames of these batches and what was written of one more. -/
def JournalHolds (journal : Bytes) (batches : List (List JournalOp)) : Prop :=
  journal = [] ∧ batches = [] ∨ ∃ ops n, OpsFit ops ∧ n < (journalFrame ops).length ∧
    journal = journalHeader ++ (batches.flatMap journalFrame ++ (journalFrame ops).take n) ∧
    ∀ ops ∈ batches, OpsFit ops

/-- Another header, or behind some frames a whole one with another checksum than its own. -/
def Condemned (journal : Bytes) : Prop :=
  12 ≤ journal.length ∧ journal.take 12 ≠ journalHeader ∨
    ∃ (batches : List (List JournalOp)) (rest : Bytes), (∀ ops ∈ batches, OpsFit ops) ∧ FrameLog.BadFrame crc32 rest ∧
      journal = journalHeader ++ (batches.flatMap journalFrame ++ rest)

theorem journalHeader_length : journalHeader.length = 12 := by decide

section
variable (maps : IndexMaps)

theorem applyJournal_header (frames : Bytes) :
    applyJournal maps (journalHeader ++ frames) =
      FrameLog.replay crc32 .checksumMismatch applyFrame maps frames := by
  have hlen : (journalHeader ++ frames).length = 12 + frames.length := by
    rw [length_append, journalHeader_length]
  have hmagic : (journalHeader ++ frames).take 8 = journalMagic := by
    rw [journalHeader, append_assoc]
    exact take_left' (by decide)
  have hversion : ofBeBytes (((journalHeader ++ frames).drop 8).take 4) = journalVersion := by
    have hdrop : (journalHeader ++ frames).drop 8 = beBytes 4 journalVersion ++ frames := by
      rw [journalHeader, append_assoc]
      exact drop_left' (by decide)
    rw [hdrop, take_left' (length_beBytes _ _)]
    exact MsgPack.ofBeBytes_beBytes (by decide)
  rw [applyJournal, if_neg (by omega), if_neg (by omega), if_neg (not_not_intro hmagic), hversion]
  rw [drop_left' journalHeader_length]
  exact if_neg (not_not_intro rfl)

theorem applyFrame_serialize (h : OpsFit ops) :
    applyFrame maps (serializeJournalOps ops) = .ok (maps.applyOps ops) := by
  rw [applyFrame, deserialize_serialize h]
  rfl

theorem replay_batches {batches : List (List JournalOp)}
    (h : ∀ ops ∈ batches, OpsFit ops) (rest : Bytes) :
    FrameLog.replay crc32 .checksumMismatch applyFrame maps (batches.flatMap journalFrame ++ rest) =
      FrameLog.replay crc32 .checksumMismatch applyFrame (maps.applyOps batches.flatten) rest := by
  induction batches generalizing maps with
  | nil => rfl
  | cons ops batches ih =>
    rw [flatMap_cons, append_assoc, journalFrame, FrameLog.replay_frame (h ops (.head _)),
      applyFrame_serialize maps (h ops (.head _)), flatten_cons, applyOps_append]
    exact ih _ fun later hlater => h later (.tail _ hlater)

theorem applyJournal_holds (h : JournalHolds journal batches) :
    applyJournal maps journal = .ok (maps.applyOps batches.flatten) := by
  rcases h with ⟨rfl, rfl⟩ | ⟨ops, n, hfit, hn, rfl, hbatches⟩
  · rfl
  · rw [applyJournal_header, replay_batches maps hbatches]
    exact FrameLog.replay_torn hfit hn

theorem applyJournal_condemned (h : Condemned journal) :
    ∃ e, applyJournal maps journal = .error e := by
  rcases h with ⟨hlen, hheader⟩ | ⟨batches, rest, hbatches, hbad, rfl⟩
  · rw [applyJournal, if_neg (by omega), if_neg (by omega)]
    by_cases hmagic : journal.take 8 = journalMagic
    · have hversion : ofBeBytes ((journal.drop 8).take 4) ≠ journalVersion := by
        intro hversion
        apply hheader
        have hfour : ((journal.drop 8).take 4).length = 4 := by
          rw [length_take, length_drop]
          omega
        rw [journalHeader, ← hmagic, ← hversion, beBytes_of_length hfour]
        exact take_add (l := journal) (i := 8) (j := 4)
      rw [if_neg (not_not_intro hmagic)]
      exact ⟨_, if_pos hversion⟩
    · exact ⟨_, if_pos hmagic⟩
  · rw [applyJournal_header, replay_batches maps hbatches, FrameLog.replay_badFrame hbad]
    exact ⟨_, rfl⟩

theorem applyJournal_short (hne : journal ≠ []) (h : journal.length < 12) :
    ∃ e, applyJournal maps journal = .error e := by
  rw [applyJournal, if_neg (length_pos_iff.2 hne).ne', if_pos h]
  exact ⟨_, rfl⟩

end

theorem WholeJournal.holds (h : WholeJournal journal batches) : JournalHolds journal batches := by
  rcases h with h | ⟨rfl, hbatches⟩
  · exact .inl h
  · refine .inr ⟨[], 0, ?_, ?_, ?_, hbatches⟩
    · exact Nat.two_pow_pos 32
    · rw [journalFrame, FrameLog.frame, length_append, length_append, length_beBytes]
      omega
    · rw [take_zero, append_nil]

theorem WholeJournal.append (h : WholeJournal journal batches) (hfit : OpsFit ops) :
    WholeJournal (journal ++ appendJournal ops journal) (batches ++ [ops]) := by
  rcases h with ⟨rfl, rfl⟩ | ⟨rfl, hbatches⟩
  · refine .inr ⟨?_, ?_⟩
    · rw [appendJournal, if_pos length_nil]
      change journalHeader ++ journalFrame ops = journalHeader ++ (journalFrame ops ++ [])
      rw [append_nil]
    · intro batch hbatch
      exact mem_singleton.1 hbatch ▸ hfit
  · refine .inr ⟨?_, ?_⟩
    · rw [appendJournal, if_neg, nil_append, flatMap_append, append_assoc]
      · change _ = journalHeader ++ (batches.flatMap journalFrame ++ (journalFrame ops ++ []))
        rw [append_nil]
        rfl
      · rw [length_append, journalHeader_length]
        omega
    · intro batch hbatch
      rcases mem_append.1 hbatch with hbatch | hbatch
      · exact hbatches batch hbatch
      · exact mem_singleton.1 hbatch ▸ hfit

theorem applyJournal_append (maps : IndexMaps) (h : WholeJournal journal batches) (hfit : OpsFit ops) :
    applyJournal maps (journal ++ appendJournal ops journal) =
      .ok ((maps.applyOps batches.flatten).applyOps ops) := by
  rw [applyJournal_holds maps (h.append hfit).holds, flatten_append, applyOps_append,
    flatten_singleton]

theorem appendJournal_ne_nil (ops : List JournalOp) (journal : Bytes) :
    appendJournal ops journal ≠ [] := by
  apply ne_nil_of_length_pos
  rw [appendJournal, FrameLog.frame, length_append, length_append, length_append,
    length_beBytes]
  omega

/-- A batch of which not everything was written: the journal is refused, or holds what it held. -/
theorem WholeJournal.append_torn (maps : IndexMaps) (h : WholeJournal journal batches)
    (hfit : OpsFit ops) (hn : n < (appendJournal ops journal).length) :
    JournalHolds (journal ++ (appendJournal ops journal).take n) batches ∨
      ∃ e, applyJournal maps (journal ++ (appendJournal ops journal).take n) = .error e := by
  rcases h with ⟨rfl, rfl⟩ | ⟨rfl, hbatches⟩
  · have happend : appendJournal ops [] = journalHeader ++ journalFrame ops := rfl
    rw [happend] at hn ⊢
    rw [length_append, journalHeader_length] at hn
    rw [nil_append, take_append, journalHeader_length]
    by_cases hheader : n < 12
    · rw [Nat.sub_eq_zero_of_le hheader.le, take_zero, append_nil]
      by_cases hzero : n = 0
      · exact .inl (.inl ⟨by rw [hzero, take_zero], rfl⟩)
      · refine .inr (applyJournal_short maps ?_ ?_)
        · apply ne_nil_of_length_pos
          rw [length_take, journalHeader_length]
          omega
        · rw [length_take, journalHeader_length]
          omega
    · rw [take_of_length_le (by rw [journalHeader_length]; omega)]
      exact .inl (.inr ⟨ops, n - 12, hfit, by omega, rfl, nofun⟩)
  · have happend : appendJournal ops (journalHeader ++ batches.flatMap journalFrame) = journalFrame ops := by
      rw [appendJournal, if_neg, nil_append]
      · rfl
      · rw [length_append, journalHeader_length]
        omega
    rw [happend] at hn ⊢
    exact .inl (.inr ⟨ops, n, hfit, hn, append_assoc _ _ _, hbatches⟩)

end Contents

end Heddle.Worktree
