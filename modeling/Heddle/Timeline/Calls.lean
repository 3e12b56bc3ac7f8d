import Heddle.Timeline.Checkpoint
import Mathlib.Data.List.Induction

namespace Heddle.Timeline
open Heddle.Lib List

section Journal

theorem resolve_append (records : List (JournalKind × TimelineOperationId)) (kind : JournalKind)
    (opId : TimelineOperationId) :
    resolveOperationIndexJournalRecords (records ++ [(kind, opId)]) =
      match kind with
      | .pending => ((resolveOperationIndexJournalRecords records).1,
          (resolveOperationIndexJournalRecords records).2 ++ [opId])
      | .committed => ((resolveOperationIndexJournalRecords records).1 ++ [opId],
          settle (resolveOperationIndexJournalRecords records).2 opId) := by
  unfold resolveOperationIndexJournalRecords
  rw [foldl_append]
  rfl

theorem settle_append_self (pending : List TimelineOperationId) (opId : TimelineOperationId) :
    settle (pending ++ [opId]) opId = pending := by
  unfold settle
  rw [reverse_append, reverse_singleton, singleton_append, erase_cons_head,
    reverse_reverse]

theorem resolve_written (records : List (JournalKind × TimelineOperationId))
    (opId : TimelineOperationId) :
    resolveOperationIndexJournalRecords (records ++ [(.pending, opId)] ++ [(.committed, opId)]) =
      ((resolveOperationIndexJournalRecords records).1 ++ [opId],
        (resolveOperationIndexJournalRecords records).2) := by
  rw [resolve_append]
  simp only [resolve_append, settle_append_self]

end Journal

section Write
variable {blake3 : Bytes → ContentHash} {msgpack : TimelineMsgpack}

theorem recover_of_settled (h : Settled disk.journal) :
    (recoverOperationIndexJournal blake3).final disk = disk := by
  unfold recoverOperationIndexJournal
  rw [Script.final_choose]
  cases hjournal : disk.journal with
  | none => rfl
  | some journal =>
    rw [Option.isNone_some, if_neg Bool.false_ne_true, Script.final_andThen, repair_of_settled h]
    have hopen : { disk with journal := some (disk.journal.getD .empty) } = disk := by
      rw [hjournal, Option.getD_some, ← hjournal]
    rw [hopen]
    unfold resolvePendingRecords
    have hpending : (resolveOperationIndexJournalRecords journal.records).2 = [] :=
      (h journal hjournal).2
    simp only [Script.final_choose, hjournal, hpending, isEmpty_nil, if_true,
      Script.final_skip]

theorem append_final (kind : JournalKind) (opId : TimelineOperationId) (disk : TimelineDisk) :
    (appendOperationIndexJournalRecord kind opId).final disk =
      { disk with
        journal := some { disk.journal.getD .empty with
          records := (disk.journal.getD .empty).records ++ [(kind, opId)] } } := by
  unfold appendOperationIndexJournalRecord
  rw [Script.final_choose, Script.final_andThen]
  rfl

theorem publish_final (opId : TimelineOperationId) (bytes : Bytes) (disk : TimelineDisk) :
    (publishOperation opId bytes).final disk =
      { disk with
        ops := if (disk.ops.lookup opId).isSome then disk.ops else disk.ops.insert opId bytes } := by
  unfold publishOperation
  rw [Script.final_choose]
  split
  · rfl
  · rfl

theorem writeOperation_final (h : Settled disk.journal) (opId : TimelineOperationId)
    (bytes : Bytes) : (writeOperation blake3 opId bytes).final disk =
      { disk with
        ops := if (disk.ops.lookup opId).isSome then disk.ops else disk.ops.insert opId bytes
        journal := some ⟨(disk.journal.getD .empty).records ++ [(.pending, opId)] ++
          [(.committed, opId)], 0⟩ } := by
  have hcreate : createOperationIndexJournal.final disk =
      { disk with journal := some (disk.journal.getD .empty) } := by
    unfold createOperationIndexJournal
    rw [Script.final_choose]
    cases hjournal : disk.journal with
    | none => rfl
    | some journal =>
      rw [Option.isNone_some, if_neg Bool.false_ne_true, Script.final_skip, Option.getD_some,
        ← hjournal]
  have hrepair : repairOperationIndexJournalTail.final
      { disk with journal := some (disk.journal.getD .empty) } =
      { disk with journal := some (disk.journal.getD .empty) } := repair_of_settled h.opened.1
  have htorn : (disk.journal.getD .empty).torn = 0 := h.opened.1.torn
  unfold writeOperation
  simp only [Script.final_andThen, recover_of_settled h, hcreate, hrepair,
    append_final, publish_final, Option.getD_some, htorn]

theorem lookup_published {ops : Table TimelineOperationId Bytes} :
    (if (ops.lookup opId).isSome then ops else ops.insert opId bytes).lookup other =
      if other = opId then (ops.lookup opId).or (some bytes) else ops.lookup other := by
  by_cases hother : other = opId
  · subst hother
    rw [if_pos rfl]
    cases hlookup : ops.lookup other with
    | none =>
      rw [Option.isSome_none, if_neg Bool.false_ne_true, Table.lookup_insert_self, Option.none_or]
    | some found => rw [Option.isSome_some, if_pos rfl, hlookup, Option.some_or]
  · rw [if_neg hother]
    split
    · rfl
    · exact Table.lookup_insert_ne hother

theorem writeOperation_sound (h : Sound blake3 msgpack disk)
    (hdecode : TimelineOperationEnvelope.decode msgpack bytes = some envelope) :
    Sound blake3 msgpack
      ((writeOperation blake3 (TimelineOperationId.forBytes blake3 bytes) bytes).final disk) := by
  rw [writeOperation_final h.settled]
  refine ⟨h.unpacked, ?_, ?_, ?_, ?_⟩
  · intro opId found hfound
    rw [lookup_published] at hfound
    by_cases hopId : opId = TimelineOperationId.forBytes blake3 bytes
    · rw [if_pos hopId] at hfound
      rcases Option.or_eq_some_iff.1 hfound with hfound | ⟨_, hfound⟩
      · exact hopId ▸ h.intact _ _ hfound
      · obtain rfl := Option.some.inj hfound
        exact ⟨hopId.symm, envelope, hdecode⟩
    · rw [if_neg hopId] at hfound
      exact h.intact opId found hfound
  · intro found hfound
    obtain rfl := Option.some.inj hfound
    refine ⟨rfl, ?_⟩
    rw [resolve_written]
    exact (h.settled.opened.1 _ rfl).2
  · intro opId
    have hcommitted : ∀ records, committedIds (some ⟨records, 0⟩) =
      (resolveOperationIndexJournalRecords records).1 := fun _ => rfl
    have hbefore := h.settled.opened.2
    have hrecords : (resolveOperationIndexJournalRecords (disk.journal.getD .empty).records).1 =
        committedIds disk.journal := hbefore
    rw [hcommitted, resolve_written, hrecords, lookup_published, mem_append, ← or_assoc,
      h.listed, mem_singleton]
    by_cases hopId : opId = TimelineOperationId.forBytes blake3 bytes
    · rw [if_pos hopId, Option.isSome_or]
      simp only [hopId, or_true, Option.isSome_some, Bool.or_true]
    · rw [if_neg hopId, or_iff_left hopId]
  · intro checkpoint hcheckpoint
    apply (h.checkpoint checkpoint hcheckpoint).mono
    intro opId record hrecord
    rw [readRecord_congr h.unpacked]
    · exact hrecord
    · exact h.unpacked
    · rw [lookup_published]
      split
      case isTrue hopId =>
        obtain ⟨_, stored, hstored, _⟩ := (readRecord_iff h).1 hrecord
        rw [((readRecord_iff h).1 hrecord).1, hopId] at hstored
        rw [hopId, hstored, Option.some_or]
      case isFalse => rfl

end Write

section Runs
variable (blake3 : Bytes → ContentHash) (msgpack : TimelineMsgpack)

inductive TimelineCall where
  | write (bytes : Bytes)
  | rebuild

/-- What a call leaves in the store. -/
def perform (disk : TimelineDisk) : TimelineCall → TimelineDisk
  | .write bytes => (writeOperationBytes blake3 msgpack bytes).final disk
  | .rebuild => ((rebuild blake3 msgpack disk).map Prod.snd).getD disk

/-- The store after calls on a new one. -/
def performAll (calls : List TimelineCall) : TimelineDisk :=
  calls.foldl (perform blake3 msgpack) .empty

variable {blake3 msgpack}

theorem sound_empty : Sound blake3 msgpack .empty where
  unpacked := rfl
  intact := fun _ _ h => nomatch h
  settled := fun _ h => nomatch h
  listed := by
    intro opId
    constructor
    · rintro (h | h)
      · exact absurd h not_mem_nil
      · exact absurd h not_mem_nil
    · exact fun h => absurd h Bool.false_ne_true
  checkpoint := fun _ h => nomatch h

theorem perform_write (h : TimelineOperationEnvelope.decode msgpack bytes = some envelope)
    (disk : TimelineDisk) : perform blake3 msgpack disk (.write bytes) =
      (writeOperation blake3 (TimelineOperationId.forBytes blake3 bytes) bytes).final disk := by
  have hscript : writeOperationBytes blake3 msgpack bytes =
      writeOperation blake3 (TimelineOperationId.forBytes blake3 bytes) bytes := by
    unfold writeOperationBytes
    rw [h]
  exact congrArg (Script.final · disk) hscript

theorem perform_invalid (h : TimelineOperationEnvelope.decode msgpack bytes = none)
    (disk : TimelineDisk) : perform blake3 msgpack disk (.write bytes) = disk := by
  have hscript : writeOperationBytes blake3 msgpack bytes = Script.skip := by
    unfold writeOperationBytes
    rw [h]
  exact congrArg (Script.final · disk) hscript

theorem perform_rebuild (h : rebuild blake3 msgpack disk = some (view, disk')) :
    perform blake3 msgpack disk .rebuild = disk' :=
  congrArg (fun result => (result.map Prod.snd).getD disk) h

theorem perform_sound (h : Sound blake3 msgpack disk) (call : TimelineCall) :
    Sound blake3 msgpack (perform blake3 msgpack disk call) := by
  cases call with
  | write bytes =>
    cases hdecode : TimelineOperationEnvelope.decode msgpack bytes with
    | none =>
      rw [perform_invalid hdecode]
      exact h
    | some envelope =>
      rw [perform_write hdecode]
      exact writeOperation_sound h hdecode
  | rebuild =>
    obtain ⟨_, disk', _, hrebuild, hrefreshes⟩ := rebuild_replays h
    rw [perform_rebuild hrebuild]
    exact hrefreshes.sound

theorem performAll_concat (calls : List TimelineCall) (call : TimelineCall) :
    performAll blake3 msgpack (calls ++ [call]) =
      perform blake3 msgpack (performAll blake3 msgpack calls) call :=
  foldl_concat ..

theorem performAll_sound (calls : List TimelineCall) :
    Sound blake3 msgpack (performAll blake3 msgpack calls) := by
  induction calls using List.reverseRecOn with
  | nil => exact sound_empty
  | append_singleton calls call ih =>
    rw [performAll_concat]
    exact perform_sound ih call

theorem perform_ops (h : Sound blake3 msgpack disk) (call : TimelineCall)
    (opId : TimelineOperationId) :
    (perform blake3 msgpack disk call).ops.lookup opId = disk.ops.lookup opId ∨
      ∃ bytes envelope, call = .write bytes ∧ opId = TimelineOperationId.forBytes blake3 bytes ∧
        TimelineOperationEnvelope.decode msgpack bytes = some envelope ∧
        disk.ops.lookup opId = none ∧
        (perform blake3 msgpack disk call).ops.lookup opId = some bytes := by
  cases call with
  | write bytes =>
    cases hdecode : TimelineOperationEnvelope.decode msgpack bytes with
    | none =>
      rw [perform_invalid hdecode]
      exact .inl rfl
    | some envelope =>
      rw [perform_write hdecode, writeOperation_final h.settled, lookup_published]
      by_cases hopId : opId = TimelineOperationId.forBytes blake3 bytes
      · rw [if_pos hopId, ← hopId]
        cases hlookup : disk.ops.lookup opId with
        | none => exact .inr ⟨bytes, envelope, rfl, hopId, hdecode, rfl, rfl⟩
        | some found => exact .inl rfl
      · rw [if_neg hopId]
        exact .inl rfl
  | rebuild =>
    obtain ⟨_, disk', _, hrebuild, hrefreshes⟩ := rebuild_replays h
    rw [perform_rebuild hrebuild]
    exact .inl (congrArg (Table.lookup · opId) hrefreshes.ops)

theorem written_of_stored (h : (performAll blake3 msgpack calls).ops.lookup opId = some bytes) :
    .write bytes ∈ calls ∧ opId = TimelineOperationId.forBytes blake3 bytes := by
  induction calls using List.reverseRecOn with
  | nil => cases h
  | append_singleton calls call ih =>
    rw [performAll_concat] at h
    rw [mem_append, mem_singleton]
    rcases perform_ops (performAll_sound calls) call opId with hops | ⟨written, _, rfl, hid, _, _, hops⟩
    · obtain ⟨hmem, hid⟩ := ih (hops ▸ h)
      exact ⟨.inl hmem, hid⟩
    · rw [hops] at h
      obtain rfl := Option.some.inj h
      exact ⟨.inr rfl, hid⟩

theorem stored_of_written (h : .write bytes ∈ calls)
    (hdecode : TimelineOperationEnvelope.decode msgpack bytes = some envelope) :
    ((performAll blake3 msgpack calls).ops.lookup
      (TimelineOperationId.forBytes blake3 bytes)).isSome := by
  induction calls using List.reverseRecOn with
  | nil => cases h
  | append_singleton calls call ih =>
    rw [performAll_concat]
    rcases mem_append.1 h with h | h
    · rcases perform_ops (performAll_sound calls) call (TimelineOperationId.forBytes blake3 bytes) with
        hops | ⟨_, _, _, _, _, _, hops⟩
      · rw [hops]
        exact ih h
      · rw [hops]
        rfl
    · obtain rfl := mem_singleton.1 h
      have hsound : Sound blake3 msgpack (performAll blake3 msgpack calls) := performAll_sound calls
      rw [perform_write hdecode, writeOperation_final hsound.settled,
        lookup_published, if_pos rfl, Option.isSome_or]
      exact Bool.or_true _

def CollisionFree (blake3 : Bytes → ContentHash) (calls : List TimelineCall) : Prop :=
  ∀ first second, .write first ∈ calls → .write second ∈ calls →
    TimelineOperationId.forBytes blake3 first = TimelineOperationId.forBytes blake3 second →
    first = second

theorem stores_iff_written (h : CollisionFree blake3 calls) :
    Stores msgpack (performAll blake3 msgpack calls) record ↔
      ∃ bytes, .write bytes ∈ calls ∧ record.id = TimelineOperationId.forBytes blake3 bytes ∧
        TimelineOperationEnvelope.decode msgpack bytes = some record.envelope := by
  constructor
  · rintro ⟨bytes, hbytes, hdecode⟩
    obtain ⟨hwritten, hid⟩ := written_of_stored hbytes
    exact ⟨bytes, hwritten, hid, hdecode⟩
  · rintro ⟨bytes, hwritten, hid, hdecode⟩
    have hstored : ((performAll blake3 msgpack calls).ops.lookup
        (TimelineOperationId.forBytes blake3 bytes)).isSome := stored_of_written hwritten hdecode
    obtain ⟨found, hfound⟩ := Option.isSome_iff_exists.1 hstored
    obtain ⟨hwritten', hid'⟩ := written_of_stored hfound
    obtain rfl := h bytes found hwritten hwritten' hid'
    exact ⟨bytes, hid ▸ hfound, hdecode⟩

end Runs

end Heddle.Timeline
