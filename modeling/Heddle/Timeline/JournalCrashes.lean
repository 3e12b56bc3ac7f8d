import Heddle.Timeline.Canonical
import Heddle.Timeline.Calls

namespace Heddle.Timeline
open Heddle.Lib List Option

section Journal

theorem resolve_committed (ids : List TimelineOperationId) :
    resolveOperationIndexJournalRecords (ids.map (JournalKind.committed, ·)) = (ids, []) := by
  induction ids using List.reverseRecOn with
  | nil => rfl
  | append_singleton ids opId ih =>
    rw [map_append, map_singleton, resolve_append, ih]
    rfl

theorem mem_settle (hne : other ≠ opId) :
    other ∈ settle pending opId ↔ other ∈ pending := by
  unfold settle
  rw [mem_reverse, mem_erase_of_ne hne, mem_reverse]

section
variable (journal : OperationIndexJournal) (kind : JournalKind) (torn : Nat)
  (opId : TimelineOperationId)

theorem committedIds_append :
    committedIds (some ⟨journal.records ++ [(kind, opId)], torn⟩) =
      match kind with
      | .pending => committedIds (some journal)
      | .committed => committedIds (some journal) ++ [opId] := by
  unfold committedIds
  rw [map_some, getD_some, resolve_append]
  cases kind with
  | pending => rfl
  | committed => rfl

theorem pendingIds_append :
    pendingIds (some ⟨journal.records ++ [(kind, opId)], torn⟩) =
      match kind with
      | .pending => pendingIds (some journal) ++ [opId]
      | .committed => settle (pendingIds (some journal)) opId := by
  unfold pendingIds
  rw [map_some, getD_some, resolve_append]
  cases kind with
  | pending => rfl
  | committed => rfl

end

theorem committedIds_committed (ids : List TimelineOperationId) (torn : Nat) :
    committedIds (some ⟨ids.map (JournalKind.committed, ·), torn⟩) = ids := by
  unfold committedIds
  rw [map_some, getD_some, resolve_committed]

end Journal

section Reading
variable {blake3 : Bytes → ContentHash} {msgpack : TimelineMsgpack}
  {disk : TimelineDisk}

theorem Intact.packed_valid (h : Intact blake3 msgpack disk) (hop : op ∈ disk.packedOperations) :
    Valid blake3 msgpack op.1 op.2 := by
  obtain ⟨name, operations, hpack, _, hop⟩ := mem_packedOperations.1 hop
  exact (h.packed name operations hpack op hop).1

theorem Intact.readPacked (h : Intact blake3 msgpack disk)
    (hop : ∃ op ∈ disk.packedOperations, op.1 = opId) :
    ∃ bytes, disk.readPackedOperation blake3 opId = some bytes ∧ Valid blake3 msgpack opId bytes := by
  obtain ⟨op, hop, hopId⟩ := hop
  have hfind : (disk.packedOperations.find? (·.1 = opId)).isSome := by
    apply find?_isSome.2
    exact ⟨op, hop, decide_eq_true hopId⟩
  obtain ⟨found, hfound⟩ := isSome_iff_exists.1 hfind
  have hvalid := h.packed_valid (mem_of_find?_eq_some hfound)
  have hid := find?_some hfound
  obtain rfl : found.1 = opId := of_decide_eq_true hid
  refine ⟨found.2, ?_, hvalid⟩
  unfold TimelineDisk.readPackedOperation
  simp only [hfound, bind, Option.bind, hvalid.1, if_true]

theorem packed_of_readPacked (h : disk.readPackedOperation blake3 opId = some bytes) :
    (opId, bytes) ∈ disk.packedOperations := by
  obtain ⟨found, hfound, hread⟩ := bind_eq_some_iff.1 h
  have hid := find?_some hfound
  obtain rfl : found.1 = opId := of_decide_eq_true hid
  split at hread
  · obtain rfl := some.inj hread
    exact mem_of_find?_eq_some hfound
  · cases hread

theorem Intact.read (h : Intact blake3 msgpack disk) (hop : Canonical disk opId) :
    ∃ bytes, disk.readOperationBytes blake3 opId = some bytes ∧ Valid blake3 msgpack opId bytes := by
  unfold TimelineDisk.readOperationBytes
  cases hloose : disk.ops.lookup opId with
  | some bytes => exact ⟨bytes, rfl, h.loose opId bytes hloose⟩
  | none =>
    have hpacked := hop.resolve_left (by rw [hloose]; exact Bool.false_ne_true)
    exact h.readPacked hpacked

theorem Intact.isSome_read (h : Intact blake3 msgpack disk) :
    (disk.readOperationBytes blake3 opId).isSome ↔ Canonical disk opId := by
  constructor
  · intro hread
    obtain ⟨bytes, hbytes⟩ := isSome_iff_exists.1 hread
    rcases or_eq_some_iff.1 hbytes with hloose | ⟨_, hpacked⟩
    · exact .inl (isSome_iff_exists.2 ⟨bytes, hloose⟩)
    · exact .inr ⟨_, packed_of_readPacked hpacked, rfl⟩
  · intro hop
    obtain ⟨bytes, hbytes, _⟩ := h.read hop
    rw [hbytes]
    rfl

end Reading

def Whole (disk : TimelineDisk) : Prop := ∃ journal, disk.journal = some journal ∧ journal.torn = 0

section Sections
variable {blake3 : Bytes → ContentHash} {msgpack : TimelineMsgpack} {track : Prop} {start : TimelineDisk}

theorem Kept.sameRecords (h : Kept blake3 msgpack track start disk)
    (hcommitted : committedIds (some journal) = committedIds disk.journal)
    (hpending : pendingIds (some journal) = pendingIds disk.journal) :
    Kept blake3 msgpack track start { disk with journal := some journal } := by
  apply h.setJournal
  · rw [hcommitted]
    exact fun _ hop => .inr hop
  · rw [hcommitted]
    exact fun opId hop => h.intact.listed opId (.inr hop)
  · rw [hpending]
    exact fun _ opId hop _ => .inr (.inr hop)

theorem repair_runs {P : TimelineDisk → Prop}
    (hP : ∀ disk journal, P disk → committedIds (some journal) = committedIds disk.journal →
      pendingIds (some journal) = pendingIds disk.journal → P { disk with journal := some journal }) :
    Script.Runs (Kept blake3 msgpack track start)
      (fun disk => Kept blake3 msgpack track start disk ∧ P disk)
      repairOperationIndexJournalTail
      (fun disk => (Kept blake3 msgpack track start disk ∧ P disk) ∧ Whole disk) := by
  apply Script.Runs.choose
  intro disk hdisk
  obtain ⟨hkept, hp⟩ := hdisk
  have hset : ∀ journal, committedIds (some journal) = committedIds disk.journal →
      pendingIds (some journal) = pendingIds disk.journal → journal.torn = 0 →
      Script.Runs (Kept blake3 msgpack track start) (fun found => found = disk)
        (Script.step fun found => { found with journal := some journal })
        (fun found => (Kept blake3 msgpack track start found ∧ P found) ∧ Whole found) := by
    intro journal hcommitted hpending htorn
    apply Script.Runs.step
    · rintro _ rfl
      exact hkept
    · rintro _ rfl
      exact hkept.sameRecords hcommitted hpending
    · rintro _ rfl
      exact ⟨⟨hkept.sameRecords hcommitted hpending, hP _ _ hp hcommitted hpending⟩, journal, rfl,
        htorn⟩
  cases hjournal : disk.journal with
  | none => exact hset .empty (by rw [hjournal]; rfl) (by rw [hjournal]; rfl) rfl
  | some journal =>
    by_cases htorn : journal.torn = 0
    · simp only [htorn, if_true]
      apply Script.Runs.skip
      · rintro _ rfl
        exact hkept
      · rintro _ rfl
        exact ⟨⟨hkept, hp⟩, journal, hjournal, htorn⟩
    · simp only [htorn, if_false]
      exact hset { journal with torn := 0 } (by rw [hjournal]; rfl) (by rw [hjournal]; rfl) rfl

theorem repairWhole_runs :
    Script.Runs (Kept blake3 msgpack track start)
      (Kept blake3 msgpack track start) repairOperationIndexJournalTail
      (fun disk => Kept blake3 msgpack track start disk ∧ Whole disk) := by
  have h := @repair_runs blake3 msgpack track start (fun _ => True)
    fun _ _ _ _ _ => trivial
  exact h.weaken (fun _ hkept => ⟨hkept, trivial⟩) fun _ hdisk => ⟨hdisk.1.1, hdisk.2⟩

theorem append_runs (kind : JournalKind) (opId : TimelineOperationId) :
    Script.Runs (Kept blake3 msgpack track start)
      (fun disk => Kept blake3 msgpack track start disk ∧ Whole disk ∧
        (kind = .committed → Canonical disk opId))
      (appendOperationIndexJournalRecord kind opId)
      (fun disk => Kept blake3 msgpack track start disk ∧ Whole disk ∧
        (kind = .pending → opId ∈ pendingIds disk.journal) ∧
        (kind = .committed → Listed disk opId)) := by
  apply Script.Runs.choose
  intro disk hdisk
  obtain ⟨hkept, ⟨journal, hjournal, htorn⟩, hop⟩ := hdisk
  have htornKept : Kept blake3 msgpack track start
      { disk with journal := some { journal with torn := journal.torn + 1 } } :=
    hkept.sameRecords (by rw [hjournal]; rfl) (by rw [hjournal]; rfl)
  have hcommitted := committedIds_append journal kind journal.torn opId
  have hpending := pendingIds_append journal kind journal.torn opId
  have hwhole : Kept blake3 msgpack track start
      { disk with journal := some ⟨journal.records ++ [(kind, opId)], journal.torn⟩ } := by
    apply hkept.setJournal
    · rw [hcommitted, hjournal]
      cases kind with
      | pending => exact fun _ hmem => .inr hmem
      | committed => exact fun _ hmem => .inr (mem_append_left _ hmem)
    · rw [hcommitted]
      have hbefore : ∀ other ∈ committedIds (some journal), Canonical disk other :=
        fun other hmem => hkept.intact.listed other (.inr (hjournal ▸ hmem))
      cases kind with
      | pending => exact hbefore
      | committed =>
        intro other hmem
        rcases mem_append.1 hmem with hmem | hmem
        · exact hbefore other hmem
        · rw [mem_singleton.1 hmem]
          exact hop rfl
    · rw [hcommitted, hpending, hjournal]
      intro _ other hmem _
      right
      cases kind with
      | pending => exact .inr (mem_append_left _ hmem)
      | committed =>
        by_cases hother : other = opId
        · exact .inl (mem_append_right _ (mem_singleton.2 hother))
        · exact .inr ((mem_settle hother).2 hmem)
  simp only [hjournal, getD_some]
  apply Script.Runs.andThen
    (Q := fun found =>
      found = { disk with journal := some { journal with torn := journal.torn + 1 } })
  · apply Script.Runs.step
    · rintro _ rfl
      exact hkept
    · rintro _ rfl
      exact htornKept
    · rintro _ rfl
      rfl
  · apply Script.Runs.step
    · rintro _ rfl
      exact htornKept
    · rintro _ rfl
      exact hwhole
    · rintro _ rfl
      refine ⟨hwhole, ⟨_, rfl, htorn⟩, ?_, ?_⟩
      · rintro rfl
        rw [hpending]
        exact mem_append_right _ (mem_singleton_self _)
      · rintro rfl
        right
        rw [hcommitted]
        exact mem_append_right _ (mem_singleton_self _)

theorem resolvePending_runs :
    Script.Runs (Kept blake3 msgpack track start)
      (fun disk => Kept blake3 msgpack track start disk ∧ Whole disk)
      (resolvePendingRecords blake3)
      (fun disk => Kept blake3 msgpack track start disk ∧ Whole disk ∧
        pendingIds disk.journal = []) := by
  apply Script.Runs.choose
  intro disk hdisk
  obtain ⟨hkept, journal, hjournal, htorn⟩ := hdisk
  have hcommitted : committedIds disk.journal =
      (resolveOperationIndexJournalRecords journal.records).1 := by
    rw [hjournal]
    rfl
  have hpending : pendingIds disk.journal =
      (resolveOperationIndexJournalRecords journal.records).2 := by
    rw [hjournal]
    rfl
  simp only [hjournal]
  split
  case isTrue hempty =>
    apply Script.Runs.skip
    · rintro _ rfl
      exact hkept
    · rintro _ rfl
      exact ⟨hkept, ⟨journal, hjournal, htorn⟩, hpending.trans (isEmpty_iff.1 hempty)⟩
  case isFalse =>
    have hresolved : ∀ ids : List TimelineOperationId, ids = committedIds disk.journal ++
        (pendingIds disk.journal).filter
          (fun opId => (disk.readOperationBytes blake3 opId).isSome) →
        Kept blake3 msgpack track start
          { disk with journal := some ⟨ids.map (JournalKind.committed, ·), 0⟩ } := by
      rintro ids rfl
      apply hkept.setJournal
      · rw [committedIds_committed]
        exact fun _ hmem => .inr (mem_append_left _ hmem)
      · rw [committedIds_committed]
        intro opId hmem
        rcases mem_append.1 hmem with hmem | hmem
        · exact hkept.intact.listed opId (.inr hmem)
        · exact hkept.intact.isSome_read.1 (mem_filter.1 hmem).2
      · rw [committedIds_committed]
        intro _ opId hmem hop
        right
        left
        exact mem_append_right _ (mem_filter.2 ⟨hmem, hkept.intact.isSome_read.2 hop⟩)
    rw [hcommitted, hpending] at hresolved
    apply Script.Runs.step
    · rintro _ rfl
      exact hkept
    · rintro _ rfl
      exact hresolved _ rfl
    · rintro _ rfl
      refine ⟨hresolved _ rfl, ⟨_, rfl, rfl⟩, ?_⟩
      unfold pendingIds
      rw [map_some, getD_some, resolve_committed]

theorem recoverJournal_runs :
    Script.Runs (Kept blake3 msgpack track start)
      (Kept blake3 msgpack track start) (recoverOperationIndexJournal blake3)
      (fun disk => Kept blake3 msgpack track start disk ∧
        (∀ journal ∈ disk.journal, journal.torn = 0) ∧ pendingIds disk.journal = []) := by
  apply Script.Runs.choose
  intro disk hkept
  split
  case isTrue hnone =>
    have hjournal := isNone_iff_eq_none.1 hnone
    apply Script.Runs.skip
    · rintro _ rfl
      exact hkept
    · rintro _ rfl
      rw [hjournal]
      exact ⟨hkept, nofun, rfl⟩
  case isFalse =>
    apply (repairWhole_runs.andThen resolvePending_runs).weaken
    · rintro _ rfl
      exact hkept
    · intro found h
      obtain ⟨hkept, ⟨journal, hjournal, htorn⟩, hpending⟩ := h
      refine ⟨hkept, ?_, hpending⟩
      intro found hfound
      rw [hjournal] at hfound
      obtain rfl := some.inj hfound
      exact htorn

theorem createJournal_runs :
    Script.Runs (Kept blake3 msgpack track start)
      (Kept blake3 msgpack track start) createOperationIndexJournal
      (Kept blake3 msgpack track start) := by
  apply Script.Runs.choose
  intro disk hkept
  split
  case isTrue hnone =>
    have hjournal := isNone_iff_eq_none.1 hnone
    have hcleared : Kept blake3 msgpack track start
        { disk with journal := some .empty } :=
      hkept.sameRecords (by rw [hjournal]; rfl) (by rw [hjournal]; rfl)
    apply Script.Runs.step
    · rintro _ rfl
      exact hkept
    · rintro _ rfl
      exact hcleared
    · rintro _ rfl
      exact hcleared
  case isFalse =>
    apply Script.Runs.skip
    · rintro _ rfl
      exact hkept
    · rintro _ rfl
      exact hkept

theorem publish_runs (hvalid : Valid blake3 msgpack opId bytes) :
    Script.Runs (Kept blake3 msgpack track start)
      (fun disk => Kept blake3 msgpack track start disk ∧ Whole disk ∧
        opId ∈ pendingIds disk.journal)
      (publishOperation opId bytes)
      (fun disk => Kept blake3 msgpack track start disk ∧ Whole disk ∧
        Canonical disk opId) := by
  apply Script.Runs.choose
  intro disk hdisk
  obtain ⟨hkept, hwhole, hpending⟩ := hdisk
  split
  case isTrue hthere =>
    apply Script.Runs.skip
    · rintro _ rfl
      exact hkept
    · rintro _ rfl
      exact ⟨hkept, hwhole, .inl hthere⟩
  case isFalse =>
    have hwritten : Kept blake3 msgpack track start
        { disk with ops := disk.ops.insert opId bytes } := hkept.insertOperation hvalid hpending
    have hthere : Canonical { disk with ops := disk.ops.insert opId bytes } opId := by
      left
      change ((disk.ops.insert opId bytes).lookup opId).isSome = true
      rw [Table.lookup_insert_self]
      rfl
    apply Script.Runs.step
    · rintro _ rfl
      exact hkept
    · rintro _ rfl
      exact hwritten
    · rintro _ rfl
      exact ⟨hwritten, hwhole, hthere⟩

/-- A write keeps the store whatever step it is cut off at, and in the end its operation is
listed. -/
theorem writeOperation_runs (hvalid : Valid blake3 msgpack opId bytes) :
    Script.Runs (Kept blake3 msgpack track start)
      (Kept blake3 msgpack track start) (writeOperation blake3 opId bytes)
      (fun disk => Kept blake3 msgpack track start disk ∧ Listed disk opId) := by
  have hannounce : Script.Runs (Kept blake3 msgpack track start)
      (fun disk => Kept blake3 msgpack track start disk ∧ Whole disk)
      (appendOperationIndexJournalRecord .pending opId)
      (fun disk => Kept blake3 msgpack track start disk ∧ Whole disk ∧
        opId ∈ pendingIds disk.journal) :=
    (append_runs .pending opId).weaken (fun _ h => ⟨h.1, h.2, nofun⟩)
      fun _ h => ⟨h.1, h.2.1, h.2.2.1 rfl⟩
  have hcommit : Script.Runs (Kept blake3 msgpack track start)
      (fun disk => Kept blake3 msgpack track start disk ∧ Whole disk ∧
        Canonical disk opId)
      (appendOperationIndexJournalRecord .committed opId)
      (fun disk => Kept blake3 msgpack track start disk ∧ Listed disk opId) :=
    (append_runs .committed opId).weaken (fun _ h => ⟨h.1, h.2.1, fun _ => h.2.2⟩)
      fun _ h => ⟨h.1, h.2.2.2 rfl⟩
  have hrecover := (@recoverJournal_runs blake3 msgpack track start).weaken
    (fun _ h => h) fun _ h => h.1
  exact (((hrecover.andThen createJournal_runs).andThen repairWhole_runs).andThen
    hannounce).andThen ((publish_runs hvalid).andThen hcommit)

/-- Every operation with a pending record is among the ids, or already listed. -/
def Covers (operationIds : List TimelineOperationId) (disk : TimelineDisk) : Prop :=
  ∀ opId ∈ pendingIds disk.journal, Canonical disk opId → opId ∈ operationIds ∨ Listed disk opId

theorem mem_checkpointOperationIds_of_whole (h : Whole disk) :
    opId ∈ checkpointOperationIds disk ids ↔ opId ∈ ids ∨ Listed disk opId := by
  obtain ⟨journal, hjournal, htorn⟩ := h
  have hwhole : ∀ found ∈ disk.journal, found.torn = 0 := by
    intro found hfound
    rw [hjournal] at hfound
    obtain rfl := some.inj hfound
    exact htorn
  obtain ⟨listed, hread, hlisted⟩ := readOperationIndex_of_whole hwhole
  unfold checkpointOperationIds
  rw [hread, mem_append, mem_mergeUnique, ← hlisted]
  simp only [bind_some, id_eq, not_mem_nil, false_or, mem_filter,
    decide_eq_true_eq]
  tauto

theorem writeOperationIndex_runs (ids : List TimelineOperationId) :
    Script.Runs (Kept blake3 msgpack track start)
      (fun disk => Kept blake3 msgpack track start disk ∧
        (∀ opId ∈ ids, Canonical disk opId) ∧ (track → Covers ids disk))
      (writeOperationIndex ids) (Kept blake3 msgpack track start) := by
  have hrepair := @repair_runs blake3 msgpack track start
    (fun disk => (∀ opId ∈ ids, Canonical disk opId) ∧ (track → Covers ids disk)) (by
      intro disk journal h hcommitted hpending
      refine ⟨h.1, fun htrack opId hmem hop => ?_⟩
      rw [hpending] at hmem
      apply (h.2 htrack opId hmem hop).imp id
      unfold Listed
      rw [hcommitted]
      exact id)
  have hindex : Script.Runs (Kept blake3 msgpack track start)
      (fun disk => (Kept blake3 msgpack track start disk ∧
        (∀ opId ∈ ids, Canonical disk opId) ∧ (track → Covers ids disk)) ∧ Whole disk)
      (Script.step fun disk =>
        { disk with operationIndex := some (checkpointOperationIds disk ids) })
      (fun disk => Kept blake3 msgpack track start disk ∧
        (∀ opId, Listed disk opId → opId ∈ disk.operationIndex.getD []) ∧
        (track → ∀ opId ∈ pendingIds disk.journal, Canonical disk opId → Listed disk opId)) := by
    have hset : ∀ disk, (Kept blake3 msgpack track start disk ∧
        (∀ opId ∈ ids, Canonical disk opId) ∧ (track → Covers ids disk)) ∧ Whole disk →
        Kept blake3 msgpack track start
          { disk with operationIndex := some (checkpointOperationIds disk ids) } := by
      intro disk h
      obtain ⟨⟨hkept, hids, _⟩, hwhole⟩ := h
      apply hkept.setIndex
      · exact fun opId hop => (mem_checkpointOperationIds_of_whole hwhole).2 (.inr (.inl hop))
      · intro opId hop
        rcases (mem_checkpointOperationIds_of_whole hwhole).1 hop with hop | hop
        · exact hids opId hop
        · exact hkept.intact.listed opId hop
    apply Script.Runs.step
    · exact fun _ h => h.1.1
    · exact hset
    · intro disk h
      have hkept := hset disk h
      obtain ⟨⟨_, _, hcovers⟩, hwhole⟩ := h
      refine ⟨hkept, ?_, ?_⟩
      · intro opId hop
        rcases hop with hop | hop
        · exact hop
        · exact (mem_checkpointOperationIds_of_whole hwhole).2 (.inr (.inr hop))
      · intro htrack opId hmem hop
        exact .inl ((mem_checkpointOperationIds_of_whole hwhole).2 (hcovers htrack opId hmem hop))
  have hcleared : ∀ disk, Kept blake3 msgpack track start disk ∧
      (∀ opId, Listed disk opId → opId ∈ disk.operationIndex.getD []) ∧
      (track → ∀ opId ∈ pendingIds disk.journal, Canonical disk opId → Listed disk opId) →
      Kept blake3 msgpack track start { disk with journal := some .empty } := by
    intro disk h
    obtain ⟨hkept, hfolded, hpending⟩ := h
    apply hkept.setJournal
    · exact fun opId hop => .inl (hfolded opId (.inr hop))
    · exact fun opId hop => absurd hop not_mem_nil
    · exact fun htrack opId hmem hop => .inl (hpending htrack opId hmem hop)
  exact (hrepair.andThen hindex).andThen (Script.Runs.step (fun _ h => h.1) hcleared hcleared)

theorem writeViewCheckpoint_runs
    (h : ∀ opId ∈ checkpoint.processedOperationIds, opId ∈ checkpoint.view.operationIds) :
    Script.Runs (Kept blake3 msgpack track start)
      (Kept blake3 msgpack track start) (writeViewCheckpoint checkpoint)
      (Kept blake3 msgpack track start) :=
  Script.Runs.step (fun _ hkept => hkept) (fun _ hkept => hkept.setCheckpoint h)
    fun _ hkept => hkept.setCheckpoint h

end Sections

end Heddle.Timeline
