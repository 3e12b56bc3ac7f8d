import Heddle.Timeline.Handles
import Heddle.Timeline.Checkpoint
import Mathlib.Data.List.Destutter

namespace Heddle.Timeline
open Heddle.Lib List

theorem mem_destutter_ne [DecidableEq α] {xs : List α} : x ∈ xs.destutter (· ≠ ·) ↔ x ∈ xs := by
  have hcons : ∀ (xs : List α) (a : α), x ∈ xs.destutter' (· ≠ ·) a ↔ x ∈ a :: xs := by
    intro xs
    induction xs with
    | nil => exact fun a => Iff.rfl
    | cons b xs ih =>
      intro a
      by_cases hne : a ≠ b
      · rw [destutter'_cons_pos _ hne, mem_cons, ih, ← mem_cons]
      · rw [destutter'_cons_neg _ hne, ih, not_not.1 hne]
        simp only [mem_cons, or_self_left]
  cases xs with
  | nil => exact Iff.rfl
  | cons a xs => exact hcons xs a

def Canonical (disk : TimelineDisk) (opId : TimelineOperationId) : Prop :=
  (disk.ops.lookup opId).isSome ∨ ∃ op ∈ disk.packedOperations, op.1 = opId

def Listed (disk : TimelineDisk) (opId : TimelineOperationId) : Prop :=
  opId ∈ disk.operationIndex.getD [] ∨ opId ∈ committedIds disk.journal

def pendingIds (journal : Option OperationIndexJournal) : List TimelineOperationId :=
  (journal.map fun journal => (resolveOperationIndexJournalRecords journal.records).2).getD []

section Canonical
variable {disk : TimelineDisk}

theorem mem_packedOperations :
    op ∈ disk.packedOperations ↔ ∃ packName operations,
      disk.packs.lookup packName = some operations ∧ packName ∈ disk.packIndexes ∧
        op ∈ operations := by
  unfold TimelineDisk.packedOperations
  simp only [mem_flatMap, mem_filter, mem_sortBy, decide_eq_true_eq]
  constructor
  · intro h
    obtain ⟨⟨packName, operations⟩, ⟨hpack, hindex⟩, hop⟩ := h
    exact ⟨packName, operations, Table.lookup_eq_some.2 hpack, hindex, hop⟩
  · intro h
    obtain ⟨packName, operations, hpack, hindex, hop⟩ := h
    exact ⟨(packName, operations), ⟨Table.lookup_eq_some.1 hpack, hindex⟩, hop⟩

theorem lookup_isSome [DecidableEq κ] {t : Table κ ν} {k : κ} :
    (t.lookup k).isSome ↔ k ∈ t.entries.map Prod.fst := by
  rw [Option.isSome_iff_exists, mem_map]
  constructor
  · intro h
    obtain ⟨v, hv⟩ := h
    exact ⟨(k, v), Table.lookup_eq_some.1 hv, rfl⟩
  · intro h
    obtain ⟨⟨_, v⟩, hmem, rfl⟩ := h
    exact ⟨v, Table.lookup_eq_some.2 hmem⟩

theorem mem_canonicalOperationIds : opId ∈ disk.canonicalOperationIds ↔ Canonical disk opId := by
  unfold TimelineDisk.canonicalOperationIds Canonical
  rw [mem_destutter_ne, mem_sortBy, mem_append, lookup_isSome]
  exact or_congr Iff.rfl mem_map

theorem readOperationIndex_of_whole (htorn : ∀ journal ∈ disk.journal, journal.torn = 0) :
    ∃ listed, readOperationIndex disk = some listed ∧
      ∀ opId, opId ∈ listed.getD [] ↔ Listed disk opId := by
  have hjournal : readOperationIndexJournal disk.journal = some (committedIds disk.journal) := by
    cases hfile : disk.journal with
    | none => rfl
    | some journal =>
      have hwhole := htorn journal hfile
      simp only [readOperationIndexJournal, hwhole, if_true, committedIds, Option.map_some,
        Option.getD_some]
  have hmem : ∀ opId, opId ∈ listedIds disk ↔ Listed disk opId := by
    intro opId
    rw [listedIds, retainFirst, mem_mergeUnique, mem_append]
    exact or_iff_right not_mem_nil
  have hread : readOperationIndex disk =
      if (listedIds disk).isEmpty ∧ disk.operationIndex.isNone ∧ disk.journal.isNone then some none
      else some (some (listedIds disk)) := by
    unfold readOperationIndex
    rw [hjournal]
    rfl
  rw [hread]
  split
  case isTrue hempty =>
    rw [isEmpty_iff.1 hempty.1] at hmem
    exact ⟨none, rfl, hmem⟩
  case isFalse => exact ⟨some (listedIds disk), rfl, hmem⟩

end Canonical

section Kept
variable (blake3 : Bytes → ContentHash) (msgpack : TimelineMsgpack)

/-- What holds of the files at every moment. -/
structure Intact (disk : TimelineDisk) : Prop where
  loose : ∀ opId bytes, disk.ops.lookup opId = some bytes → Valid blake3 msgpack opId bytes
  packed : ∀ name operations, disk.packs.lookup name = some operations →
    ∀ op ∈ operations, Valid blake3 msgpack op.1 op.2 ∧ Canonical disk op.1
  listed : ∀ opId, Listed disk opId → Canonical disk opId
  checkpoint : ∀ checkpoint ∈ disk.viewCheckpoint,
    ∀ opId ∈ checkpoint.processedOperationIds, opId ∈ checkpoint.view.operationIds

structure Grows (disk disk' : TimelineDisk) : Prop where
  canonical : ∀ opId, Canonical disk opId → Canonical disk' opId
  listed : ∀ opId, Listed disk opId → Listed disk' opId

theorem Grows.refl (disk : TimelineDisk) : Grows disk disk := ⟨fun _ h => h, fun _ h => h⟩

theorem Grows.trans (h : Grows disk disk') (h' : Grows disk' disk'') : Grows disk disk'' :=
  ⟨fun opId hop => h'.canonical opId (h.canonical opId hop),
    fun opId hop => h'.listed opId (h.listed opId hop)⟩

/-- The index knows every operation, be it from a record that is still pending. -/
def Tracked (disk : TimelineDisk) : Prop :=
  ∀ opId, Canonical disk opId → Listed disk opId ∨ opId ∈ pendingIds disk.journal

/-- What a change may leave behind when it began with `start`. -/
structure Kept (track : Prop) (start disk : TimelineDisk) : Prop where
  intact : Intact blake3 msgpack disk
  grows : Grows start disk
  tracked : track → Tracked disk

end Kept

section Steps
variable {blake3 : Bytes → ContentHash} {msgpack : TimelineMsgpack} {track : Prop} {start disk : TimelineDisk}

section
variable (h : Kept blake3 msgpack track start disk)
include h

theorem Kept.setJournal (hkeeps : ∀ opId ∈ committedIds disk.journal,
      opId ∈ disk.operationIndex.getD [] ∨ opId ∈ committedIds journal)
    (hcommitted : ∀ opId ∈ committedIds journal, Canonical disk opId)
    (hpending : track → ∀ opId ∈ pendingIds disk.journal, Canonical disk opId →
      Listed disk opId ∨ opId ∈ committedIds journal ∨ opId ∈ pendingIds journal) :
    Kept blake3 msgpack track start { disk with journal := journal } := by
  have hlisted : ∀ opId, Listed disk opId → Listed { disk with journal := journal } opId := by
    intro opId hop
    rcases hop with hop | hop
    · exact .inl hop
    · exact hkeeps opId hop
  refine ⟨⟨h.intact.loose, h.intact.packed, ?_, h.intact.checkpoint⟩,
    h.grows.trans ⟨fun _ hop => hop, hlisted⟩, ?_⟩
  · intro opId hop
    rcases hop with hop | hop
    · exact h.intact.listed opId (.inl hop)
    · exact hcommitted opId hop
  · intro htrack opId hop
    rcases h.tracked htrack opId hop with hop' | hop'
    · exact .inl (hlisted opId hop')
    · rcases hpending htrack opId hop' hop with hop' | hop' | hop'
      · exact .inl (hlisted opId hop')
      · exact .inl (.inr hop')
      · exact .inr hop'

theorem Kept.setIndex (hkeeps : ∀ opId ∈ disk.operationIndex.getD [], opId ∈ ids)
    (hids : ∀ opId ∈ ids, Canonical disk opId) :
    Kept blake3 msgpack track start { disk with operationIndex := some ids } := by
  have hlisted : ∀ opId, Listed disk opId →
      Listed { disk with operationIndex := some ids } opId := by
    intro opId hop
    rcases hop with hop | hop
    · exact .inl (hkeeps opId hop)
    · exact .inr hop
  refine ⟨⟨h.intact.loose, h.intact.packed, ?_, h.intact.checkpoint⟩,
    h.grows.trans ⟨fun _ hop => hop, hlisted⟩, ?_⟩
  · intro opId hop
    rcases hop with hop | hop
    · exact hids opId hop
    · exact h.intact.listed opId (.inr hop)
  · intro htrack opId hop
    exact (h.tracked htrack opId hop).imp (hlisted opId) id

theorem Kept.setCheckpoint
    (hids : ∀ opId ∈ checkpoint.processedOperationIds, opId ∈ checkpoint.view.operationIds) :
    Kept blake3 msgpack track start { disk with viewCheckpoint := some checkpoint } := by
  refine ⟨⟨h.intact.loose, h.intact.packed, h.intact.listed, ?_⟩,
    ⟨h.grows.canonical, h.grows.listed⟩, h.tracked⟩
  intro found hfound
  obtain rfl := Option.some.inj hfound
  exact hids

theorem Kept.insertOperation
    (hvalid : Valid blake3 msgpack opId bytes) (hpending : opId ∈ pendingIds disk.journal) :
    Kept blake3 msgpack track start
      { disk with ops := disk.ops.insert opId bytes } := by
  have hcanonical : ∀ other, Canonical { disk with ops := disk.ops.insert opId bytes } other ↔
      other = opId ∨ Canonical disk other := by
    intro other
    by_cases hother : other = opId
    · subst hother
      have hself : Canonical { disk with ops := disk.ops.insert other bytes } other := by
        left
        change ((disk.ops.insert other bytes).lookup other).isSome = true
        rw [Table.lookup_insert_self]
        rfl
      exact iff_of_true hself (.inl rfl)
    · rw [or_iff_right hother]
      change ((disk.ops.insert opId bytes).lookup other).isSome = true ∨ _ ↔ _
      rw [Table.lookup_insert_ne hother]
      exact Iff.rfl
  have hgrows : ∀ other, Canonical disk other →
      Canonical { disk with ops := disk.ops.insert opId bytes } other :=
    fun other hother => (hcanonical other).2 (.inr hother)
  refine ⟨⟨?_, ?_, ?_, h.intact.checkpoint⟩, h.grows.trans ⟨hgrows, fun _ hop => hop⟩, ?_⟩
  · intro other found hfound
    by_cases hother : other = opId
    · subst hother
      change (disk.ops.insert other bytes).lookup other = some found at hfound
      rw [Table.lookup_insert_self] at hfound
      obtain rfl := Option.some.inj hfound
      exact hvalid
    · change (disk.ops.insert opId bytes).lookup other = some found at hfound
      rw [Table.lookup_insert_ne hother] at hfound
      exact h.intact.loose other found hfound
  · intro name operations hpack
    have hops := h.intact.packed name operations hpack
    exact fun op hop => ⟨(hops op hop).1, hgrows op.1 (hops op hop).2⟩
  · exact fun other hother => hgrows other (h.intact.listed other hother)
  · intro htrack other hother
    rcases (hcanonical other).1 hother with rfl | hother
    · exact .inr hpending
    · exact h.tracked htrack other hother

theorem Kept.rearrange (hcanonical : ∀ opId, Canonical disk' opId ↔ Canonical disk opId)
    (hindex : disk'.operationIndex = disk.operationIndex)
    (hjournal : disk'.journal = disk.journal)
    (hcheckpoint : disk'.viewCheckpoint = disk.viewCheckpoint)
    (hloose : ∀ opId bytes, disk'.ops.lookup opId = some bytes → disk.ops.lookup opId = some bytes)
    (hpacked : ∀ name operations, disk'.packs.lookup name = some operations →
      ∀ op ∈ operations, Valid blake3 msgpack op.1 op.2 ∧ Canonical disk op.1) :
    Kept blake3 msgpack track start disk' := by
  have hlisted : ∀ opId, Listed disk' opId ↔ Listed disk opId := by
    intro opId
    unfold Listed
    rw [hindex, hjournal]
  refine ⟨⟨?_, ?_, ?_, ?_⟩, h.grows.trans ⟨fun opId => (hcanonical opId).2,
    fun opId => (hlisted opId).2⟩, ?_⟩
  · exact fun opId bytes hop => h.intact.loose opId bytes (hloose opId bytes hop)
  · intro name operations hpack
    have hops := hpacked name operations hpack
    exact fun op hop => ⟨(hops op hop).1, (hcanonical op.1).2 (hops op hop).2⟩
  · exact fun opId hop => (hcanonical opId).2 (h.intact.listed opId ((hlisted opId).1 hop))
  · rw [hcheckpoint]
    exact h.intact.checkpoint
  · intro htrack opId hop
    rw [hlisted, hjournal]
    exact h.tracked htrack opId ((hcanonical opId).1 hop)

end

end Steps

end Heddle.Timeline
