import Heddle.Oplog.ContainerLossless

namespace Heddle.Oplog
open Heddle Heddle.Lib
open List hiding count

structure OpBatch where
  id : Nat
  entries : List OpEntry
  deriving DecidableEq

def scopeMatches (scope : Option String) (entries : List OpEntry) : Bool :=
  match scope with
  | none => true
  | some scope => entries.all fun entry => entry.scope = some scope

section Indexed
variable (codec : PayloadCodec) (sinceHeadId : Nat) (predicate : OpBatch → Bool)
  (scope : Option String)

/-- The batch of a record of the directory, when it is wanted. -/
def batchAt (index : PackedOpLogIndex) (record : BatchDirRecord) :
    Except HeddleError (Option OpBatch) :=
  if ∃ name ∈ scope, record.scopeState = 0 ∧ name ≠ "" then .ok none
  else do
    let last := record.firstOffsetIndex + record.entryCount
    refuse (2 ^ 64 ≤ last) (.invalidObject "oplog batch directory range overflows")
    refuse (index.sections.batchOffsets.length < last)
      (.invalidObject "oplog batch directory range points outside offset list")
    let found ← ((index.sections.batchOffsets.drop record.firstOffsetIndex).take
      record.entryCount).mapM (readEntryAt codec index.file)
    let entries := found.filter fun entry => sinceHeadId < entry.id
    let batch : OpBatch := ⟨record.batchId, sortBy OpEntry.batchIndex entries⟩
    if ¬entries.isEmpty ∧ scopeMatches scope batch.entries ∧ predicate batch then .ok (some batch)
    else .ok none

def collectFrom (index : PackedOpLogIndex) (count : Nat) :
    List OpBatch → List BatchDirRecord → Except HeddleError (List OpBatch)
  | batches, [] => .ok batches
  | batches, record :: records =>
    if record.newestEntryId ≤ sinceHeadId then .ok batches
    else do
      match ← batchAt codec sinceHeadId predicate scope index record with
      | none => collectFrom index count batches records
      | some batch =>
        if batches.length + 1 = count then .ok (batches ++ [batch])
        else collectFrom index count (batches ++ [batch]) records

def PackedOpLogIndex.collectBatchesAfterScoped (index : PackedOpLogIndex) (count : Nat) :
    Except HeddleError (List OpBatch) :=
  if count = 0 ∨ index.header.entryCount = 0 then .ok []
  else collectFrom codec sinceHeadId predicate scope index count [] index.sections.batchDir

structure SegmentedOpLogIndex where
  base : PackedOpLogIndex
  segments : List PackedOpLogIndex

def collectSegments (count : Nat) :
    List OpBatch → List PackedOpLogIndex → Except HeddleError (List OpBatch)
  | out, [] => .ok out
  | out, segment :: segments =>
    if out.length = count ∨ segment.header.headId ≤ sinceHeadId then
      collectSegments count out segments
    else do
      let batches ← segment.collectBatchesAfterScoped codec sinceHeadId predicate scope
        (count - out.length)
      collectSegments count (out ++ batches) segments

def SegmentedOpLogIndex.collectBatchesAfterScoped (log : SegmentedOpLogIndex) (count : Nat) :
    Except HeddleError (List OpBatch) :=
  collectSegments codec sinceHeadId predicate scope count [] (log.segments.reverse ++ [log.base])

end Indexed

section Scan

def EntryOrder (a b : OpEntry) : Prop :=
  a.batchIndex < b.batchIndex ∨ a.batchIndex = b.batchIndex ∧ a.id ≤ b.id

instance : DecidableRel EntryOrder := fun a b =>
  inferInstanceAs (Decidable
    (a.batchIndex < b.batchIndex ∨ a.batchIndex = b.batchIndex ∧ a.id ≤ b.id))

def OpBatch.newestId (batch : OpBatch) : Nat := ((batch.entries.map OpEntry.id).max?).getD 0

/-- The entries by effective batch id, the batch with the newest entry first. -/
def batchesOf (entries : List OpEntry) : List OpBatch :=
  sortBy (fun batch => OrderDual.toDual batch.newestId)
    ((groupBy effectiveBatchId entries).map fun group =>
      ⟨group.1, group.2.insertionSort EntryOrder⟩)

def scanBatches (entries : List OpEntry) (sinceHeadId : Nat) (predicate : OpBatch → Bool)
    (scope : Option String) (count : Nat) : List OpBatch :=
  ((batchesOf (entries.filter fun entry => sinceHeadId < entry.id)).filter fun batch =>
    scopeMatches scope batch.entries && predicate batch).take count

instance (entries : List OpEntry) : Decidable (Ascending entries) :=
  inferInstanceAs (Decidable (entries.Pairwise fun a b => a.id < b.id))

instance : Std.Total EntryOrder := ⟨fun a b => by unfold EntryOrder; omega⟩
instance : IsTrans OpEntry EntryOrder := ⟨fun a b c => by unfold EntryOrder; omega⟩

theorem entry_ext_of_ascending (h : Ascending entries) (ha : a ∈ entries) (hb : b ∈ entries)
    (hid : a.id = b.id) : a = b := by
  have hnodup : (entries.map OpEntry.id).Nodup :=
    pairwise_map.2 (h.imp fun hlt => Nat.ne_of_lt hlt)
  exact inj_on_of_nodup_map hnodup ha hb hid

theorem batchOrder_unique {entries xs ys : List OpEntry} (h : Ascending entries)
    (hsub : ∀ entry ∈ xs, entry ∈ entries) (hperm : xs.Perm ys) (hx : xs.Pairwise EntryOrder)
    (hy : ys.Pairwise EntryOrder) : xs = ys := by
  apply hperm.eq_of_pairwise _ hx hy
  intro a b ha hb hab hba
  apply entry_ext_of_ascending h (hsub a ha) (hsub b (hperm.mem_iff.2 hb))
  unfold EntryOrder at hab hba
  omega

theorem newestId_eq {batch : OpBatch} (hentry : entry ∈ batch.entries)
    (hall : ∀ other ∈ batch.entries, other.id ≤ entry.id) : batch.newestId = entry.id := by
  have hmax : (batch.entries.map OpEntry.id).max? = some entry.id := by
    apply max?_eq_some_iff.2
    refine ⟨mem_map_of_mem hentry, ?_⟩
    intro n hn
    obtain ⟨other, hother, rfl⟩ := mem_map.1 hn
    exact hall other hother
  unfold OpBatch.newestId
  rw [hmax]
  rfl

theorem exists_newest {batch : OpBatch} (hne : batch.entries ≠ []) :
    ∃ entry ∈ batch.entries, batch.newestId = entry.id ∧
      ∀ other ∈ batch.entries, other.id ≤ entry.id := by
  cases hmax : (batch.entries.map OpEntry.id).max? with
  | none => exact absurd (map_eq_nil_iff.1 (max?_eq_none_iff.1 hmax)) hne
  | some newest =>
    obtain ⟨hmem, hall⟩ := max?_eq_some_iff.1 hmax
    obtain ⟨entry, hentry, rfl⟩ := mem_map.1 hmem
    have hle : ∀ other ∈ batch.entries, other.id ≤ entry.id :=
      fun other hother => hall _ (mem_map_of_mem hother)
    exact ⟨entry, hentry, newestId_eq hentry hle, hle⟩

structure IsBatch (entries : List OpEntry) (batch : OpBatch) : Prop where
  nonempty : batch.entries ≠ []
  entries_eq : batch.entries =
    (entries.filter fun e => effectiveBatchId e = batch.id).insertionSort EntryOrder

theorem isBatch_iff :
    IsBatch entries batch ↔ batch.entries ≠ [] ∧ batch.entries =
      (entries.filter fun e => effectiveBatchId e = batch.id).insertionSort EntryOrder :=
  ⟨fun h => ⟨h.nonempty, h.entries_eq⟩, fun h => ⟨h.1, h.2⟩⟩

theorem IsBatch.mem_iff (h : IsBatch entries batch) :
    entry ∈ batch.entries ↔ entry ∈ entries ∧ effectiveBatchId entry = batch.id := by
  rw [h.entries_eq, mem_insertionSort, mem_filter, decide_eq_true_eq]

theorem IsBatch.ext (hsorted : Ascending entries) (h : IsBatch entries batch)
    (h' : IsBatch entries batch') (hnewest : batch.newestId = batch'.newestId) :
    batch = batch' := by
  obtain ⟨entry, hentry, hid, _⟩ := exists_newest h.nonempty
  obtain ⟨entry', hentry', hid', _⟩ := exists_newest h'.nonempty
  obtain ⟨hmem, hbatch⟩ := h.mem_iff.1 hentry
  obtain ⟨hmem', hbatch'⟩ := h'.mem_iff.1 hentry'
  have hsame : entry = entry' := by
    apply entry_ext_of_ascending hsorted hmem hmem'
    rw [← hid, ← hid', hnewest]
  have hids : batch.id = batch'.id := by rw [← hbatch, ← hbatch', hsame]
  have hentries : batch.entries = batch'.entries := by rw [h.entries_eq, h'.entries_eq, hids]
  cases batch
  cases batch'
  cases hids
  cases hentries
  rfl

structure Batches (entries : List OpEntry) (batches : List OpBatch) : Prop where
  descending : SortedBy (fun batch => OrderDual.toDual batch.newestId) batches
  complete : ∀ batch, batch ∈ batches ↔ IsBatch entries batch

theorem Batches.unique (h : Batches entries batches) (h' : Batches entries batches') :
    batches = batches' :=
  sortedBy_ext_mem h.descending h'.descending fun batch =>
    (h.complete batch).trans (h'.complete batch).symm

theorem isBatch_of_group (h : (batchId, group) ∈ groupBy effectiveBatchId entries) :
    IsBatch entries ⟨batchId, group.insertionSort EntryOrder⟩ := by
  obtain ⟨rfl, hne⟩ := mem_groupBy.1 h
  constructor
  · intro hnil
    have hlength := congrArg length hnil
    rw [length_insertionSort, length_nil] at hlength
    exact hne (length_eq_zero_iff.1 hlength)
  · rfl

theorem batches_of (h : Ascending entries) :
    Batches entries (batchesOf entries) := by
  constructor
  · apply sortBy_sorted
    rw [map_map]
    apply List.Nodup.map_on
    · rintro ⟨batchId, group⟩ hgroup ⟨batchId', group'⟩ hgroup' hnewest
      have hsame := (isBatch_of_group hgroup).ext h (isBatch_of_group hgroup') hnewest
      have hid : batchId = batchId' := congrArg OpBatch.id hsame
      obtain ⟨rfl, _⟩ := mem_groupBy.1 hgroup
      obtain ⟨rfl, _⟩ := mem_groupBy.1 hgroup'
      rw [hid]
    · apply (groupBy_sorted entries).imp
      intro a b hlt heq
      exact absurd (congrArg Prod.fst heq) (ne_of_lt hlt)
  · intro batch
    unfold batchesOf
    rw [mem_sortBy, mem_map]
    constructor
    · rintro ⟨⟨batchId, members⟩, hmem, rfl⟩
      exact isBatch_of_group hmem
    · intro hbatch
      refine ⟨(batch.id, entries.filter fun e => effectiveBatchId e = batch.id),
        mem_groupBy.2 ⟨rfl, ?_⟩, ?_⟩
      · intro hnil
        have heq := hbatch.entries_eq
        rw [hnil] at heq
        exact hbatch.nonempty heq
      · cases batch
        exact congrArg _ hbatch.entries_eq.symm

theorem batchesOf_nil : batchesOf [] = [] := by
  apply eq_nil_iff_forall_not_mem.2
  intro batch hbatch
  have h := ((batches_of List.Pairwise.nil).complete batch).1 hbatch
  exact h.nonempty h.entries_eq

end Scan

section Container
variable {codec : PayloadCodec} {entries : List OpEntry} {offsets : List EntryOffsetRecord}
  {stream : Bytes} {sinceHeadId : Nat}

def newBatch (sinceHeadId : Nat) (group : BatchGroup) : OpBatch :=
  ⟨group.batchId, (group.entries.map Prod.fst).filter fun entry => sinceHeadId < entry.id⟩

theorem group_entries (h : encodeEntries codec headerLen entries = .ok (offsets, stream))
    (hgroup : group ∈ batchGroups (offsetsOf entries offsets)) :
    group.entries.map Prod.fst =
      (entries.filter fun e => effectiveBatchId e = group.batchId).insertionSort EntryOrder := by
  obtain ⟨_, heq⟩ := mem_batchGroups.1 hgroup
  rw [heq]
  unfold batchGroup batchOf
  simp only
  rw [map_insertionSort BatchOrder EntryOrder Prod.fst _ fun _ _ _ _ => Iff.rfl]
  have hmap := filter_map (f := Prod.fst)
    (p := fun e => decide (effectiveBatchId e = group.batchId)) (l := offsetsOf entries offsets)
  rw [map_fst_offsetsOf h] at hmap
  rw [hmap]
  rfl

def wholeBatch (group : BatchGroup) : OpBatch := ⟨group.batchId, group.entries.map Prod.fst⟩

theorem wholeBatch_isBatch (h : encodeEntries codec headerLen entries = .ok (offsets, stream))
    (hgroup : group ∈ batchGroups (offsetsOf entries offsets)) :
    IsBatch entries (wholeBatch group) := by
  refine ⟨?_, group_entries h hgroup⟩
  obtain ⟨hne, heq⟩ := mem_batchGroups.1 hgroup
  intro hnil
  have hentries := map_eq_nil_iff.1 hnil
  rw [heq] at hentries
  have hperm := batchGroup_perm group.batchId (batchOf group.batchId (offsetsOf entries offsets))
  rw [hentries] at hperm
  exact hne hperm.symm.eq_nil

theorem newestEntryId_eq (hgroup : group ∈ batchGroups (offsetsOf entries offsets)) :
    group.newestEntryId = (wholeBatch group).newestId := by
  obtain ⟨_, heq⟩ := mem_batchGroups.1 hgroup
  unfold wholeBatch OpBatch.newestId
  rw [map_map, heq]
  rfl

section
variable (h : encodeEntries codec headerLen entries = .ok (offsets, stream))
include h

theorem exists_group (hentry : entry ∈ entries) : ∃ group ∈ batchGroups (offsetsOf entries offsets),
      group.batchId = effectiveBatchId entry := by
  have hmem := hentry
  rw [← map_fst_offsetsOf h] at hmem
  obtain ⟨found, hfound, rfl⟩ := mem_map.1 hmem
  refine ⟨batchGroup (effectiveBatchId found.1) (batchOf (effectiveBatchId found.1)
    (offsetsOf entries offsets)), mem_batchGroups.2 ⟨?_, rfl⟩, rfl⟩
  exact ne_nil_of_mem (mem_filter.2 ⟨hfound, decide_eq_true rfl⟩)

theorem newBatch_newest (hgroup : group ∈ batchGroups (offsetsOf entries offsets))
    (hnew : sinceHeadId < group.newestEntryId) :
    (newBatch sinceHeadId group).newestId = group.newestEntryId ∧
      (newBatch sinceHeadId group).entries ≠ [] := by
  obtain ⟨entry, hentry, hid, hall⟩ := exists_newest (wholeBatch_isBatch h hgroup).nonempty
  rw [newestEntryId_eq hgroup] at hnew ⊢
  have hmem : entry ∈ (newBatch sinceHeadId group).entries :=
    mem_filter.2 ⟨hentry, decide_eq_true (hid ▸ hnew)⟩
  refine ⟨?_, ne_nil_of_mem hmem⟩
  rw [hid]
  exact newestId_eq hmem fun other hother => hall other (mem_of_mem_filter hother)

theorem newBatch_isBatch
    (hsorted : Ascending entries) (hgroup : group ∈ batchGroups (offsetsOf entries offsets))
    (hnew : sinceHeadId < group.newestEntryId) :
    IsBatch (entries.filter fun entry => sinceHeadId < entry.id) (newBatch sinceHeadId group) := by
  refine ⟨(newBatch_newest h hgroup hnew).2, ?_⟩
  have hentries := group_entries h hgroup
  have hperm : (newBatch sinceHeadId group).entries.Perm
      (((entries.filter fun entry => sinceHeadId < entry.id).filter fun e =>
        effectiveBatchId e = group.batchId).insertionSort EntryOrder) := by
    apply List.Perm.trans _ (perm_insertionSort EntryOrder _).symm
    unfold newBatch
    simp only
    rw [hentries, filter_comm]
    exact (perm_insertionSort EntryOrder _).filter _
  apply batchOrder_unique hsorted _ hperm _ (pairwise_insertionSort EntryOrder _)
  · intro entry hentry
    exact ((wholeBatch_isBatch h hgroup).mem_iff.1 (mem_of_mem_filter hentry)).1
  · unfold newBatch
    simp only
    rw [hentries]
    exact (pairwise_insertionSort EntryOrder _).filter _

theorem batches_newBatch (hsorted : Ascending entries) :
    Batches (entries.filter fun entry => sinceHeadId < entry.id)
      (((batchGroups (offsetsOf entries offsets)).filter fun group =>
        sinceHeadId < group.newestEntryId).map (newBatch sinceHeadId)) := by
  have hmem : ∀ group ∈ (batchGroups (offsetsOf entries offsets)).filter fun group =>
      sinceHeadId < group.newestEntryId, group ∈ batchGroups (offsetsOf entries offsets) ∧
        sinceHeadId < group.newestEntryId := fun group hgroup =>
    ⟨mem_of_mem_filter hgroup, of_decide_eq_true (mem_filter.1 hgroup).2⟩
  constructor
  · have hdescending : (batchGroups (offsetsOf entries offsets)).Pairwise
        fun a b => b.newestEntryId < a.newestEntryId := by
      apply batchGroups_descending
      rwa [map_fst_offsetsOf h]
    apply pairwise_map.2
    apply (hdescending.filter _).imp_of_mem
    intro a b ha hb hlt
    have hab : (newBatch sinceHeadId b).newestId < (newBatch sinceHeadId a).newestId := by
      rw [(newBatch_newest h (hmem a ha).1 (hmem a ha).2).1,
        (newBatch_newest h (hmem b hb).1 (hmem b hb).2).1]
      exact hlt
    exact hab
  · intro batch
    rw [mem_map]
    constructor
    · rintro ⟨group, hgroup, rfl⟩
      exact newBatch_isBatch h hsorted (hmem group hgroup).1 (hmem group hgroup).2
    · intro hbatch
      obtain ⟨entry, hentry, _, _⟩ := exists_newest hbatch.nonempty
      obtain ⟨hnew, hid⟩ := hbatch.mem_iff.1 hentry
      obtain ⟨hentry, hsince⟩ := mem_filter.1 hnew
      obtain ⟨group, hgroup, hgroupId⟩ := exists_group h hentry
      have hwhole := wholeBatch_isBatch h hgroup
      obtain ⟨newest, _, hnewest, hall⟩ := exists_newest hwhole.nonempty
      have hle := hall entry (hwhole.mem_iff.2 ⟨hentry, hgroupId.symm⟩)
      have hgroupNew : sinceHeadId < group.newestEntryId := by
        rw [newestEntryId_eq hgroup, hnewest]
        exact Nat.lt_of_lt_of_le (of_decide_eq_true hsince) hle
      have hnewBatch := newBatch_isBatch h hsorted hgroup hgroupNew
      have hids : (newBatch sinceHeadId group).id = batch.id := hgroupId.trans hid
      refine ⟨group, mem_filter.2 ⟨hgroup, decide_eq_true hgroupNew⟩, ?_⟩
      have hentries := hnewBatch.entries_eq
      rw [hids, ← hbatch.entries_eq] at hentries
      cases batch
      cases hids
      exact congrArg _ hentries

end

theorem scopeState_eq_zero (h : scopeState scopes = 0) :
    ∀ scope ∈ scopes, scope = none := by
  cases scopes with
  | nil => exact fun _ hmem => absurd hmem not_mem_nil
  | cons first rest =>
    have hstate : (if rest.all (· = first) then (if first.isSome then 1 else 0) else 2) = 0 := h
    split at hstate
    case isTrue hsame =>
      cases first with
      | none =>
        intro scope hscope
        rcases mem_cons.1 hscope with rfl | hscope
        · rfl
        · exact of_decide_eq_true (all_eq_true.1 hsame scope hscope)
      | some name => cases hstate
    case isFalse => cases hstate

def wanted (predicate : OpBatch → Bool) (scope : Option String) (batch : OpBatch) : Bool :=
  scopeMatches scope batch.entries && predicate batch

/-- What the loop may rely on for a group with a new entry. -/
structure ReadableGroup (codec : PayloadCodec) (file : Bytes) (group : BatchGroup) : Prop where
  length_lt : group.entries.length < 256 ^ 4
  reads : ∀ e ∈ group.entries, readEntryAt codec file e.2 = .ok e.1
  ordered : (group.entries.map Prod.fst).Pairwise EntryOrder

theorem mapM_offsets (h : ReadableGroup codec file group) :
    (group.entries.map Prod.snd).mapM (readEntryAt codec file) =
      .ok (group.entries.map Prod.fst) := by
  apply mapM_ok_iff.2
  rw [forall₂_map_left_iff, forall₂_map_right_iff, forall₂_same]
  exact h.reads

theorem sortBy_newBatch (h : ReadableGroup codec file group) :
    sortBy OpEntry.batchIndex (newBatch sinceHeadId group).entries =
      (newBatch sinceHeadId group).entries := by
  apply List.Pairwise.insertionSort_eq
  apply (h.ordered.filter _).imp
  intro a b hab
  unfold EntryOrder at hab
  omega

variable {predicate : OpBatch → Bool} {scope : Option String}

theorem batchAt_group (h : ReadableGroup codec index.file group)
    (hnew : (newBatch sinceHeadId group).entries ≠ [])
    (hoffsets : index.sections.batchOffsets = front ++ (group.entries.map Prod.snd ++ back))
    (hbound : front.length + group.entries.length < 2 ^ 64) :
    batchAt codec sinceHeadId predicate scope index
        { batchId := group.batchId, newestEntryId := group.newestEntryId
          firstOffsetIndex := front.length, entryCount := group.entries.length % 256 ^ 4
          scopeState := scopeState (group.entries.map fun e => e.1.scope) } =
      .ok (if wanted predicate scope (newBatch sinceHeadId group) then
        some (newBatch sinceHeadId group) else none) := by
  have hcount : group.entries.length % 256 ^ 4 = group.entries.length :=
    Nat.mod_eq_of_lt h.length_lt
  have htake : (index.sections.batchOffsets.drop front.length).take group.entries.length =
      group.entries.map Prod.snd := by
    rw [hoffsets, drop_left]
    exact take_left' (length_map _)
  have hlength : index.sections.batchOffsets.length =
      front.length + (group.entries.length + back.length) := by
    rw [hoffsets, length_append, length_append, length_map]
  unfold batchAt
  simp only [hcount]
  by_cases hskip : ∃ name ∈ scope,
      scopeState (group.entries.map fun e => e.1.scope) = 0 ∧ name ≠ ""
  · rw [if_pos hskip]
    obtain ⟨name, hname, hzero, _⟩ := hskip
    obtain rfl : scope = some name := hname
    have hnone : wanted predicate (some name) (newBatch sinceHeadId group) = false := by
      obtain ⟨entry, hentry⟩ := exists_mem_of_ne_nil _ hnew
      obtain ⟨e, he, rfl⟩ := mem_map.1 (mem_of_mem_filter hentry)
      have hscope : e.1.scope = none :=
        scopeState_eq_zero hzero e.1.scope (mem_map.2 ⟨e, he, rfl⟩)
      have hmatch : scopeMatches (some name) (newBatch sinceHeadId group).entries = false := by
        apply all_eq_false.2
        refine ⟨e.1, hentry, ?_⟩
        rw [hscope]
        exact fun hbad => nomatch of_decide_eq_true hbad
      unfold wanted
      rw [hmatch, Bool.false_and]
    rw [hnone]
    rfl
  · rw [if_neg hskip]
    have hfits : ¬2 ^ 64 ≤ front.length + group.entries.length := Nat.not_le.2 hbound
    have hinside : ¬index.sections.batchOffsets.length < front.length + group.entries.length := by
      omega
    have hsort : sortBy OpEntry.batchIndex ((group.entries.map Prod.fst).filter
        fun entry => sinceHeadId < entry.id) = (newBatch sinceHeadId group).entries :=
      sortBy_newBatch h
    have hempty : ((group.entries.map Prod.fst).filter
        fun entry => sinceHeadId < entry.id).isEmpty = false :=
      isEmpty_eq_false_iff.2 hnew
    simp only [bind_eq_ok, refuse_eq_ok]
    refine ⟨(), hfits, (), hinside, group.entries.map Prod.fst, ?_, ?_⟩
    · rw [htake]
      exact mapM_offsets h
    · rw [hsort, hempty]
      change (if ¬(false = true) ∧ scopeMatches scope (newBatch sinceHeadId group).entries = true ∧
        predicate (newBatch sinceHeadId group) = true then _ else _) = _
      unfold wanted
      simp only [Bool.false_eq_true, not_false_eq_true, true_and, Bool.and_eq_true]
      by_cases hkeep : scopeMatches scope (newBatch sinceHeadId group).entries = true ∧
          predicate (newBatch sinceHeadId group) = true
      · rw [if_pos hkeep, if_pos hkeep]
        rfl
      · rw [if_neg hkeep, if_neg hkeep]

/-- The loop over the rest of the directory adds the wanted batches of the rest, up to `count`. -/
theorem collectFrom_groups (hread : ∀ group ∈ groups, ReadableGroup codec index.file group)
    (hnew : ∀ group ∈ groups, sinceHeadId < group.newestEntryId →
      (newBatch sinceHeadId group).entries ≠ [])
    (hdescending : groups.Pairwise fun a b => b.newestEntryId < a.newestEntryId)
    (hoffsets : index.sections.batchOffsets =
      front ++ groups.flatMap fun group => group.entries.map Prod.snd)
    (hbound : front.length + totalLength groups < 2 ^ 64) (hcount : batches.length < count) :
    collectFrom codec sinceHeadId predicate scope index count batches
        (batchDirFrom front.length groups) =
      .ok (batches ++ (((groups.filter fun group => sinceHeadId < group.newestEntryId).map
        (newBatch sinceHeadId)).filter (wanted predicate scope)).take
          (count - batches.length)) := by
  induction groups generalizing front batches with
  | nil =>
    rw [filter_nil, map_nil, filter_nil, take_nil, append_nil]
    rfl
  | cons group groups ih =>
    obtain ⟨hreadHead, hreadTail⟩ := forall_mem_cons.1 hread
    obtain ⟨hnewHead, hnewTail⟩ := forall_mem_cons.1 hnew
    obtain ⟨holder, hrest⟩ := pairwise_cons.1 hdescending
    rw [flatMap_cons] at hoffsets
    rw [totalLength_cons] at hbound
    unfold batchDirFrom collectFrom
    by_cases hold : group.newestEntryId ≤ sinceHeadId
    · have hnone : (group :: groups).filter
          (fun group => sinceHeadId < group.newestEntryId) = [] := by
        apply filter_eq_nil_iff.2
        intro other hother
        rw [decide_eq_true_eq]
        rcases mem_cons.1 hother with rfl | hother
        · omega
        · have hlt := holder other hother
          omega
      rw [if_pos hold, hnone, map_nil, filter_nil, take_nil, append_nil]
    · have hsince : sinceHeadId < group.newestEntryId := Nat.not_le.1 hold
      have hat : batchAt codec sinceHeadId predicate scope index _ = _ :=
        batchAt_group hreadHead (hnewHead hsince) hoffsets (by omega)
      have hfront : (front ++ group.entries.map Prod.snd).length =
          front.length + group.entries.length := by
        rw [length_append, length_map]
      have hoffsets' : index.sections.batchOffsets = (front ++ group.entries.map Prod.snd) ++
          groups.flatMap fun group => group.entries.map Prod.snd := by
        rw [hoffsets, append_assoc]
      have hbound' :
          (front ++ group.entries.map Prod.snd).length + totalLength groups < 2 ^ 64 := by
        rw [hfront]
        omega
      have hih := fun batches hlt =>
        @ih (front ++ group.entries.map Prod.snd) batches hreadTail hnewTail hrest hoffsets'
          hbound' hlt
      rw [hfront] at hih
      have hfilter : (group :: groups).filter (fun group => sinceHeadId < group.newestEntryId) =
          group :: groups.filter fun group => sinceHeadId < group.newestEntryId :=
        filter_cons_of_pos (decide_eq_true hsince)
      rw [if_neg hold, hat, hfilter, map_cons]
      by_cases hwanted : wanted predicate scope (newBatch sinceHeadId group) = true
      · rw [if_pos hwanted, filter_cons_of_pos hwanted]
        change (if batches.length + 1 = count then _ else _) = _
        by_cases hfull : batches.length + 1 = count
        · rw [if_pos hfull, ← hfull, Nat.add_sub_cancel_left, take_succ_cons, take_zero]
        · have hlength : (batches ++ [newBatch sinceHeadId group]).length = batches.length + 1 :=
            length_append
          have htake : count - batches.length =
              (count - (batches ++ [newBatch sinceHeadId group]).length) + 1 := by
            omega
          rw [if_neg hfull, hih _ (by omega), htake, take_succ_cons, append_assoc]
          rfl
      · rw [if_neg hwanted, filter_cons_of_neg hwanted]
        exact hih batches hcount

end Container

end Heddle.Oplog
