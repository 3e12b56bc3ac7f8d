import Heddle.Replication.Database

namespace Heddle.Replication
open Heddle.Lib Heddle.Oplog List

def headsWith (heads : Table (ContentHash × ContentHash) StateId) (thread : ContentHash)
    (revision : StateId) : Finset ContentHash :=
  ((heads.entries.filter fun e => e.1.1 = thread ∧ e.2 = revision).map fun e => e.1.2).toFinset

section Heads
variable {thread thread' id : ContentHash} {revision revision' : StateId}

theorem mem_headsWith :
    id ∈ headsWith heads thread revision ↔ heads.lookup (thread, id) = some revision := by
  rw [headsWith, mem_toFinset, mem_map, Table.lookup_eq_some]
  constructor
  · rintro ⟨⟨⟨thread', id'⟩, revision'⟩, hmem, rfl⟩
    obtain ⟨hrow, hkeep⟩ := mem_filter.1 hmem
    obtain ⟨rfl, rfl⟩ := of_decide_eq_true hkeep
    exact hrow
  · intro hmem
    exact ⟨_, mem_filter.2 ⟨hmem, decide_eq_true ⟨rfl, rfl⟩⟩, rfl⟩

theorem headsWith_insert (hnew : heads.lookup (thread, id) = none) :
    headsWith (heads.insert (thread, id) revision) thread' revision' =
      if (thread', revision') = (thread, revision) then insert id (headsWith heads thread' revision')
      else headsWith heads thread' revision' := by
  ext id'
  rw [mem_headsWith, Table.lookup_insert]
  by_cases hkey : (thread', id') = (thread, id)
  · obtain ⟨rfl, rfl⟩ := Prod.mk.inj hkey
    rw [if_pos rfl, Option.some.injEq]
    split
    · rename_i heq
      exact ⟨fun _ => Finset.mem_insert_self .., fun _ => ((Prod.mk.inj heq).2).symm⟩
    · rename_i hne
      rw [mem_headsWith, hnew]
      exact ⟨fun h => absurd (h ▸ rfl) hne, nofun⟩
  · rw [if_neg hkey]
    split
    · rename_i heq
      obtain ⟨rfl, rfl⟩ := Prod.mk.inj heq
      rw [Finset.mem_insert, mem_headsWith, or_iff_right]
      exact fun hid => hkey (hid ▸ rfl)
    · exact mem_headsWith.symm

theorem headsWith_erase (hrow : heads.lookup (thread, id) = some revision) :
    headsWith (heads.erase (thread, id)) thread' revision' =
      if (thread', revision') = (thread, revision) then (headsWith heads thread' revision').erase id
      else headsWith heads thread' revision' := by
  ext id'
  rw [mem_headsWith, Table.lookup_erase]
  by_cases hkey : (thread', id') = (thread, id)
  · obtain ⟨rfl, rfl⟩ := Prod.mk.inj hkey
    rw [if_pos rfl]
    split
    · exact ⟨nofun, fun h => absurd rfl (Finset.mem_erase.1 h).1⟩
    · rename_i hne
      rw [mem_headsWith, hrow, Option.some.injEq]
      exact ⟨nofun, fun h => absurd (h ▸ rfl) hne⟩
  · rw [if_neg hkey]
    split
    · rename_i heq
      obtain ⟨rfl, rfl⟩ := Prod.mk.inj heq
      rw [Finset.mem_erase, mem_headsWith, and_iff_right]
      exact fun hid => hkey (hid ▸ rfl)
    · exact mem_headsWith.symm

end Heads

namespace SourceIndex

/-- A count of zero has no row. -/
def positive (n : Nat) : Option Nat := if n = 0 then none else some n

def Counted (index : SourceIndex) : Prop :=
  ∀ thread revision, index.headRevisions.lookup (thread, revision) =
    positive (headsWith index.heads thread revision).card

def Totalled (index : SourceIndex) : Prop :=
  ∀ thread, (index.counts.lookup thread).getD 0 =
    (index.revisions.filter fun row => row.1 = thread).card

section Rows
variable {index index' : SourceIndex} {thread thread' id : ContentHash} {revision : StateId}

theorem insertHead_ok (hcounted : index.Counted) (h : insertHead thread id revision index = .ok index') :
    index'.Counted ∧ index'.revisions = index.revisions ∧ index'.counts = index.counts ∧
      index'.heads = index.heads.insert (thread, id) revision := by
  unfold insertHead at h
  split at h
  · cases h
  · rename_i hnone
    obtain rfl := Except.ok.inj h
    have hnew : index.heads.lookup (thread, id) = none := Option.not_isSome_iff_eq_none.1 hnone
    refine ⟨fun thread' revision' => ?_, rfl, rfl, rfl⟩
    change (index.headRevisions.insert (thread, revision) _).lookup (thread', revision') =
      positive (headsWith (index.heads.insert (thread, id) revision) thread' revision').card
    rw [Table.lookup_insert, headsWith_insert hnew]
    split
    · rename_i heq
      obtain ⟨rfl, rfl⟩ := Prod.mk.inj heq
      have hmem : id ∉ headsWith index.heads thread' revision' := by
        rw [mem_headsWith, hnew]
        exact nofun
      rw [Finset.card_insert_of_notMem hmem, hcounted]
      unfold positive
      split
      · rename_i hzero
        rw [hzero]
        rfl
      · rfl
    · exact hcounted thread' revision'

theorem headDeleted_ok (h : headDeleted thread revision index = .ok index')
    (hlookup : index.headRevisions.lookup (thread, revision) = positive n) (hn : 0 < n) :
    index'.revisions = index.revisions ∧ index'.counts = index.counts ∧ index'.heads = index.heads ∧
      ∀ key, index'.headRevisions.lookup key =
        if key = (thread, revision) then positive (n - 1) else index.headRevisions.lookup key := by
  obtain ⟨m, rfl⟩ := Nat.exists_eq_add_of_lt hn
  rw [Nat.zero_add] at hlookup ⊢
  rw [headDeleted, hlookup] at h
  cases m with
  | zero =>
    obtain rfl := Except.ok.inj h
    exact ⟨rfl, rfl, rfl, fun key => Table.lookup_erase ..⟩
  | succ m =>
    obtain rfl := Except.ok.inj h
    exact ⟨rfl, rfl, rfl, fun key => Table.lookup_insert ..⟩

theorem deleteHead_ok (hcounted : index.Counted) (h : deleteHead index row = .ok index') :
    index'.Counted ∧ index'.revisions = index.revisions ∧ index'.counts = index.counts ∧
      ∀ key, index'.heads.lookup key = if key = row then none else index.heads.lookup key := by
  obtain ⟨thread, id⟩ := row
  unfold deleteHead at h
  split at h
  · rename_i hnone
    obtain rfl := Except.ok.inj h
    refine ⟨hcounted, rfl, rfl, fun key => ?_⟩
    split
    · rename_i hkey
      rw [hkey, hnone]
    · rfl
  · rename_i revision hrow
    have hmem : id ∈ headsWith index.heads thread revision := mem_headsWith.2 hrow
    obtain ⟨hrevisions, hcounts, hheads, hlookup⟩ :=
      headDeleted_ok h (hcounted thread revision) (Finset.card_pos.2 ⟨id, hmem⟩)
    refine ⟨fun thread' revision' => ?_, hrevisions, hcounts, fun key => ?_⟩
    · rw [hlookup, hheads, headsWith_erase hrow]
      split
      · rename_i heq
        obtain ⟨rfl, rfl⟩ := Prod.mk.inj heq
        rw [Finset.card_erase_of_mem hmem]
      · exact hcounted thread' revision'
    · rw [hheads, Table.lookup_erase]

theorem deleteHeads_ok {rows : List (ContentHash × ContentHash)} (hcounted : index.Counted)
    (h : rows.foldlM deleteHead index = .ok index') :
    index'.Counted ∧ index'.revisions = index.revisions ∧ index'.counts = index.counts ∧
      ∀ key, index'.heads.lookup key = if key ∈ rows then none else index.heads.lookup key := by
  induction rows generalizing index with
  | nil =>
    obtain rfl := Except.ok.inj h
    exact ⟨hcounted, rfl, rfl, fun key => (if_neg not_mem_nil).symm⟩
  | cons row rows ih =>
    rw [foldlM_cons] at h
    obtain ⟨middle, hrow, hrest⟩ := bind_eq_ok.1 h
    obtain ⟨hcounted', hrevisions, hcounts, hlookup⟩ := deleteHead_ok hcounted hrow
    obtain ⟨hfinal, hrevisions', hcounts', hlookup'⟩ := ih hcounted' hrest
    refine ⟨hfinal, hrevisions'.trans hrevisions, hcounts'.trans hcounts, fun key => ?_⟩
    rw [hlookup', hlookup]
    by_cases hmem : key ∈ rows
    · rw [if_pos hmem, if_pos (mem_cons_of_mem _ hmem)]
    · rw [if_neg hmem]
      by_cases hkey : key = row
      · rw [if_pos hkey, if_pos (hkey ▸ .head _)]
      · rw [if_neg hkey, if_neg fun h => (mem_cons.1 h).elim hkey hmem]

theorem mem_parentHeads :
    (thread', id) ∈ index.parentHeads thread parents ↔
      (index.heads.lookup (thread', id)).isSome ∧ thread' = thread ∧ id ∈ parents := by
  rw [parentHeads, mem_filter, decide_eq_true_iff, Option.isSome_iff_exists, mem_map]
  constructor
  · rintro ⟨⟨e, he, heq⟩, hkeep⟩
    exact ⟨⟨e.2, Table.lookup_eq_some.2 (heq ▸ he)⟩, hkeep⟩
  · rintro ⟨⟨revision, hrow⟩, hkeep⟩
    exact ⟨⟨_, Table.lookup_eq_some.1 hrow, rfl⟩, hkeep⟩

theorem countRevision_heads : (index.countRevision thread revision).heads = index.heads ∧
    (index.countRevision thread revision).headRevisions = index.headRevisions := by
  unfold countRevision
  split
  · exact ⟨rfl, rfl⟩
  · exact ⟨rfl, rfl⟩

theorem countRevision_revisions :
    (index.countRevision thread revision).revisions = insert (thread, revision) index.revisions := by
  unfold countRevision
  split
  · rename_i hmem
    exact (Finset.insert_eq_of_mem hmem).symm
  · rfl

theorem Totalled.countRevision (h : index.Totalled) :
    (index.countRevision thread revision).Totalled := by
  intro thread'
  unfold SourceIndex.countRevision
  split
  · exact h thread'
  · rename_i hmem
    change ((index.counts.insert thread _).lookup thread').getD 0 =
      ((insert (thread, revision) index.revisions).filter fun row => row.1 = thread').card
    rw [Table.lookup_insert, Finset.filter_insert]
    by_cases hthread : thread' = thread
    · subst hthread
      have hcount := h thread'
      rw [if_pos rfl, if_pos rfl, Finset.card_insert_of_notMem
        (fun hin => hmem (Finset.mem_filter.1 hin).1), ← hcount]
      cases index.counts.lookup thread' with
      | none => rfl
      | some n => rfl
    · rw [if_neg hthread, if_neg fun heq => hthread heq.symm]
      exact h thread'

end Rows

/-- The index of the accepted source operations, given by a graph for each thread. -/
structure Exact (index : SourceIndex) (history : ContentHash → ParentGraph ContentHash)
    (revisionOf : ContentHash → Option StateId) : Prop where
  counted : index.Counted
  totalled : index.Totalled
  heads : ∀ thread id revision, index.heads.lookup (thread, id) = some revision ↔
    (history thread).Frontier id ∧ revisionOf id = some revision
  revisions : ∀ thread revision, (thread, revision) ∈ index.revisions ↔
    ∃ id, (history thread).Available id ∧ revisionOf id = some revision

theorem Exact.congr {index : SourceIndex} (h : index.Exact history revisionOf)
    (hsame : ∀ thread id, (history thread).Available id → revisionOf' id = revisionOf id) :
    index.Exact history revisionOf' where
  counted := h.counted
  totalled := h.totalled
  heads thread id revision := by
    rw [h.heads]
    exact and_congr_right fun hfrontier => by rw [hsame thread id hfrontier.1]
  revisions thread revision := by
    rw [h.revisions]
    exact exists_congr fun id => and_congr_right fun havailable => by rw [hsame thread id havailable]

section Admitted
variable {index index' : SourceIndex} {thread id : ContentHash} {parents : Finset ContentHash}

theorem sourceAdmitted_ok (hcounted : index.Counted) (htotalled : index.Totalled)
    (h : sourceAdmitted thread id parents revision index = .ok index') :
    index'.Counted ∧ index'.Totalled ∧ ∃ revision', revision = some revision' ∧
      index'.revisions = insert (thread, revision') index.revisions ∧
      ∀ thread' id', index'.heads.lookup (thread', id') =
        if (thread', id') = (thread, id) then some revision'
        else if thread' = thread ∧ id' ∈ parents then none else index.heads.lookup (thread', id') := by
  cases revision with
  | none => cases h
  | some revision =>
    obtain ⟨middle, hdelete, hinsert⟩ := bind_eq_ok.1 h
    obtain ⟨hheads, hheadRevisions⟩ := @countRevision_heads index thread revision
    have hcounted' : (index.countRevision thread revision).Counted := by
      unfold Counted
      rw [hheads, hheadRevisions]
      exact hcounted
    obtain ⟨hmiddle, hrevisions, hcounts, hlookup⟩ := deleteHeads_ok hcounted' hdelete
    obtain ⟨hfinal, hrevisions', hcounts', hinserted⟩ := insertHead_ok hmiddle hinsert
    refine ⟨hfinal, ?_, revision, rfl, ?_, fun thread' id' => ?_⟩
    · unfold Totalled
      rw [hcounts', hcounts, hrevisions', hrevisions]
      exact htotalled.countRevision
    · rw [hrevisions', hrevisions, countRevision_revisions]
    · rw [hinserted, Table.lookup_insert, hlookup, hheads]
      split
      · rfl
      · simp only [mem_parentHeads, hheads]
        by_cases hparent : thread' = thread ∧ id' ∈ parents
        · rw [if_pos hparent]
          cases hrow : index.heads.lookup (thread', id') with
          | none => exact ite_self _
          | some revision' => exact if_pos ⟨rfl, hparent⟩
        · rw [if_neg hparent, if_neg fun hmem => hparent hmem.2]

/-- The trigger keeps the index exact when the operation is new and its parents are accepted. -/
theorem Exact.sourceAdmitted (hexact : index.Exact history revisionOf)
    (hclosed : (history thread).Closed) (hnew : history thread id = none)
    (hmem : ∀ p, p ∈ parentList ↔ p ∈ parents)
    (hparents : ∀ p ∈ parents, (history thread).Available p)
    (h : SourceIndex.sourceAdmitted thread id parents (revisionOf id) index = .ok index') :
    index'.Exact (Function.update history thread ((history thread).grow id parentList)) revisionOf := by
  have hlist : ∀ p ∈ parentList, (history thread).Available p := fun p hp => hparents p ((hmem p).1 hp)
  obtain ⟨hcounted, htotalled, revision, hrevision, hrevisions, hheads⟩ :=
    sourceAdmitted_ok hexact.counted hexact.totalled h
  refine ⟨hcounted, htotalled, fun thread' id' revision' => ?_, fun thread' revision' => ?_⟩
  · rw [hheads]
    by_cases hthread : thread' = thread
    · subst hthread
      rw [Function.update_self, ParentGraph.frontier_grow hclosed hnew hlist, hmem]
      by_cases hid : id' = id
      · subst hid
        rw [if_pos rfl, hrevision]
        exact ⟨fun heq => ⟨.inl rfl, heq⟩, fun heq => heq.2⟩
      · rw [if_neg fun heq => hid (Prod.mk.inj heq).2, or_iff_right hid]
        by_cases hparent : id' ∈ parents
        · rw [if_pos ⟨rfl, hparent⟩]
          exact ⟨nofun, fun heq => absurd hparent heq.1.2⟩
        · rw [if_neg fun heq => hparent heq.2, hexact.heads]
          exact ⟨fun heq => ⟨⟨heq.1, hparent⟩, heq.2⟩, fun heq => ⟨heq.1.1, heq.2⟩⟩
    · rw [if_neg fun heq => hthread (Prod.mk.inj heq).1, if_neg fun heq => hthread heq.1,
        Function.update_of_ne hthread]
      exact hexact.heads thread' id' revision'
  · rw [hrevisions, Finset.mem_insert, hexact.revisions]
    by_cases hthread : thread' = thread
    · subst hthread
      rw [Function.update_self]
      simp only [ParentGraph.available_grow]
      constructor
      · rintro (heq | ⟨w, hw, hrev⟩)
        · exact ⟨id, .inl rfl, hrevision.trans (congrArg some (Prod.mk.inj heq).2.symm)⟩
        · exact ⟨w, .inr hw, hrev⟩
      · rintro ⟨w, rfl | hw, hrev⟩
        · rw [hrevision, Option.some.injEq] at hrev
          exact .inl (hrev ▸ rfl)
        · exact .inr ⟨w, hw, hrev⟩
    · rw [Function.update_of_ne hthread, or_iff_right]
      exact fun heq => hthread (Prod.mk.inj heq).1

end Admitted

end SourceIndex

end Heddle.Replication
