import Heddle.Replication.Runs
import Mathlib.Data.Set.Card

namespace Heddle.Replication
open Heddle.Lib Heddle.Oplog Option

instance : LinearOrder StateId :=
  LinearOrder.lift' (fun id => id.bytes.toList.map UInt8.toNat) fun a b h => by
    have hlist := List.map_injective_iff.2 (fun _ _ => UInt8.toNat_inj.1) h
    cases a
    cases b
    exact congrArg StateId.mk (Vector.toList_inj.1 hlist)

def collaborationText : CollaborationCodecError → String
  | .encoding message => "collaboration operation encoding failed: " ++ message
  | .invalid message => "invalid collaboration operation: " ++ message
  | .panicked => "index out of bounds"

structure ThreadView (codec : ThreadCodec) where
  generation : Nat
  frontiers : Table ThreadFacet (Finset ContentHash)
  sourceHeads : Finset StateId
  collaboration : MaterializedRepositoryCollaboration codec.leaves codec.CollaborationOperationId
    codec.DiscussionRecordId
  pending : Finset ContentHash
  rejected : List (ContentHash × String)

section View
variable (codec : ThreadCodec) (thread : ContentHash)

def acceptedByFacet (accepted : List (ContentHash × Op codec)) : Table ThreadFacet (Finset ContentHash) :=
  accepted.foldl (fun frontiers entry => frontiers.insert entry.2.facet
    (insert entry.1 ((frontiers.lookup entry.2.facet).getD ∅))) .empty

def removeParents (frontiers : Table ThreadFacet (Finset ContentHash))
    (entry : ContentHash × Op codec) : Table ThreadFacet (Finset ContentHash) :=
  (frontiers.lookup entry.2.facet).elim frontiers fun heads =>
    frontiers.insert entry.2.facet (heads \ entry.2.parents)

def viewFrontiers (accepted : List (ContentHash × Op codec)) : Table ThreadFacet (Finset ContentHash) :=
  accepted.foldl (removeParents codec) (acceptedByFacet codec accepted)

def viewSourceHeads (accepted : List (ContentHash × Op codec))
    (frontiers : Table ThreadFacet (Finset ContentHash)) : Except ReplicaError (Finset StateId) :=
  ((frontiers.lookup .source).getD ∅ |>.sort (· ≤ ·)).foldlM (fun heads head =>
    (accepted.find? fun entry => entry.1 = head).elim (.ok heads) fun entry => do
      let state ← object (entry.2.sourceState codec)
      return state.elim heads fun state => insert state.stateId heads) ∅

def viewDiscussions (accepted : List (ContentHash × Op codec)) : Except ReplicaError
    (SortedMap codec.CollaborationOperationId (DecodedCollaborationOperation codec.leaves
      codec.CollaborationOperationId codec.DiscussionRecordId)) :=
  accepted.foldlM (fun discussions entry =>
    match entry.2.body with
    | .discussion bytes => do
      let record ← object (codec.decodeDiscussion bytes)
      return discussions.put record.operationId (some record)
    | _ => .ok discussions) .empty

def Database.rowsOf (db : Database V) (status : OperationStatus) :
    List (ContentHash × OperationRow V) :=
  db.operations.entries.filter fun entry => entry.2.thread = thread ∧ entry.2.status = status

def Database.acceptedOperations (db : Db codec) : List (ContentHash × Op codec) :=
  (db.rowsOf thread .accepted).map fun entry => (entry.1, entry.2.canonical)

def Database.view (db : Db codec) : Except ReplicaError (ThreadView codec) := do
  let row ← (db.threads.lookup thread).elim (.error noRows) .ok
  let accepted := db.acceptedOperations codec thread
  let discussions ← viewDiscussions codec accepted
  let frontiers := viewFrontiers codec accepted
  let sourceHeads ← viewSourceHeads codec accepted frontiers
  let collaboration ← mapErr (fun e => .invalid (collaborationText e))
    (materializeRepositoryCollaboration (discussions.entries.map Prod.snd))
  return {
    generation := row.generation
    frontiers := frontiers
    sourceHeads := sourceHeads
    collaboration := collaboration
    pending := ((db.rowsOf thread .pending).map Prod.fst).toFinset
    rejected := (db.rowsOf thread .rejected).map fun entry => (entry.1, entry.2.reason.getD "") }

variable {V : Type} (facet : ThreadFacet) (db : Database V)

def Database.frontierPage (after : Option ContentHash) (limit : Nat) :
    Except ReplicaError (List ContentHash) :=
  if limit = 0 ∨ 1024 < limit then .error (.invalid "page size must be 1..1024")
  else .ok (Lib.pageAfter (db.frontier thread facet) after limit)

def Database.readFrontier (limit fuel : Nat) : Option (Except ReplicaError (List ContentHash)) :=
  runLoop (readPage fun after => db.frontierPage thread facet after limit) fuel (none, [])

def Database.headRevisions : Finset StateId :=
  (((db.sourceIndex.headRevisions.entries.map Prod.fst).filter fun row => row.1 = thread).map
    Prod.snd).toFinset

def Database.summaryIn : Except ReplicaError (Nat × List StateId) :=
  let heads := ((db.headRevisions thread).sort (· ≤ ·)).take 129
  if 128 < heads.length then .error (.invalid "Thread source frontier exceeds view budget")
  else .ok ((db.sourceIndex.counts.lookup thread).getD 0, heads)

end View

section Recomputed
variable {codec : ThreadCodec} {thread id : ContentHash} {facet : ThreadFacet}
  {accepted : List (ContentHash × Op codec)} {db : Db codec}

theorem mem_acceptedByFacet : id ∈ ((acceptedByFacet codec accepted).lookup facet).getD ∅ ↔
    ∃ operation, (id, operation) ∈ accepted ∧ operation.facet = facet := by
  induction accepted using List.reverseRecOn with
  | nil => exact ⟨fun hmem => absurd hmem (Finset.notMem_empty _), fun ⟨_, hmem, _⟩ => nomatch hmem⟩
  | append_singleton accepted entry ih =>
    rw [acceptedByFacet, List.foldl_append, List.foldl_cons, List.foldl_nil, ← acceptedByFacet,
      Table.lookup_insert]
    by_cases hfacet : facet = entry.2.facet
    · rw [if_pos hfacet, getD_some, Finset.mem_insert, ← hfacet, ih]
      constructor
      · rintro (rfl | ⟨operation, hmem, hop⟩)
        · exact ⟨entry.2, List.mem_append_right _ (.head _), hfacet.symm⟩
        · exact ⟨operation, List.mem_append_left _ hmem, hop⟩
      · rintro ⟨operation, hmem, hop⟩
        rcases List.mem_append.1 hmem with hmem | hmem
        · exact .inr ⟨operation, hmem, hop⟩
        · exact .inl (Prod.mk.inj (List.mem_singleton.1 hmem)).1
    · rw [if_neg hfacet, ih]
      constructor
      · exact fun ⟨operation, hmem, hop⟩ => ⟨operation, List.mem_append_left _ hmem, hop⟩
      · rintro ⟨operation, hmem, hop⟩
        rcases List.mem_append.1 hmem with hmem | hmem
        · exact ⟨operation, hmem, hop⟩
        · obtain rfl := List.mem_singleton.1 hmem
          exact absurd hop.symm hfacet

theorem mem_removeParents :
    id ∈ ((removeParents codec frontiers entry).lookup facet).getD ∅ ↔
      id ∈ (frontiers.lookup facet).getD ∅ ∧ (entry.2.facet = facet → id ∉ entry.2.parents) := by
  unfold removeParents
  cases hlookup : frontiers.lookup entry.2.facet with
  | none =>
    rw [elim_none]
    refine ⟨fun hmem => ⟨hmem, fun hfacet => ?_⟩, fun hmem => hmem.1⟩
    rw [← hfacet, hlookup] at hmem
    exact absurd hmem (Finset.notMem_empty _)
  | some heads =>
    rw [elim_some, Table.lookup_insert]
    by_cases hfacet : facet = entry.2.facet
    · rw [if_pos hfacet, getD_some, Finset.mem_sdiff, hfacet, hlookup, getD_some]
      exact ⟨fun h => ⟨h.1, fun _ => h.2⟩, fun h => ⟨h.1, h.2 rfl⟩⟩
    · rw [if_neg hfacet]
      exact ⟨fun h => ⟨h, fun heq => absurd heq.symm hfacet⟩, fun h => h.1⟩

/-- The recomputed frontier of a facet: what is accepted and no parent of an accepted operation of
the facet. -/
theorem mem_viewFrontiers : id ∈ ((viewFrontiers codec accepted).lookup facet).getD ∅ ↔
    (∃ operation, (id, operation) ∈ accepted ∧ operation.facet = facet) ∧
      ∀ entry ∈ accepted, entry.2.facet = facet → id ∉ entry.2.parents := by
  have hfold : ∀ (entries : List (ContentHash × Op codec)) frontiers,
      id ∈ ((entries.foldl (removeParents codec) frontiers).lookup facet).getD ∅ ↔
        id ∈ (frontiers.lookup facet).getD ∅ ∧
          ∀ entry ∈ entries, entry.2.facet = facet → id ∉ entry.2.parents := by
    intro entries
    induction entries with
    | nil => exact fun frontiers => ⟨fun h => ⟨h, nofun⟩, fun h => h.1⟩
    | cons entry entries ih =>
      intro frontiers
      rw [List.foldl_cons, ih, mem_removeParents, List.forall_mem_cons, and_assoc]
  rw [viewFrontiers, hfold, mem_acceptedByFacet]

theorem mem_rowsOf :
    (id, row) ∈ db.rowsOf thread status ↔
      db.operations.get id = some row ∧ row.thread = thread ∧ row.status = status := by
  rw [Database.rowsOf, List.mem_filter, SortedMap.get_eq_some, decide_eq_true_iff]

theorem available_iff : (db.record.history thread facet).Available id ↔
    ∃ row, db.operations.get id = some row ∧ row.thread = thread ∧ row.facet = facet ∧
      row.status = .accepted := by
  rw [Record.history_available]
  constructor
  · rintro ⟨_, hfacts, hthread, hfacet, haccepted⟩
    obtain ⟨row, hrow, rfl⟩ := map_eq_some_iff.1 hfacts
    exact ⟨row, hrow, hthread, hfacet, of_decide_eq_true haccepted⟩
  · rintro ⟨row, hrow, hthread, hfacet, haccepted⟩
    exact ⟨row.facts, congrArg (Option.map OperationRow.facts) hrow, hthread, hfacet,
      decide_eq_true haccepted⟩

theorem step_iff : (db.record.history thread facet).Step child id ↔
    ∃ row, db.operations.get child = some row ∧ row.thread = thread ∧ row.facet = facet ∧
      row.status = .accepted ∧ id ∈ row.canonical.parents := by
  rw [Record.history_step]
  constructor
  · rintro ⟨_, hfacts, hthread, hfacet, haccepted, hmem⟩
    obtain ⟨row, hrow, rfl⟩ := map_eq_some_iff.1 hfacts
    exact ⟨row, hrow, hthread, hfacet, of_decide_eq_true haccepted, hmem⟩
  · rintro ⟨row, hrow, hthread, hfacet, haccepted, hmem⟩
    exact ⟨row.facts, congrArg (Option.map OperationRow.facts) hrow, hthread, hfacet,
      decide_eq_true haccepted, hmem⟩

section
variable (hsound : db.record.Sound codec)
include hsound

theorem row_facet (hrow : db.operations.get id = some row) :
    row.canonical.facet = row.facet :=
  (hsound.facets id row.facts (congrArg (Option.map OperationRow.facts) hrow)).symm

theorem mem_view_frontier :
    id ∈ ((viewFrontiers codec (db.acceptedOperations codec thread)).lookup facet).getD ∅ ↔
      (db.record.history thread facet).Frontier id := by
  rw [mem_viewFrontiers, ParentGraph.Frontier, available_iff]
  simp only [step_iff]
  apply and_congr
  · constructor
    · rintro ⟨operation, hmem, hfacet⟩
      obtain ⟨⟨id', row⟩, hrow, heq⟩ := List.mem_map.1 hmem
      obtain ⟨rfl, rfl⟩ := Prod.mk.inj heq
      obtain ⟨hrow, hthread, haccepted⟩ := mem_rowsOf.1 hrow
      exact ⟨row, hrow, hthread, (row_facet hsound hrow).symm.trans hfacet, haccepted⟩
    · rintro ⟨row, hrow, hthread, hfacet, haccepted⟩
      exact ⟨row.canonical, List.mem_map.2 ⟨(id, row), mem_rowsOf.2 ⟨hrow, hthread, haccepted⟩, rfl⟩,
        (row_facet hsound hrow).trans hfacet⟩
  · constructor
    · rintro hnot child ⟨row, hrow, hthread, hfacet, haccepted, hmem⟩
      exact hnot _ (List.mem_map.2 ⟨(child, row), mem_rowsOf.2 ⟨hrow, hthread, haccepted⟩, rfl⟩)
        ((row_facet hsound hrow).trans hfacet) hmem
    · intro hnot entry hentry hfacet hmem
      obtain ⟨⟨child, row⟩, hrow, rfl⟩ := List.mem_map.1 hentry
      obtain ⟨hrow, hthread, haccepted⟩ := mem_rowsOf.1 hrow
      exact hnot child ⟨row, hrow, hthread, (row_facet hsound hrow).symm.trans hfacet, haccepted, hmem⟩

theorem hasAcceptedChild_iff
    (hrow : db.operations.get id = some row) (hthread : row.thread = thread)
    (hfacet : row.facet = facet) :
    db.hasAcceptedChild id row = true ↔ ∃ child, (db.record.history thread facet).Step child id := by
  rw [Database.hasAcceptedChild, decide_eq_true_iff]
  simp only [step_iff]
  constructor
  · rintro ⟨⟨child, id'⟩, hedge, rfl, row', hrow', hthread', haccepted⟩
    obtain ⟨_, hfacts, hmem⟩ := (hsound.edges child id').1 hedge
    obtain ⟨row'', hrow'', rfl⟩ := map_eq_some_iff.1 hfacts
    obtain rfl := some.inj (hrow'.symm.trans hrow'')
    refine ⟨child, row', hrow', hthread'.trans hthread, ?_, haccepted, hmem⟩
    have hstep : (db.record.history thread row'.facet).Step child id' :=
      step_iff.2 ⟨row', hrow', hthread'.trans hthread, rfl, haccepted, hmem⟩
    obtain ⟨row'', hparent, _, hfacet', _⟩ := available_iff.1 (hsound.closed _ _ _ _ hstep)
    rw [hrow, some.injEq] at hparent
    rw [← hfacet', ← hparent, hfacet]
  · rintro ⟨child, row', hrow', hthread', _, haccepted, hmem⟩
    refine ⟨(child, id), ?_, rfl, row', hrow', hthread'.trans hthread.symm, haccepted⟩
    exact (hsound.edges child id).2 ⟨row'.facts, congrArg (Option.map OperationRow.facts) hrow', hmem⟩

theorem mem_frontier :
    id ∈ db.frontier thread facet ↔ (db.record.history thread facet).Frontier id := by
  rw [Database.frontier, ParentGraph.Frontier, available_iff, List.mem_map]
  constructor
  · rintro ⟨⟨id', row⟩, hmem, rfl⟩
    obtain ⟨hmem, hkeep⟩ := List.mem_filter.1 hmem
    obtain ⟨hthread, hfacet, haccepted, hchild⟩ := of_decide_eq_true hkeep
    have hrow := SortedMap.get_eq_some.2 hmem
    refine ⟨⟨row, hrow, hthread, hfacet, haccepted⟩, fun child hstep => ?_⟩
    rw [(hasAcceptedChild_iff hsound hrow hthread hfacet).2 ⟨child, hstep⟩] at hchild
    cases hchild
  · rintro ⟨⟨row, hrow, hthread, hfacet, haccepted⟩, hnot⟩
    refine ⟨(id, row), List.mem_filter.2 ⟨SortedMap.get_eq_some.1 hrow, decide_eq_true ?_⟩, rfl⟩
    refine ⟨hthread, hfacet, haccepted, ?_⟩
    rw [← Bool.not_eq_true]
    intro hchild
    obtain ⟨child, hstep⟩ := (hasAcceptedChild_iff hsound hrow hthread hfacet).1 hchild
    exact hnot child hstep

end

theorem frontier_sorted : (db.frontier thread facet).Pairwise (· < ·) := by
  rw [Database.frontier, List.pairwise_map]
  exact db.operations.sorted.sublist List.filter_sublist

theorem frontier_eq_sort (hsound : db.record.Sound codec) {heads : Finset ContentHash}
    (hheads : ∀ id, id ∈ heads ↔ (db.record.history thread facet).Frontier id) :
    db.frontier thread facet = heads.sort (· ≤ ·) := by
  apply List.Pairwise.eq_of_mem_iff frontier_sorted (Finset.sortedLT_sort heads).pairwise
  intro id
  rw [mem_frontier hsound, Finset.mem_sort, hheads]

theorem view_frontiers (h : db.view codec thread = .ok view) :
    view.frontiers = viewFrontiers codec (db.acceptedOperations codec thread) := by
  obtain ⟨_, _, h⟩ := bind_eq_ok.1 h
  obtain ⟨_, _, h⟩ := bind_eq_ok.1 h
  obtain ⟨_, _, h⟩ := bind_eq_ok.1 h
  obtain ⟨_, _, h⟩ := bind_eq_ok.1 h
  obtain rfl := Except.ok.inj h
  rfl

theorem readFrontier_returns (hsound : db.record.Sound codec) (hlimit : 1 ≤ limit)
    (hmax : limit ≤ 1024) :
    Returns (db.readFrontier thread facet limit)
      (.ok ((((viewFrontiers codec (db.acceptedOperations codec thread)).lookup facet).getD ∅).sort
        (· ≤ ·))) := by
  have hpage : ∀ after, db.frontierPage thread facet after limit =
      .ok (Lib.pageAfter (db.frontier thread facet) after limit) := fun after => if_neg (by omega)
  rw [← frontier_eq_sort hsound fun id => mem_view_frontier hsound]
  exact runLoop_readPage frontier_sorted hlimit hpage

theorem mem_headRevisions : revision ∈ db.headRevisions thread ↔
    (db.sourceIndex.headRevisions.lookup (thread, revision)).isSome := by
  rw [Database.headRevisions, List.mem_toFinset, List.mem_map, isSome_iff_exists]
  simp only [Table.lookup_eq_some]
  constructor
  · rintro ⟨row, hmem, rfl⟩
    obtain ⟨hmem, hthread⟩ := List.mem_filter.1 hmem
    obtain ⟨entry, hentry, rfl⟩ := List.mem_map.1 hmem
    exact ⟨entry.2, of_decide_eq_true hthread ▸ hentry⟩
  · rintro ⟨count, hmem⟩
    exact ⟨(thread, revision), List.mem_filter.2 ⟨List.mem_map.2 ⟨_, hmem, rfl⟩, decide_eq_true rfl⟩, rfl⟩

theorem summaryIn_ok (h : db.summaryIn thread = .ok (count, heads)) :
    count = (db.sourceIndex.counts.lookup thread).getD 0 ∧
      heads = (db.headRevisions thread).sort (· ≤ ·) := by
  simp only [Database.summaryIn] at h
  split at h
  · cases h
  · rename_i hbudget
    obtain ⟨rfl, rfl⟩ := Prod.mk.inj (Except.ok.inj h)
    refine ⟨rfl, List.take_of_length_le ?_⟩
    rw [List.length_take] at hbudget
    omega

end Recomputed

section Claim
variable (codec : ThreadCodec) (db : Db codec) (thread : ContentHash)

def history (facet : ThreadFacet) : ParentGraph ContentHash := db.record.history thread facet

/-- An accepted source operation without an accepted source child. -/
def IsSourceHead (id : ContentHash) (revision : StateId) : Prop :=
  (history codec db thread .source).Frontier id ∧ db.record.revisionOf id = some revision

def IsControl (property : Property) (id : ContentHash) : Prop :=
  (history codec db thread .metadata).Available id ∧ db.record.propertyOf codec id = some property

/-- The indexes of a thread are what its accepted operations say. -/
structure FrontiersExact : Prop where
  closed : ∀ facet, (history codec db thread facet).Closed
  sourceHeads : ∀ id, (db.sourceIndex.heads.lookup (thread, id)).isSome ↔
    (history codec db thread .source).Frontier id
  headRevisions : ∀ id revision, db.sourceIndex.heads.lookup (thread, id) = some revision ↔
    IsSourceHead codec db thread id revision
  references : ∀ revision, (db.sourceIndex.headRevisions.lookup (thread, revision)).getD 0 =
    Set.ncard {id | IsSourceHead codec db thread id revision}
  distinct : ∀ revision, revision ∈ db.headRevisions thread ↔
    ∃ id, IsSourceHead codec db thread id revision
  revisionCount : (db.headRevisions thread).card =
    Set.ncard {revision | ∃ id, IsSourceHead codec db thread id revision}
  acceptedCount : (db.sourceIndex.counts.lookup thread).getD 0 =
    Set.ncard {revision | ∃ id, (history codec db thread .source).Available id ∧
      db.record.revisionOf id = some revision}
  controlHeads : ∀ property id, (thread, key property, id) ∈ db.controlHeads ↔
    IsControl codec db thread property id ∧ ∀ later, IsControl codec db thread property later →
      ¬ (history codec db thread .metadata).Precedes id later
  pages : ∀ facet limit, 1 ≤ limit → limit ≤ 1024 →
    Returns (db.readFrontier thread facet limit)
      (.ok ((((viewFrontiers codec (db.acceptedOperations codec thread)).lookup facet).getD ∅).sort
        (· ≤ ·)))
  views : ∀ view, db.view codec thread = .ok view →
    view.frontiers = viewFrontiers codec (db.acceptedOperations codec thread)
  summary : ∀ count heads, db.summaryIn thread = .ok (count, heads) →
    count = Set.ncard {revision | ∃ id, (history codec db thread .source).Available id ∧
      db.record.revisionOf id = some revision} ∧
    ∀ revision, revision ∈ heads ↔ ∃ id, IsSourceHead codec db thread id revision

end Claim

section Exactness
variable {codec : ThreadCodec} {db : Db codec} {thread : ContentHash}

section
variable (hsound : db.record.Sound codec)
include hsound

theorem ncard_sourceHeads (revision : StateId) :
    Set.ncard {id | IsSourceHead codec db thread id revision} =
      (headsWith db.sourceIndex.heads thread revision).card := by
  rw [← Set.ncard_coe_finset]
  congr 1
  ext id
  rw [Set.mem_ofPred_eq, Finset.mem_coe, mem_headsWith]
  exact (hsound.sources.heads thread id revision).symm

theorem mem_headRevisions_iff (revision : StateId) :
    revision ∈ db.headRevisions thread ↔ ∃ id, IsSourceHead codec db thread id revision := by
  have hcounted : db.sourceIndex.headRevisions.lookup (thread, revision) = _ :=
    hsound.sources.counted thread revision
  rw [mem_headRevisions, hcounted, SourceIndex.positive]
  constructor
  · intro hsome
    split at hsome
    · cases hsome
    · rename_i hpos
      obtain ⟨id, hid⟩ := Finset.card_pos.1 (Nat.pos_of_ne_zero hpos)
      exact ⟨id, (hsound.sources.heads thread id revision).1 (mem_headsWith.1 hid)⟩
  · rintro ⟨id, hhead⟩
    have hid := mem_headsWith.2 ((hsound.sources.heads thread id revision).2 hhead)
    rw [if_neg (Finset.card_pos.2 ⟨id, hid⟩).ne']
    rfl

theorem acceptedCount_eq :
    (db.sourceIndex.counts.lookup thread).getD 0 =
      Set.ncard {revision | ∃ id, (history codec db thread .source).Available id ∧
        db.record.revisionOf id = some revision} := by
  have htotal : (db.sourceIndex.counts.lookup thread).getD 0 = _ := hsound.sources.totalled thread
  have himage : {revision | ∃ id, (history codec db thread .source).Available id ∧
      db.record.revisionOf id = some revision} =
        ((db.sourceIndex.revisions.filter fun row => row.1 = thread).image Prod.snd : Finset StateId) := by
    ext revision
    rw [Set.mem_ofPred_eq, Finset.mem_coe, Finset.mem_image]
    refine (hsound.sources.revisions thread revision).symm.trans ?_
    constructor
    · exact fun hmem => ⟨(thread, revision), Finset.mem_filter.2 ⟨hmem, rfl⟩, rfl⟩
    · rintro ⟨row, hrow, rfl⟩
      obtain ⟨hin, rfl⟩ := Finset.mem_filter.1 hrow
      exact hin
  rw [htotal, himage, Set.ncard_coe_finset, Finset.card_image_of_injOn]
  · rfl
  · intro row hrow row' hrow' heq
    have hthread : row.1 = thread := (Finset.mem_filter.1 (Finset.mem_coe.1 hrow)).2
    have hthread' : row'.1 = thread := (Finset.mem_filter.1 (Finset.mem_coe.1 hrow')).2
    exact Prod.ext (hthread.trans hthread'.symm) heq

theorem mem_controlHeads_iff (property : Property) (id : ContentHash) :
    (thread, key property, id) ∈ db.controlHeads ↔
      IsControl codec db thread property id ∧ ∀ later, IsControl codec db thread property later →
        ¬ (history codec db thread .metadata).Precedes id later := by
  have hproperty : (db.record.propertyOf codec id).map key = some (key property) ↔
      db.record.propertyOf codec id = some property := by
    constructor
    · intro h
      obtain ⟨own, hown, heq⟩ := map_eq_some_iff.1 h
      rw [hown, key_injective heq]
    · intro h
      rw [h, map_some]
  have hinherit : ∀ c w, (history codec db thread .metadata).Step c w →
      IsControl codec db thread property w → IsControl codec db thread property c := fun c w hstep hw =>
    ⟨hstep.available, (hsound.controls thread c w hstep).trans hw.2⟩
  refine (hsound.controlHeads thread (key property) id).trans ?_
  rw [hproperty]
  constructor
  · rintro ⟨⟨havailable, hchild⟩, hown⟩
    have hself : IsControl codec db thread property id := ⟨havailable, hown⟩
    exact ⟨hself, (ParentGraph.childless_iff_maximal hinherit hself).1 hchild⟩
  · rintro ⟨hself, hmaximal⟩
    exact ⟨⟨hself.1, (ParentGraph.childless_iff_maximal hinherit hself).2 hmaximal⟩, hself.2⟩

theorem frontiersExact_of_sound : FrontiersExact codec db thread where
  closed := hsound.closed thread
  sourceHeads id := by
    rw [isSome_iff_exists]
    constructor
    · rintro ⟨revision, hrow⟩
      exact ((hsound.sources.heads thread id revision).1 hrow).1
    · intro hfrontier
      obtain ⟨revision, hrevision⟩ := isSome_iff_exists.1 (hsound.revised thread id hfrontier.1)
      exact ⟨revision, (hsound.sources.heads thread id revision).2 ⟨hfrontier, hrevision⟩⟩
  headRevisions := hsound.sources.heads thread
  references revision := by
    have hcounted : db.sourceIndex.headRevisions.lookup (thread, revision) = _ :=
      hsound.sources.counted thread revision
    rw [ncard_sourceHeads hsound, hcounted, SourceIndex.positive]
    split
    · rename_i hzero
      exact hzero.symm
    · rfl
  distinct := mem_headRevisions_iff hsound
  revisionCount := by
    rw [← Set.ncard_coe_finset]
    congr 1
    ext revision
    exact mem_headRevisions_iff hsound revision
  acceptedCount := acceptedCount_eq hsound
  controlHeads := mem_controlHeads_iff hsound
  pages _ _ hlimit hmax := readFrontier_returns hsound hlimit hmax
  views _ hview := view_frontiers hview
  summary count heads h := by
    obtain ⟨rfl, rfl⟩ := summaryIn_ok h
    exact ⟨acceptedCount_eq hsound, fun revision => by
      rw [Finset.mem_sort, mem_headRevisions_iff hsound]⟩

end

end Exactness

/-- After every run of calls, successful or failing, the indexes of every thread are exact. -/
theorem frontiers_exact (codec : ThreadCodec) (threads : Table ContentHash ThreadRow)
    (calls : List (Outside codec × ReceiveCall codec)) (thread : ContentHash) :
    FrontiersExact codec (replicaAfter codec threads calls) thread :=
  frontiersExact_of_sound (replicaAfter_sound codec threads calls)

end Heddle.Replication
