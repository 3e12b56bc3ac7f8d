import Heddle.Replication.History

namespace Heddle.Replication
open Heddle.Lib Heddle.Oplog List

section Rows
variable {V : Type} {db : Database V} {thread id : ContentHash} {row : OperationRow V}

@[simp] theorem bumpGeneration_record : (db.bumpGeneration thread).record = db.record := rfl

theorem get_setRow (id' : ContentHash) :
    (db.setRow id row).operations.get id' = if id' = id then some row else db.operations.get id' := by
  rw [Database.setRow, SortedMap.get_put]
  by_cases hid : id' = id
  · rw [if_pos hid, if_pos hid]
  · rw [if_neg hid, if_neg hid]

theorem setRow_record : (db.setRow id row).record =
    { db.record with rows := Function.update db.record.rows id (some row.facts) } := by
  refine congrArg (fun rows => Record.mk rows db.parents db.sourceIndex db.controlHeads) (funext ?_)
  intro id'
  rw [get_setRow]
  by_cases hid : id' = id
  · rw [if_pos hid, hid, Function.update_self, Option.map_some]
  · rw [if_neg hid, Function.update_of_ne hid]
    rfl

theorem setRow_record_of_facts (hrow : db.operations.get id = some row')
    (hfacts : row.facts = row'.facts) : (db.setRow id row).record = db.record := by
  have hself : db.record.rows id = some row.facts := by
    rw [hfacts]
    exact congrArg (Option.map OperationRow.facts) hrow
  rw [setRow_record, ← hself, Function.update_eq_self]

theorem markRejected_record (hrow : db.operations.get id = some row) (hpending : row.status = .pending)
    (reason : String) : (db.markRejected id reason).record = db.record := by
  rw [Database.markRejected, hrow, Option.elim_some]
  apply setRow_record_of_facts hrow
  simp only [OperationRow.facts, hpending]
  rfl

end Rows

/-- What deciding one operation leaves alone. -/
structure Decided {V : Type} (id : ContentHash) (db db' : Database V) : Prop where
  parents : db'.parents = db.parents
  others : ∀ id', id' ≠ id → db'.operations.get id' = db.operations.get id'
  self : ∀ row, db.operations.get id = some row → ∃ row', db'.operations.get id = some row' ∧
    row'.thread = row.thread ∧ row'.facet = row.facet ∧ row'.status ≠ .pending

theorem markRejected_decided {id : ContentHash} {row : OperationRow V}
    (hrow : db.operations.get id = some row) (reason : String) :
    Decided id db (db.markRejected id reason) := by
  rw [Database.markRejected, hrow, Option.elim_some]
  refine ⟨rfl, fun id' hid => ?_, fun row' hrow' => ?_⟩
  · rw [get_setRow, if_neg hid]
  · rw [hrow, Option.some.injEq] at hrow'
    subst hrow'
    exact ⟨_, (get_setRow id).trans (if_pos rfl), rfl, rfl, nofun⟩

section Ready
variable {V : Type} {db db' : Database V} {thread id id' : ContentHash} {row row' : OperationRow V}

/-- A pending row whose parents decide it. -/
structure Ready (thread : ContentHash) (db : Database V) (id : ContentHash) (row : OperationRow V) :
    Prop where
  get : db.operations.get id = some row
  thread : row.thread = thread
  pending : row.status = .pending
  decided : (∃ parent ∈ db.parentsOf id, db.failing row.thread row.facet parent = true) ∨
    ∀ parent ∈ db.parentsOf id, db.settled parent = true

theorem ready_of_mem (h : (id, row) ∈ db.ready thread) : Ready thread db id row := by
  obtain ⟨hmem, hready⟩ := mem_filter.1 (mem_of_mem_take h)
  obtain ⟨hthread, hpending, _, hdecided⟩ := of_decide_eq_true hready
  exact ⟨SortedMap.get_eq_some.2 hmem, hthread, hpending, hdecided⟩

theorem ready_nodup : ((db.ready thread).map Prod.fst).Nodup := by
  have hsorted := sortedBy_nodup db.operations.sorted
  exact hsorted.sublist (((take_sublist _ _).trans filter_sublist).map _)

theorem failing_iff :
    db.failing thread facet parent = true ↔ ∃ row, db.operations.get parent = some row ∧
      (row.status = .rejected ∨ row.thread ≠ thread ∨ row.facet ≠ facet) := by
  rw [Database.failing, Option.any_eq_true]
  simp only [decide_eq_true_iff]

theorem settled_iff : db.settled parent = true ↔
    ∃ row, db.operations.get parent = some row ∧ row.status = .accepted := by
  rw [Database.settled, Option.any_eq_true]
  simp only [decide_eq_true_iff]

theorem Ready.other (h : Ready thread db id row) (hfirst : Ready thread db id' row')
    (hne : id ≠ id') (hdecided : Decided id' db db') : Ready thread db' id row := by
  have hparents : db'.parentsOf id = db.parentsOf id := by
    rw [Database.parentsOf, Database.parentsOf, hdecided.parents]
  refine ⟨(hdecided.others id hne).trans h.get, h.thread, h.pending, ?_⟩
  rw [hparents]
  rcases h.decided with ⟨parent, hmem, hfailing⟩ | hsettled
  · refine .inl ⟨parent, hmem, ?_⟩
    rw [failing_iff] at hfailing ⊢
    obtain ⟨a, ha, hcause⟩ := hfailing
    by_cases hparent : parent = id'
    · subst hparent
      obtain ⟨a', ha', hthread, hfacet, _⟩ := hdecided.self a ha
      rw [hfirst.get, Option.some.injEq] at ha
      refine ⟨a', ha', .inr ?_⟩
      rw [hthread, hfacet]
      refine hcause.resolve_left ?_
      rw [← ha, hfirst.pending]
      exact nofun
    · exact ⟨a, (hdecided.others parent hparent).trans ha, hcause⟩
  · refine .inr fun parent hmem => ?_
    have hold := hsettled parent hmem
    rw [settled_iff] at hold ⊢
    obtain ⟨a, ha, haccepted⟩ := hold
    have hparent : parent ≠ id' := by
      rintro rfl
      rw [hfirst.get, Option.some.injEq] at ha
      rw [← ha, hfirst.pending] at haccepted
      cases haccepted
    exact ⟨a, (hdecided.others parent hparent).trans ha, haccepted⟩

theorem parentFailure_none (h : db.parentFailure thread id facet = none) :
    ∀ parent ∈ db.parentsOf id, db.failing thread facet parent = false := by
  intro parent hmem
  by_contra hfailing
  rw [Bool.not_eq_false] at hfailing
  unfold Database.parentFailure at h
  cases hfind : ((db.parentsOf id).sort (· ≤ ·)).find? (db.failing thread facet) with
  | none => exact find?_eq_none.1 hfind parent ((Finset.mem_sort _).2 hmem) hfailing
  | some first =>
    obtain ⟨a, ha, _⟩ := failing_iff.1 (find?_some hfind)
    simp only [hfind, ha, Option.bind_eq_bind, Option.bind_some] at h
    cases h

theorem Ready.parents_accepted (h : Ready thread db id row)
    (hnone : db.parentFailure thread id row.facet = none) :
    ∀ parent ∈ db.parentsOf id, ∃ a, db.operations.get parent = some a ∧ a.status = .accepted ∧
      a.thread = row.thread ∧ a.facet = row.facet := by
  have hfailing := parentFailure_none hnone
  intro parent hmem
  rcases h.decided with ⟨bad, hbad, htrue⟩ | hsettled
  · rw [h.thread, hfailing bad hbad] at htrue
    cases htrue
  · obtain ⟨a, ha, haccepted⟩ := settled_iff.1 (hsettled parent hmem)
    have hnot : ¬ (a.thread ≠ thread ∨ a.facet ≠ row.facet) := by
      intro hcross
      have htrue := failing_iff.2 ⟨a, ha, .inr hcross⟩
      rw [hfailing parent hmem] at htrue
      cases htrue
    rw [not_or, not_not, not_not] at hnot
    exact ⟨a, ha, haccepted, hnot.1.trans h.thread.symm, hnot.2⟩

end Ready

section Accept
variable {codec : ThreadCodec} {outside : Outside codec} {thread id : ContentHash} {db db' : Db codec}
  {row : OperationRow codec.CaptureVisibility} {operation : Op codec} {parents : List (Op codec)}

theorem validateParentsInner_ok
    (h : operation.validateParentsInner codec genesis parents imported = .ok ()) :
    operation.validateBody codec genesis parents imported = .ok () := by
  obtain ⟨_, _, h⟩ := bind_eq_ok.1 h
  obtain ⟨_, _, h⟩ := bind_eq_ok.1 h
  obtain ⟨_, _, h⟩ := bind_eq_ok.1 h
  obtain ⟨_, _, h⟩ := bind_eq_ok.1 h
  obtain ⟨_, _, h⟩ := bind_eq_ok.1 h
  exact h

theorem controlProperty_of {control : ThreadControl} (hbody : operation.body = .metadata bytes)
    (hcontrol : codec.decodeControl bytes = .ok control) :
    operation.controlProperty codec = some control.property := by
  unfold ThreadOperation.controlProperty
  simp only [hbody, hcontrol]
  rfl

theorem validated_property {control : ThreadControl}
    (h : operation.validateParentsInner codec genesis parents imported = .ok ())
    (hbody : operation.body = .metadata bytes)
    (hcontrol : codec.decodeControl bytes = .ok control) :
    ∀ parent ∈ parents, parent.controlProperty codec = some control.property := by
  have hvalid := validateParentsInner_ok h
  rw [ThreadOperation.validateBody, hbody] at hvalid
  dsimp only at hvalid
  obtain ⟨control', hdecoded, hvalid⟩ := bind_eq_ok.1 hvalid
  rw [hcontrol, Except.ok.injEq] at hdecoded
  subst hdecoded
  obtain ⟨_, _, hvalid⟩ := bind_eq_ok.1 hvalid
  intro parent hmem
  have hparent := forM_ok_iff.1 hvalid parent hmem
  cases hpbody : parent.body with
  | metadata bytes' =>
    rw [hpbody] at hparent
    obtain ⟨control', hdecoded, hparent⟩ := bind_eq_ok.1 hparent
    obtain ⟨_, hsame, _⟩ := bind_eq_ok.1 hparent
    rw [refuse_eq_ok, not_or, not_not, not_not] at hsame
    rw [controlProperty_of hpbody hdecoded, hsame.2]
  | _ =>
    rw [hpbody] at hparent
    cases hparent

theorem loadParents_ok (h : loadParents codec operation db = .ok parents) :
    ∀ parent ∈ operation.parents, ∃ a, db.operations.get parent = some a ∧ a.canonical ∈ parents := by
  intro parent hmem
  obtain ⟨canonical, hin, hget⟩ :=
    forall₂_mem_left (mapM_ok_iff.1 h) ((Finset.mem_sort (· ≤ ·)).2 hmem)
  cases hrow : db.operations.get parent with
  | none =>
    rw [hrow] at hget
    cases hget
  | some a =>
    rw [hrow] at hget
    obtain rfl := Except.ok.inj hget
    exact ⟨a, rfl, hin⟩

theorem record_propertyOf (hrow : db.operations.get id = some row) :
    db.record.propertyOf codec id = row.canonical.controlProperty codec := by
  have hfacts : db.record.rows id = some row.facts := congrArg (Option.map OperationRow.facts) hrow
  rw [Record.propertyOf, hfacts, Option.bind_some]
  rfl

theorem acceptControlHeads_ok (hfacet : row.facet = row.canonical.facet)
    (hthread : row.thread = thread) (hloaded : loadParents codec row.canonical db = .ok parents)
    (hvalid : row.canonical.validateParentsInner codec genesis parents imported = .ok ())
    (h : acceptControlHeads codec outside thread row.canonical id db = .ok db') :
    ∃ heads, db' = { db with controlHeads := heads } ∧
      Record.ControlHeadsFollow codec db.record id row.facts heads := by
  unfold acceptControlHeads at h
  split at h
  · rename_i bytes hbody
    have hmetadata : row.facts.facet = .metadata := by
      change row.facet = .metadata
      rw [hfacet, ThreadOperation.facet, hbody]
    obtain ⟨control, hcontrol, h⟩ := bind_eq_ok.1 h
    obtain ⟨replaced, hreplaced, h⟩ := bind_eq_ok.1 h
    obtain ⟨_, _, h⟩ := bind_eq_ok.1 h
    obtain rfl := Except.ok.inj h
    obtain ⟨heads, hinsert, hreplaced⟩ := bind_eq_ok.1 hreplaced
    obtain rfl := Except.ok.inj hreplaced
    have hdecoded : codec.decodeControl bytes = .ok control := mapErr_eq_ok.1 hcontrol
    have hheads : heads = insert (thread, key control.property, id) db.controlHeads := by
      unfold insertRow at hinsert
      split at hinsert
      · cases hinsert
      · exact (Except.ok.inj hinsert).symm
    refine ⟨_, rfl, ?_⟩
    unfold Record.ControlHeadsFollow
    rw [if_pos hmetadata]
    refine ⟨control.property, controlProperty_of hbody hdecoded, fun parent hmem => ?_, ?_⟩
    · obtain ⟨a, ha, hin⟩ := loadParents_ok hloaded parent hmem
      rw [record_propertyOf ha]
      exact validated_property hvalid hbody hdecoded _ hin
    · rw [hheads, ← hthread]
      rfl
  · rename_i hbody
    obtain rfl := Except.ok.inj h
    refine ⟨db.controlHeads, rfl, ?_⟩
    have hother : row.facts.facet ≠ .metadata := by
      change row.facet ≠ .metadata
      rw [hfacet, ThreadOperation.facet]
      cases hkind : row.canonical.body with
      | metadata bytes => exact absurd hkind (hbody bytes)
      | _ => exact nofun
    unfold Record.ControlHeadsFollow
    rw [if_neg hother]
    rfl

theorem markAccepted_ok (hrow : db.operations.get id = some row) (hpending : row.status = .pending)
    (hedges : db.parentsOf id = row.canonical.parents) (h : db.markAccepted id = .ok db') :
    ∃ index, db' = { db.setRow id { row with status := .accepted } with sourceIndex := index } ∧
      db.record.SourceIndexFollows id row.facts index := by
  unfold Database.markAccepted at h
  rw [hrow] at h
  dsimp only at h
  unfold Record.SourceIndexFollows
  have hnot : row.status ≠ .accepted := by
    rw [hpending]
    exact nofun
  by_cases hsource : row.facet = .source
  · rw [if_pos ⟨hnot, hsource⟩] at h
    obtain ⟨index, hindex, rfl⟩ := map_eq_ok_iff.1 h
    refine ⟨index, rfl, ?_⟩
    rw [hedges] at hindex
    exact (if_pos hsource).mpr hindex
  · rw [if_neg fun hboth => hsource hboth.2] at h
    obtain rfl := Except.ok.inj h
    exact ⟨db.sourceIndex, rfl, (if_neg hsource).mpr rfl⟩

section
variable (hsound : db.record.Sound codec)
include hsound

theorem parentsOf_eq (hrow : db.operations.get id = some row) :
    db.parentsOf id = row.canonical.parents := by
  have hfacts : db.record.rows id = some row.facts := congrArg (Option.map OperationRow.facts) hrow
  ext parent
  have hedge : (id, parent) ∈ db.parents ↔ parent ∈ row.canonical.parents := by
    refine (hsound.edges id parent).trans ?_
    rw [hfacts]
    constructor
    · rintro ⟨_, heq, hmem⟩
      obtain rfl := Option.some.inj heq
      exact hmem
    · exact fun hmem => ⟨_, rfl, hmem⟩
  rw [← hedge, Database.parentsOf, Finset.mem_image]
  constructor
  · rintro ⟨⟨child, parent'⟩, hmem, rfl⟩
    obtain ⟨hin, rfl⟩ := Finset.mem_filter.1 hmem
    exact hin
  · exact fun hmem => ⟨(id, parent), Finset.mem_filter.2 ⟨hmem, rfl⟩, rfl⟩

theorem accept_ok (hready : Ready thread db id row)
    (hnone : db.parentFailure thread id row.canonical.facet = none)
    (hloaded : loadParents codec row.canonical db = .ok parents)
    (hvalid : row.canonical.validateParentsInner codec genesis parents imported = .ok ())
    (h : accept codec outside thread row.canonical id db = .ok db') :
    db'.record.Sound codec ∧ Decided id db db' := by
  obtain ⟨_, _, h⟩ := bind_eq_ok.1 h
  obtain ⟨controlled, hcontrolled, h⟩ := bind_eq_ok.1 h
  obtain ⟨_, _, h⟩ := bind_eq_ok.1 h
  obtain ⟨marked, hmarked, h⟩ := bind_eq_ok.1 h
  obtain ⟨_, _, h⟩ := bind_eq_ok.1 h
  obtain rfl := Except.ok.inj h
  have hfacts : db.record.rows id = some row.facts :=
    congrArg (Option.map OperationRow.facts) hready.get
  have hfacet : row.facet = row.canonical.facet := hsound.facets id row.facts hfacts
  have hedges := parentsOf_eq hsound hready.get
  obtain ⟨heads, rfl, hheads⟩ :=
    acceptControlHeads_ok hfacet hready.thread hloaded hvalid hcontrolled
  obtain ⟨index, rfl, hindex⟩ :=
    @markAccepted_ok codec id { db with controlHeads := heads } marked row hready.get hready.pending
      hedges hmarked
  constructor
  · have hadmit := hsound.acceptRow hfacts ?_ (fun parent hmem => ?_) hindex hheads
    · have hrows := congrArg Record.rows (@setRow_record _ { db with controlHeads := heads } id
        { row with status := .accepted })
      convert hadmit using 1
      exact congrArg (fun rows => Record.mk rows db.parents index heads) hrows
    · simp only [OperationRow.facts, hready.pending]
      rfl
    · rw [← hfacet] at hnone
      obtain ⟨a, ha, haccepted, hthread, hfacet⟩ :=
        hready.parents_accepted hnone parent (hedges ▸ hmem)
      exact Record.history_available.2 ⟨a.facts, congrArg (Option.map OperationRow.facts) ha, hthread,
        hfacet, decide_eq_true haccepted⟩
  · refine ⟨rfl, fun id' hid => ?_, fun row' hrow' => ?_⟩
    · exact (get_setRow id').trans (if_neg hid)
    · rw [hready.get, Option.some.injEq] at hrow'
      subst hrow'
      exact ⟨_, (get_setRow id).trans (if_pos rfl), rfl, rfl, nofun⟩

theorem admitOne_ok (hready : Ready thread db id row)
    (h : admitOne codec outside thread genesis imported db (id, row) = .ok db') :
    db'.record.Sound codec ∧ Decided id db db' := by
  have hfacts : db.record.rows id = some row.facts :=
    congrArg (Option.map OperationRow.facts) hready.get
  obtain ⟨id', hid, h⟩ := bind_eq_ok.1 h
  have hkey : row.canonical.id codec = .ok id := hsound.keyed id row.facts hfacts
  have hid' : row.canonical.id codec = .ok id' := mapErr_eq_ok.1 hid
  obtain rfl : id = id' := Except.ok.inj (hkey.symm.trans hid')
  obtain ⟨decided, hdecide, h⟩ := bind_eq_ok.1 h
  obtain rfl := Except.ok.inj h
  suffices hgoal : decided.record.Sound codec ∧ Decided id db decided from
    ⟨hgoal.1, ⟨hgoal.2.parents, hgoal.2.others, hgoal.2.self⟩⟩
  have hrejected : ∀ reason, (db.markRejected id reason).record.Sound codec ∧
      Decided id db (db.markRejected id reason) := by
    intro reason
    rw [markRejected_record hready.get hready.pending]
    exact ⟨hsound, markRejected_decided hready.get reason⟩
  unfold decideOperation at hdecide
  split at hdecide
  · rename_i reason _
    obtain rfl := Except.ok.inj hdecide
    exact hrejected reason
  · rename_i hnone
    obtain ⟨parents, hloaded, hdecide⟩ := bind_eq_ok.1 hdecide
    split at hdecide
    · rename_i e _
      obtain rfl := Except.ok.inj hdecide
      exact hrejected e.display
    · split at hdecide
      · rename_i e _
        obtain rfl := Except.ok.inj hdecide
        exact hrejected e.display
      · rename_i hvalid
        exact accept_ok hsound hready hnone hloaded hvalid hdecide

end

theorem mem_pendingIds : id ∈ pendingIds db ↔
    ∃ row, db.operations.get id = some row ∧ row.status = .pending := by
  rw [pendingIds, mem_toFinset, mem_map]
  constructor
  · rintro ⟨entry, hmem, rfl⟩
    obtain ⟨hentry, hpending⟩ := mem_filter.1 hmem
    exact ⟨entry.2, SortedMap.get_eq_some.2 hentry, of_decide_eq_true hpending⟩
  · rintro ⟨row, hrow, hpending⟩
    exact ⟨(id, row), mem_filter.2 ⟨SortedMap.get_eq_some.1 hrow, decide_eq_true hpending⟩, rfl⟩

theorem Decided.pending (h : Decided id db db') (hrow : db.operations.get id = some row)
    (hpending : id' ∈ pendingIds db') : id' ∈ pendingIds db ∧ id' ≠ id := by
  obtain ⟨row', hrow', hstatus⟩ := mem_pendingIds.1 hpending
  have hne : id' ≠ id := by
    rintro rfl
    obtain ⟨decided, hself, _, _, hdecided⟩ := h.self row hrow
    obtain rfl := Option.some.inj (hself.symm.trans hrow')
    exact hdecided hstatus
  rw [h.others id' hne] at hrow'
  exact ⟨mem_pendingIds.2 ⟨row', hrow', hstatus⟩, hne⟩

theorem admitBatch_ok {batch : List (ContentHash × OperationRow codec.CaptureVisibility)}
    (hsound : db.record.Sound codec) (hnodup : (batch.map Prod.fst).Nodup)
    (hready : ∀ entry ∈ batch, Ready thread db entry.1 entry.2)
    (h : batch.foldlM (admitOne codec outside thread genesis imported) db = .ok db') :
    db'.record.Sound codec ∧
      ∀ id ∈ pendingIds db', id ∈ pendingIds db ∧ id ∉ batch.map Prod.fst := by
  induction batch generalizing db with
  | nil =>
    obtain rfl := Except.ok.inj h
    exact ⟨hsound, fun id hid => ⟨hid, not_mem_nil⟩⟩
  | cons entry batch ih =>
    rw [foldlM_cons] at h
    obtain ⟨middle, hentry, hrest⟩ := bind_eq_ok.1 h
    rw [map_cons, nodup_cons] at hnodup
    have hfirst := hready entry (.head _)
    obtain ⟨hmiddle, hdecided⟩ := admitOne_ok hsound hfirst hentry
    have hlater : ∀ later ∈ batch, Ready thread middle later.1 later.2 := by
      intro later hlater
      apply (hready later (.tail _ hlater)).other hfirst _ hdecided
      exact fun heq => hnodup.1 (mem_map.2 ⟨later, hlater, heq⟩)
    obtain ⟨hsound', hpending⟩ := ih hmiddle hnodup.2 hlater hrest
    refine ⟨hsound', fun id hid => ?_⟩
    obtain ⟨hid, hnot⟩ := hpending id hid
    obtain ⟨hid, hne⟩ := hdecided.pending hfirst.get hid
    rw [map_cons, mem_cons]
    exact ⟨hid, fun hmem => hmem.elim hne hnot⟩

theorem ready_pending (h : (id, row) ∈ db.ready thread) : id ∈ pendingIds db :=
  mem_pendingIds.2 ⟨row, (ready_of_mem h).get, (ready_of_mem h).pending⟩

/-- The rounds keep the invariant, and end when nothing is ready: each decides a pending row. -/
theorem admitRounds_ok (hsound : db.record.Sound codec) (hrounds : (pendingIds db).card ≤ rounds)
    (h : admitRounds codec outside thread genesis imported rounds db = .ok db') :
    db'.record.Sound codec ∧ db'.ready thread = [] := by
  induction rounds generalizing db with
  | zero =>
    obtain rfl := Except.ok.inj h
    refine ⟨hsound, eq_nil_iff_forall_not_mem.2 fun entry hentry => ?_⟩
    have hid := ready_pending hentry
    rw [Finset.card_eq_zero.1 (Nat.le_zero.1 hrounds)] at hid
    exact Finset.notMem_empty _ hid
  | succ rounds ih =>
    rw [admitRounds] at h
    split at h
    · rename_i hnil
      obtain rfl := Except.ok.inj h
      exact ⟨hsound, hnil⟩
    · rename_i hne
      obtain ⟨middle, hbatch, hrest⟩ := bind_eq_ok.1 h
      obtain ⟨hmiddle, hpending⟩ := admitBatch_ok hsound ready_nodup (fun _ => ready_of_mem) hbatch
      refine ih hmiddle ?_ hrest
      obtain ⟨entry, hentry⟩ := exists_mem_of_ne_nil _ hne
      have hsub : pendingIds middle ⊆ (pendingIds db).erase entry.1 := by
        intro id hid
        obtain ⟨hid, hnot⟩ := hpending id hid
        refine Finset.mem_erase.2 ⟨?_, hid⟩
        rintro rfl
        exact hnot (mem_map.2 ⟨entry, hentry, rfl⟩)
      have hle := Finset.card_le_card hsub
      have hlt := Finset.card_erase_lt_of_mem (ready_pending hentry)
      omega

theorem admitReady_ok (hsound : db.record.Sound codec)
    (h : admitReady codec outside thread imported db = .ok db') :
    db'.record.Sound codec ∧ db'.ready thread = [] := by
  obtain ⟨genesis, _, h⟩ := bind_eq_ok.1 h
  refine admitRounds_ok hsound ?_ h
  exact (toFinset_card_le _).trans (length_map Prod.fst).le

end Accept

end Heddle.Replication
