import Heddle.Replication.Receive
import Heddle.Replication.SourceHeads

namespace Heddle.Replication
open Heddle.Lib Heddle.Oplog Option

/-- What the indexes depend on in a row. -/
structure RowFacts (V : Type) where
  thread : ContentHash
  facet : ThreadFacet
  canonical : ThreadOperation V
  sourceRevision : Option StateId
  accepted : Bool

def OperationRow.facts (row : OperationRow V) : RowFacts V where
  thread := row.thread
  facet := row.facet
  canonical := row.canonical
  sourceRevision := row.sourceRevision
  accepted := row.status = .accepted

structure Record (V : Type) where
  rows : ContentHash → Option (RowFacts V)
  parents : Finset (ContentHash × ContentHash)
  sourceIndex : SourceIndex
  controlHeads : Finset (ContentHash × String × ContentHash)

def Database.record (db : Database V) : Record V where
  rows id := (db.operations.get id).map OperationRow.facts
  parents := db.parents
  sourceIndex := db.sourceIndex
  controlHeads := db.controlHeads

def ThreadOperation.controlProperty (codec : ThreadCodec) (operation : Op codec) : Option Property :=
  match operation.body with
  | .metadata bytes => (codec.decodeControl bytes).toOption.map ThreadControl.property
  | _ => none

namespace Record

def history (r : Record V) (thread : ContentHash) (facet : ThreadFacet) : ParentGraph ContentHash :=
  fun id => (r.rows id).bind fun row =>
    if row.thread = thread ∧ row.facet = facet ∧ row.accepted = true
    then some (row.canonical.parents.sort (· ≤ ·)) else none

def revisionOf (r : Record V) (id : ContentHash) : Option StateId :=
  (r.rows id).bind RowFacts.sourceRevision

def propertyOf (codec : ThreadCodec) (r : Record codec.CaptureVisibility) (id : ContentHash) :
    Option Property :=
  (r.rows id).bind fun row => row.canonical.controlProperty codec

structure Sound (codec : ThreadCodec) (r : Record codec.CaptureVisibility) : Prop where
  keyed : ∀ id row, r.rows id = some row → row.canonical.id codec = .ok id
  facets : ∀ id row, r.rows id = some row → row.facet = row.canonical.facet
  revisions : ∀ id row, r.rows id = some row →
    row.canonical.sourceRevision codec = .ok row.sourceRevision
  edges : ∀ id parent, (id, parent) ∈ r.parents ↔
    ∃ row, r.rows id = some row ∧ parent ∈ row.canonical.parents
  closed : ∀ thread facet, (r.history thread facet).Closed
  sources : r.sourceIndex.Exact (fun thread => r.history thread .source) r.revisionOf
  revised : ∀ thread id, (r.history thread .source).Available id → (r.revisionOf id).isSome
  controls : ∀ thread c p, (r.history thread .metadata).Step c p →
    r.propertyOf codec c = r.propertyOf codec p
  controlHeads : ∀ thread property id, (thread, property, id) ∈ r.controlHeads ↔
    (r.history thread .metadata).Frontier id ∧ (r.propertyOf codec id).map key = some property

section History
variable {r : Record V} {thread id : ContentHash} {facet : ThreadFacet} {row : RowFacts V}

theorem history_eq_some {parents : List ContentHash} : r.history thread facet id = some parents ↔
    ∃ row, r.rows id = some row ∧ row.thread = thread ∧ row.facet = facet ∧ row.accepted = true ∧
      row.canonical.parents.sort (· ≤ ·) = parents := by
  rw [history, bind_eq_some_iff]
  constructor
  · rintro ⟨row, hrow, hparents⟩
    split at hparents
    · rename_i hcond
      exact ⟨row, hrow, hcond.1, hcond.2.1, hcond.2.2, some.inj hparents⟩
    · cases hparents
  · rintro ⟨row, hrow, hthread, hfacet, haccepted, hparents⟩
    exact ⟨row, hrow, by rw [if_pos ⟨hthread, hfacet, haccepted⟩, hparents]⟩

theorem history_available : (r.history thread facet).Available id ↔
    ∃ row, r.rows id = some row ∧ row.thread = thread ∧ row.facet = facet ∧ row.accepted = true := by
  rw [ParentGraph.Available, isSome_iff_exists]
  simp only [history_eq_some]
  constructor
  · rintro ⟨_, row, hrow, hthread, hfacet, haccepted, _⟩
    exact ⟨row, hrow, hthread, hfacet, haccepted⟩
  · rintro ⟨row, hrow, hthread, hfacet, haccepted⟩
    exact ⟨_, row, hrow, hthread, hfacet, haccepted, rfl⟩

theorem history_step : (r.history thread facet).Step c p ↔
    ∃ row, r.rows c = some row ∧ row.thread = thread ∧ row.facet = facet ∧ row.accepted = true ∧
      p ∈ row.canonical.parents := by
  unfold ParentGraph.Step
  simp only [history_eq_some]
  constructor
  · rintro ⟨_, ⟨row, hrow, hthread, hfacet, haccepted, rfl⟩, hp⟩
    exact ⟨row, hrow, hthread, hfacet, haccepted, (Finset.mem_sort _).1 hp⟩
  · rintro ⟨row, hrow, hthread, hfacet, haccepted, hp⟩
    exact ⟨_, ⟨row, hrow, hthread, hfacet, haccepted, rfl⟩, (Finset.mem_sort _).2 hp⟩

theorem history_of_not_accepted (h : ∀ row, r.rows id = some row → row.accepted = false) :
    r.history thread facet id = none := by
  rw [← not_isSome_iff_eq_none]
  intro havailable
  obtain ⟨row, hrow, _, _, haccepted⟩ := history_available.1 havailable
  rw [h row hrow] at haccepted
  cases haccepted

end History

def learn (r : Record V) (id : ContentHash) (row : RowFacts V) : Record V :=
  { r with
    rows := Function.update r.rows id (some row)
    parents := r.parents ∪ row.canonical.parents.image fun parent => (id, parent) }

section Learn
variable {codec : ThreadCodec} {r : Record codec.CaptureVisibility} {id : ContentHash}
  {row : RowFacts codec.CaptureVisibility}

theorem learn_history (hnew : r.rows id = none) (hrow : row.accepted = false) :
    (r.learn id row).history = r.history := by
  funext thread facet id'
  by_cases hid : id' = id
  · subst hid
    rw [history_of_not_accepted fun row' hrow' => ?_, history_of_not_accepted fun row' hrow' => ?_]
    · rw [hnew] at hrow'
      cases hrow'
    · change Function.update r.rows id' (some row) id' = some row' at hrow'
      rw [Function.update_self, some.injEq] at hrow'
      rwa [← hrow']
  · unfold history
    change ((Function.update r.rows id (some row)) id').bind _ = _
    rw [Function.update_of_ne hid]

theorem learn_rows_of_available (hnew : r.rows id = none)
    (h : (r.history thread facet).Available id') : (r.learn id row).rows id' = r.rows id' := by
  obtain ⟨row', hrow', _⟩ := history_available.1 h
  refine Function.update_of_ne (fun hid => ?_) ..
  rw [hid, hnew] at hrow'
  cases hrow'

theorem Sound.learn (h : r.Sound codec) (hnew : r.rows id = none) (haccepted : row.accepted = false)
    (hkeyed : row.canonical.id codec = .ok id) (hfacet : row.facet = row.canonical.facet)
    (hrevision : row.canonical.sourceRevision codec = .ok row.sourceRevision) :
    (r.learn id row).Sound codec := by
  have hhistory := @learn_history _ r id row hnew haccepted
  have hrows : ∀ id' row', (r.learn id row).rows id' = some row' →
      id' = id ∧ row' = row ∨ r.rows id' = some row' := by
    intro id' row' hrow'
    by_cases hid : id' = id
    · subst hid
      change Function.update r.rows id' (some row) id' = some row' at hrow'
      rw [Function.update_self, some.injEq] at hrow'
      exact .inl ⟨rfl, hrow'.symm⟩
    · change Function.update r.rows id (some row) id' = some row' at hrow'
      rw [Function.update_of_ne hid] at hrow'
      exact .inr hrow'
  have hsame : ∀ thread facet id', (r.history thread facet).Available id' →
      (r.learn id row).rows id' = r.rows id' := fun _ _ _ => learn_rows_of_available hnew
  constructor
  case keyed =>
    intro id' row' hrow'
    rcases hrows id' row' hrow' with ⟨rfl, rfl⟩ | hrow'
    · exact hkeyed
    · exact h.keyed id' row' hrow'
  case facets =>
    intro id' row' hrow'
    rcases hrows id' row' hrow' with ⟨rfl, rfl⟩ | hrow'
    · exact hfacet
    · exact h.facets id' row' hrow'
  case revisions =>
    intro id' row' hrow'
    rcases hrows id' row' hrow' with ⟨rfl, rfl⟩ | hrow'
    · exact hrevision
    · exact h.revisions id' row' hrow'
  case edges =>
    intro id' parent
    change (id', parent) ∈ r.parents ∪ row.canonical.parents.image (fun parent => (id, parent)) ↔
      ∃ row', Function.update r.rows id (some row) id' = some row' ∧ parent ∈ row'.canonical.parents
    rw [Finset.mem_union, Finset.mem_image, h.edges]
    by_cases hid : id' = id
    · subst hid
      rw [Function.update_self, hnew]
      constructor
      · rintro (⟨_, hnone, _⟩ | ⟨parent', hmem, heq⟩)
        · cases hnone
        · exact ⟨row, rfl, (Prod.mk.inj heq).2 ▸ hmem⟩
      · rintro ⟨row', hrow', hmem⟩
        obtain rfl := some.inj hrow'
        exact .inr ⟨parent, hmem, rfl⟩
    · rw [Function.update_of_ne hid, or_iff_left]
      rintro ⟨_, _, heq⟩
      exact hid (Prod.mk.inj heq).1.symm
  case closed =>
    rw [hhistory]
    exact h.closed
  case sources =>
    rw [hhistory]
    refine h.sources.congr fun thread id' havailable => ?_
    rw [revisionOf, hsame thread .source id' havailable]
    rfl
  case revised =>
    intro thread id' havailable
    rw [hhistory] at havailable
    rw [revisionOf, hsame thread .source id' havailable]
    exact h.revised thread id' havailable
  case controls =>
    intro thread c p hstep
    rw [hhistory] at hstep
    rw [propertyOf, propertyOf, hsame thread .metadata c hstep.available,
      hsame thread .metadata p (h.closed thread .metadata c p hstep)]
    exact h.controls thread c p hstep
  case controlHeads =>
    intro thread property id'
    rw [hhistory]
    refine (h.controlHeads thread property id').trans (and_congr_right fun hfrontier => ?_)
    rw [propertyOf, propertyOf, hsame thread .metadata id' hfrontier.1]

end Learn

def acceptRow (r : Record V) (id : ContentHash) (row : RowFacts V) (index : SourceIndex)
    (heads : Finset (ContentHash × String × ContentHash)) : Record V :=
  { r with
    rows := Function.update r.rows id (some { row with accepted := true })
    sourceIndex := index
    controlHeads := heads }

/-- How the control heads follow an accepted operation. -/
def ControlHeadsFollow (codec : ThreadCodec) (r : Record codec.CaptureVisibility) (id : ContentHash)
    (row : RowFacts codec.CaptureVisibility) (heads : Finset (ContentHash × String × ContentHash)) : Prop :=
  if row.facet = .metadata then
    ∃ property, row.canonical.controlProperty codec = some property ∧
      (∀ p ∈ row.canonical.parents, r.propertyOf codec p = some property) ∧
      heads = insert (row.thread, key property, id) r.controlHeads \
        row.canonical.parents.image fun parent => (row.thread, key property, parent)
  else heads = r.controlHeads

/-- How the source index follows an accepted operation. -/
def SourceIndexFollows (r : Record V) (id : ContentHash) (row : RowFacts V) (index : SourceIndex) : Prop :=
  if row.facet = .source then
    r.sourceIndex.sourceAdmitted row.thread id row.canonical.parents row.sourceRevision = .ok index
  else index = r.sourceIndex

section Admit
variable {codec : ThreadCodec} {r : Record codec.CaptureVisibility} {id : ContentHash}
  {row : RowFacts codec.CaptureVisibility} {index : SourceIndex}
  {heads : Finset (ContentHash × String × ContentHash)}

theorem admit_history (thread : ContentHash) (facet : ThreadFacet) (hrow : r.rows id = some row) :
    (r.acceptRow id row index heads).history thread facet =
      if thread = row.thread ∧ facet = row.facet
      then (r.history thread facet).grow id (row.canonical.parents.sort (· ≤ ·))
      else r.history thread facet := by
  funext id'
  by_cases hid : id' = id
  · subst hid
    have hself : (r.acceptRow id' row index heads).rows id' = some { row with accepted := true } :=
      Function.update_self ..
    rw [history, hself, bind_some]
    by_cases hplace : thread = row.thread ∧ facet = row.facet
    · rw [if_pos ⟨hplace.1.symm, hplace.2.symm, rfl⟩, if_pos hplace, ParentGraph.grow_self]
    · rw [if_neg fun hcond => hplace ⟨hcond.1.symm, hcond.2.1.symm⟩, if_neg hplace, history, hrow,
        bind_some, if_neg fun hcond => hplace ⟨hcond.1.symm, hcond.2.1.symm⟩]
  · have hother : (r.acceptRow id row index heads).history thread facet id' = r.history thread facet id' := by
      unfold history
      change (Function.update r.rows id _ id').bind _ = _
      rw [Function.update_of_ne hid]
    rw [hother]
    split
    · rw [ParentGraph.grow_of_ne hid]
    · rfl

section
variable (hrow : r.rows id = some row)
include hrow

theorem admit_bind (f : RowFacts codec.CaptureVisibility → Option α)
    (hf : f { row with accepted := true } = f row) (id' : ContentHash) :
    ((r.acceptRow id row index heads).rows id').bind f = (r.rows id').bind f := by
  change (Function.update r.rows id (some { row with accepted := true }) id').bind f = _
  by_cases hid : id' = id
  · subst hid
    rw [Function.update_self, hrow, bind_some, bind_some, hf]
  · rw [Function.update_of_ne hid]

theorem admit_revisionOf :
    (r.acceptRow id row index heads).revisionOf = r.revisionOf :=
  funext (admit_bind hrow RowFacts.sourceRevision rfl)

theorem admit_propertyOf :
    (r.acceptRow id row index heads).propertyOf codec = r.propertyOf codec :=
  funext (admit_bind hrow (fun row => row.canonical.controlProperty codec) rfl)

theorem admit_forall {P : RowFacts codec.CaptureVisibility → Prop}
    (hP : P { row with accepted := true } ↔ P row) (id' : ContentHash) :
    (∀ row', (r.acceptRow id row index heads).rows id' = some row' → P row') ↔
      ∀ row', r.rows id' = some row' → P row' := by
  change (∀ row', Function.update r.rows id (some { row with accepted := true }) id' = some row' →
    P row') ↔ _
  by_cases hid : id' = id
  · subst hid
    rw [Function.update_self, hrow]
    simp only [some.injEq, forall_eq']
    exact hP
  · rw [Function.update_of_ne hid]

end

section
variable (h : r.Sound codec) (hrow : r.rows id = some row) (hnew : row.accepted = false)
  (hparents : ∀ p ∈ row.canonical.parents, (r.history row.thread row.facet).Available p)
include h hrow hnew hparents

theorem admit_sources (hindex : r.SourceIndexFollows id row index) :
    index.Exact (fun thread => (r.acceptRow id row index heads).history thread .source) r.revisionOf := by
  simp only [admit_history _ _ hrow]
  unfold SourceIndexFollows at hindex
  split at hindex
  · rename_i hfacet
    have hrevision : r.revisionOf id = row.sourceRevision := by rw [revisionOf, hrow, bind_some]
    rw [hfacet] at hparents
    have hexact := h.sources.sourceAdmitted (h.closed row.thread .source)
      (history_of_not_accepted fun row' hrow' => ?_) (fun p => Finset.mem_sort (· ≤ ·)) hparents
      (hrevision.symm ▸ hindex)
    · convert hexact using 1
      funext thread
      by_cases hthread : thread = row.thread
      · rw [if_pos ⟨hthread, hfacet.symm⟩, hthread, Function.update_self]
      · rw [if_neg fun hplace => hthread hplace.1, Function.update_of_ne hthread]
    · rw [hrow, some.injEq] at hrow'
      rwa [← hrow']
  · rename_i hfacet
    rw [hindex]
    convert h.sources using 1
    funext thread
    exact if_neg fun hplace => hfacet hplace.2.symm

theorem admit_controlHeads
    (hheads : ControlHeadsFollow codec r id row heads) (thread : ContentHash) (property : String)
    (id' : ContentHash) : (thread, property, id') ∈ heads ↔
      ((r.acceptRow id row index heads).history thread .metadata).Frontier id' ∧
        (r.propertyOf codec id').map key = some property := by
  rw [admit_history _ _ hrow]
  unfold ControlHeadsFollow at hheads
  split at hheads
  · rename_i hfacet
    obtain ⟨own, hown, hinherited, rfl⟩ := hheads
    have hproperty : r.propertyOf codec id = some own := by
      rw [propertyOf, hrow, bind_some, hown]
    rw [hfacet] at hparents
    rw [Finset.mem_sdiff, Finset.mem_insert, Finset.mem_image, h.controlHeads]
    by_cases hthread : thread = row.thread
    · subst hthread
      rw [if_pos ⟨rfl, hfacet.symm⟩, ParentGraph.frontier_grow (h.closed row.thread .metadata)
        (history_of_not_accepted fun row' hrow' => ?_)
        (fun p hp => hparents p ((Finset.mem_sort _).1 hp)), Finset.mem_sort]
      · by_cases hid : id' = id
        · subst hid
          have hself : id' ∉ row.canonical.parents := by
            intro hmem
            obtain ⟨row', hrow', _, _, haccepted⟩ := history_available.1 (hparents id' hmem)
            rw [hrow, some.injEq] at hrow'
            rw [← hrow', hnew] at haccepted
            cases haccepted
          have hkey : (r.propertyOf codec id').map key = some property ↔ property = key own := by
            rw [hproperty, map_some, some.injEq, eq_comm]
          rw [hkey]
          constructor
          · rintro ⟨heq | ⟨_, hprop⟩, _⟩
            · exact ⟨.inl rfl, (Prod.mk.inj (Prod.mk.inj heq).2).1⟩
            · exact ⟨.inl rfl, hprop⟩
          · rintro ⟨_, rfl⟩
            refine ⟨.inl rfl, fun ⟨p, hp, heq⟩ => hself ?_⟩
            exact (Prod.mk.inj (Prod.mk.inj heq).2).2 ▸ hp
        · rw [or_iff_right hid, or_iff_right fun heq => hid (Prod.mk.inj (Prod.mk.inj heq).2).2]
          constructor
          · rintro ⟨⟨hfrontier, hprop⟩, hnot⟩
            refine ⟨⟨hfrontier, fun hmem => hnot ⟨id', hmem, ?_⟩⟩, hprop⟩
            rw [hinherited id' hmem, map_some, some.injEq] at hprop
            rw [hprop]
          · rintro ⟨⟨hfrontier, hmem⟩, hprop⟩
            refine ⟨⟨hfrontier, hprop⟩, fun ⟨p, hp, heq⟩ => hmem ?_⟩
            exact (Prod.mk.inj (Prod.mk.inj heq).2).2 ▸ hp
      · rw [hrow, some.injEq] at hrow'
        rwa [← hrow']
    · rw [if_neg fun hplace => hthread hplace.1, or_iff_right, and_iff_left]
      · rintro ⟨p, _, heq⟩
        exact hthread (Prod.mk.inj heq).1.symm
      · exact fun heq => hthread (Prod.mk.inj heq).1
  · rename_i hfacet
    rw [hheads, if_neg fun hplace => hfacet hplace.2.symm]
    exact h.controlHeads thread property id'

end

theorem sourceRevision_of_follows (hfacet : row.facet = .source)
    (hindex : r.SourceIndexFollows id row index) : row.sourceRevision.isSome := by
  rw [SourceIndexFollows, if_pos hfacet] at hindex
  cases hrevision : row.sourceRevision with
  | none =>
    rw [hrevision] at hindex
    cases hindex
  | some revision => rfl

theorem Sound.acceptRow (h : r.Sound codec) (hrow : r.rows id = some row) (hnew : row.accepted = false)
    (hparents : ∀ p ∈ row.canonical.parents, (r.history row.thread row.facet).Available p)
    (hindex : r.SourceIndexFollows id row index) (hheads : ControlHeadsFollow codec r id row heads) :
    (r.acceptRow id row index heads).Sound codec := by
  have hnone : r.history row.thread row.facet id = none := by
    refine history_of_not_accepted fun row' hrow' => ?_
    rw [hrow, some.injEq] at hrow'
    rwa [← hrow']
  have hlist : ∀ p ∈ row.canonical.parents.sort (· ≤ ·), (r.history row.thread row.facet).Available p :=
    fun p hp => hparents p ((Finset.mem_sort _).1 hp)
  constructor
  case keyed => exact fun id' => (admit_forall hrow .rfl id').2 (h.keyed id')
  case facets => exact fun id' => (admit_forall hrow .rfl id').2 (h.facets id')
  case revisions => exact fun id' => (admit_forall hrow .rfl id').2 (h.revisions id')
  case edges =>
    intro id' parent
    refine (h.edges id' parent).trans (not_iff_not.1 ?_)
    simp only [not_exists, not_and]
    exact (admit_forall hrow .rfl id').symm
  case closed =>
    intro thread facet
    rw [admit_history _ _ hrow]
    split
    · rename_i hplace
      rw [hplace.1, hplace.2]
      exact (h.closed row.thread row.facet).grow hnone hlist
    · exact h.closed thread facet
  case sources =>
    rw [admit_revisionOf hrow]
    exact admit_sources h hrow hnew hparents hindex
  case revised =>
    intro thread id' havailable
    rw [admit_revisionOf hrow]
    rw [admit_history _ _ hrow] at havailable
    split at havailable
    · rename_i hplace
      rcases ParentGraph.available_grow.1 havailable with rfl | havailable
      · rw [revisionOf, hrow, bind_some]
        exact sourceRevision_of_follows hplace.2.symm hindex
      · exact h.revised thread id' havailable
    · exact h.revised thread id' havailable
  case controls =>
    intro thread c p hstep
    rw [admit_propertyOf hrow]
    rw [admit_history _ _ hrow] at hstep
    split at hstep
    · rename_i hplace
      rw [hplace.1, hplace.2, ParentGraph.step_grow hnone, Finset.mem_sort] at hstep
      rcases hstep with ⟨rfl, hp⟩ | hstep
      · rw [ControlHeadsFollow, if_pos hplace.2.symm] at hheads
        obtain ⟨own, hown, hinherited, _⟩ := hheads
        rw [hinherited p hp, propertyOf, hrow, bind_some, hown]
      · rw [← hplace.2] at hstep
        exact h.controls row.thread c p hstep
    · exact h.controls thread c p hstep
  case controlHeads =>
    rw [admit_propertyOf hrow]
    exact admit_controlHeads h hrow hnew hparents hheads

end Admit

end Record

end Heddle.Replication
