import Heddle.Replication.Preservation

namespace Heddle.Replication
open Heddle.Lib Heddle.Oplog

section Receive
variable {codec : ThreadCodec} {outside : Outside codec} {thread id : ContentHash} {db db' : Db codec}
  {signed : SignedOperation codec} {operation : Op codec}

theorem checkControlCommand_record
    (h : checkControlCommand codec thread operation id compareFrontier db = .ok db') :
    db'.record = db.record := by
  unfold checkControlCommand at h
  split at h
  · obtain ⟨control, _, h⟩ := bind_eq_ok.1 h
    obtain ⟨_, _, h⟩ := bind_eq_ok.1 h
    obtain ⟨_, _, h⟩ := bind_eq_ok.1 h
    obtain rfl := Except.ok.inj h
    rfl
  · obtain rfl := Except.ok.inj h
    rfl

theorem insertParents_ok {parents : List ContentHash}
    (h : parents.foldlM (fun edges parent => insertRow (id, parent) edges) edges = .ok edges') :
    ∀ edge, edge ∈ edges' ↔ edge ∈ edges ∨ ∃ parent ∈ parents, (id, parent) = edge := by
  induction parents generalizing edges with
  | nil =>
    obtain rfl := Except.ok.inj h
    exact fun edge => ⟨.inl, fun hmem => hmem.resolve_right fun ⟨_, hin, _⟩ => nomatch hin⟩
  | cons parent parents ih =>
    rw [List.foldlM_cons] at h
    obtain ⟨middle, hinsert, hrest⟩ := bind_eq_ok.1 h
    have hmiddle : middle = insert (id, parent) edges := by
      unfold insertRow at hinsert
      split at hinsert
      · cases hinsert
      · exact (Except.ok.inj hinsert).symm
    intro edge
    rw [ih hrest, hmiddle, Finset.mem_insert]
    simp only [List.mem_cons, exists_eq_or_imp]
    rw [or_comm (a := edge = (id, parent)), or_assoc, eq_comm (a := edge)]

theorem insertOperation_ok (hsound : db.record.Sound codec)
    (hid : signed.operation.id codec = .ok id)
    (hrevision : signed.operation.sourceRevision codec = .ok revision)
    (h : insertOperation codec thread signed id revision db = .ok db') : db'.record.Sound codec := by
  unfold insertOperation at h
  split at h
  · obtain rfl := Except.ok.inj h
    exact hsound
  · rename_i hnone
    obtain ⟨edges, hedges, h⟩ := bind_eq_ok.1 h
    obtain rfl := Except.ok.inj h
    have hnew : db.record.rows id = none := congrArg (Option.map OperationRow.facts) hnone
    have hlearn : (db.record.learn id
        ⟨thread, signed.operation.facet, signed.operation, revision, false⟩).Sound codec :=
      hsound.learn hnew rfl hid rfl hrevision
    have hparents : edges =
        db.parents ∪ signed.operation.parents.image fun parent => (id, parent) := by
      ext edge
      rw [insertParents_ok hedges, Finset.mem_union, Finset.mem_image]
      simp only [Finset.mem_sort]
    have hrows := congrArg Record.rows (@setRow_record _ db id
      { thread := thread, facet := signed.operation.facet, canonical := signed.operation
        signature := signed.signature, sourceRevision := revision })
    convert hlearn using 1
    rw [hparents]
    exact congrArg (fun rows => Record.mk rows _ db.sourceIndex db.controlHeads) hrows

theorem deferReference_record
    (h : deferReference codec thread id deferReferences revision db = .ok db') :
    db'.record = db.record := by
  unfold deferReference at h
  split at h
  · cases revision with
    | none => cases h
    | some revision =>
      obtain rfl := Except.ok.inj h
      rfl
  · obtain rfl := Except.ok.inj h
    rfl

theorem admitAuthority_record (h : admitAuthority codec outside operation id db = .ok db') :
    db'.record = db.record := by
  obtain ⟨original, _, h⟩ := bind_eq_ok.1 h
  obtain rfl := Except.ok.inj h
  split
  · cases hrow : db.operations.get id with
    | none => rfl
    | some row => exact setRow_record_of_facts hrow rfl
  · rfl

theorem storeReceipt_record (h : storeReceipt codec outside thread id inserted receipt db = .ok db') :
    db'.record = db.record := by
  unfold storeReceipt at h
  split at h
  · rename_i receipt row hrow
    split at h
    · obtain rfl := Except.ok.inj h
      rfl
    · obtain ⟨_, _, h⟩ := bind_eq_ok.1 h
      obtain rfl := Except.ok.inj h
      have hstored : (db.setRow id { row with authorityReceipt := some receipt }).record = db.record :=
        setRow_record_of_facts hrow rfl
      split
      · exact hstored
      · rw [bumpGeneration_record]
        exact hstored
  · obtain rfl := Except.ok.inj h
    rfl

theorem receiveVerifiedContentIn_ok (hsound : db.record.Sound codec)
    (h : receiveVerifiedContentIn codec outside thread signed compareFrontier imported receipt
      deferReferences db = .ok (db', admission)) : db'.record.Sound codec := by
  obtain ⟨_, _, h⟩ := bind_eq_ok.1 h
  obtain ⟨id, hid, h⟩ := bind_eq_ok.1 h
  obtain ⟨_, _, h⟩ := bind_eq_ok.1 h
  obtain ⟨_, _, h⟩ := bind_eq_ok.1 h
  obtain ⟨checked, hchecked, h⟩ := bind_eq_ok.1 h
  obtain ⟨revision, hrevision, h⟩ := bind_eq_ok.1 h
  obtain ⟨inserted, hinserted, h⟩ := bind_eq_ok.1 h
  obtain ⟨deferred, hdeferred, h⟩ := bind_eq_ok.1 h
  obtain ⟨authorized, hauthorized, h⟩ := bind_eq_ok.1 h
  obtain ⟨stored, hstored, h⟩ := bind_eq_ok.1 h
  obtain ⟨_, _, h⟩ := bind_eq_ok.1 h
  obtain ⟨admitted, hadmitted, h⟩ := bind_eq_ok.1 h
  obtain ⟨_, _, h⟩ := bind_eq_ok.1 h
  obtain ⟨rfl, _⟩ := Prod.mk.inj (Except.ok.inj h)
  apply (admitReady_ok _ hadmitted).1
  rw [storeReceipt_record hstored, admitAuthority_record hauthorized, deferReference_record hdeferred]
  apply insertOperation_ok _ (mapErr_eq_ok.1 hid) (mapErr_eq_ok.1 hrevision) hinserted
  rw [checkControlCommand_record hchecked]
  exact hsound

theorem receiveIn_ok (hsound : db.record.Sound codec)
    (h : receiveIn codec outside thread signed compareFrontier receipt deferReferences db =
      .ok (db', admission)) : db'.record.Sound codec := by
  obtain ⟨_, _, h⟩ := bind_eq_ok.1 h
  obtain ⟨_, _, h⟩ := bind_eq_ok.1 h
  obtain ⟨_, _, h⟩ := bind_eq_ok.1 h
  exact receiveVerifiedContentIn_ok hsound h

theorem requireAccepted_ok (h : requireAccepted message received = .ok db') :
    received = .ok (db', .accepted) := by
  obtain ⟨⟨_, admission⟩, hreceived, h⟩ := bind_eq_ok.1 h
  obtain ⟨_, haccepted, h⟩ := bind_eq_ok.1 h
  obtain rfl := Except.ok.inj h
  rw [refuse_eq_ok, not_not] at haccepted
  obtain rfl : admission = .accepted := haccepted
  exact hreceived

theorem transact_sound {body : Except ReplicaError (Db codec × α)} (hsound : db.record.Sound codec)
    (hbody : ∀ db' a, body = .ok (db', a) → db'.record.Sound codec) :
    (transact db body).1.record.Sound codec := by
  cases hresult : body with
  | error e => exact hsound
  | ok result => exact hbody result.1 result.2 hresult

theorem completeReferenceProjection_sound (hsound : db.record.Sound codec) :
    (completeReferenceProjection codec outside thread operation id db).1.record.Sound codec := by
  apply transact_sound hsound
  intro db' _ h
  obtain ⟨_, _, h⟩ := bind_eq_ok.1 h
  obtain ⟨_, _, h⟩ := bind_eq_ok.1 h
  obtain ⟨_, _, h⟩ := bind_eq_ok.1 h
  obtain ⟨rfl, _⟩ := Prod.mk.inj (Except.ok.inj h)
  exact hsound

theorem finishReceive_sound (hsound : db.record.Sound codec) :
    (finishReceive codec outside thread notify operation id deferThis admission db).1.record.Sound
      codec := by
  unfold finishReceive
  split
  · exact hsound
  · split
    · exact completeReferenceProjection_sound hsound
    · exact hsound

theorem receiveInner_sound (hsound : db.record.Sound codec) :
    (receiveInner codec outside thread signed compareFrontier receipt deferReferences db).1.record.Sound
      codec := by
  have hcommitted : (transact db do
      let deferThis ← prepareReceive codec outside thread signed receipt deferReferences db
      let received ← receiveIn codec outside thread signed compareFrontier receipt deferThis db
      onlyIf (received.2 = .accepted) (outside.recordCommand received.1)
      outside.commit received.1
      let id ← object (signed.operation.id codec)
      return (received.1, received.2, deferThis, id)).1.record.Sound codec := by
    apply transact_sound hsound
    intro db' _ h
    obtain ⟨_, _, h⟩ := bind_eq_ok.1 h
    obtain ⟨⟨_, _⟩, hreceived, h⟩ := bind_eq_ok.1 h
    obtain ⟨_, _, h⟩ := bind_eq_ok.1 h
    obtain ⟨_, _, h⟩ := bind_eq_ok.1 h
    obtain ⟨_, _, h⟩ := bind_eq_ok.1 h
    obtain ⟨rfl, _⟩ := Prod.mk.inj (Except.ok.inj h)
    exact receiveIn_ok hsound hreceived
  unfold receiveInner
  dsimp only
  split
  · rename_i hresult
    rw [hresult] at hcommitted
    exact hcommitted
  · rename_i hresult
    rw [hresult] at hcommitted
    exact finishReceive_sound hcommitted

theorem finishStack_sound (hsound : db.record.Sound codec) :
    (finishStack codec outside notified members db).1.record.Sound codec := by
  induction members generalizing notified db with
  | nil => exact hsound
  | cons member members ih =>
    have hfinished : (finishReceive codec outside member.1.thread (decide (member.1.thread ∉ notified))
        member.1 member.2 false .accepted db).1.record.Sound codec := finishReceive_sound hsound
    rw [finishStack]
    split
    · rename_i hresult
      rw [hresult] at hfinished
      exact hfinished
    · rename_i hresult
      rw [hresult] at hfinished
      exact ih hfinished

theorem receiveLocalStack_sound (hsound : db.record.Sound codec) :
    (receiveLocalStack codec outside members db).1.record.Sound codec := by
  have hcommitted : (transact db do
      refuse (members = [] ∨ 64 < members.length) (.invalid "landing stack requires 1–64 members")
      members.forM (prepareStackMember codec outside db)
      let db ← members.foldlM (fun db member =>
        requireAccepted "landing stack member is not accepted"
          (receiveIn codec outside member.operation.thread member true none false db)) db
      outside.recordCommand db
      outside.commit db
      let ids ← members.mapM fun member => do
        return (member.operation, ← object (member.operation.id codec))
      return (db, ids)).1.record.Sound codec := by
    apply transact_sound hsound
    intro db' _ h
    obtain ⟨_, _, h⟩ := bind_eq_ok.1 h
    obtain ⟨_, _, h⟩ := bind_eq_ok.1 h
    obtain ⟨landed, hlanded, h⟩ := bind_eq_ok.1 h
    obtain ⟨_, _, h⟩ := bind_eq_ok.1 h
    obtain ⟨_, _, h⟩ := bind_eq_ok.1 h
    obtain ⟨_, _, h⟩ := bind_eq_ok.1 h
    obtain ⟨rfl, _⟩ := Prod.mk.inj (Except.ok.inj h)
    apply foldlM_except_inv _ hlanded hsound
    intro before member after hmember hbefore
    exact receiveIn_ok hbefore (requireAccepted_ok hmember)
  unfold receiveLocalStack
  dsimp only
  split
  · rename_i hresult
    rw [hresult] at hcommitted
    exact hcommitted
  · rename_i hresult
    rw [hresult] at hcommitted
    exact finishStack_sound hcommitted

theorem receiveCollaboration_sound (hsound : db.record.Sound codec) :
    (receiveCollaboration codec outside thread signed db).1.record.Sound codec := by
  apply transact_sound hsound
  intro db' _ h
  obtain ⟨_, _, h⟩ := bind_eq_ok.1 h
  obtain ⟨_, _, h⟩ := bind_eq_ok.1 h
  obtain ⟨received, hreceived, h⟩ := bind_eq_ok.1 h
  obtain ⟨_, _, h⟩ := bind_eq_ok.1 h
  obtain ⟨_, _, h⟩ := bind_eq_ok.1 h
  obtain ⟨rfl, _⟩ := Prod.mk.inj (Except.ok.inj h)
  exact receiveIn_ok hsound (requireAccepted_ok hreceived)

theorem recordSourcePossessionIn_sound (hsound : db.record.Sound codec)
    (h : recordSourcePossessionIn codec outside thread revision db = .ok db') :
    db'.record.Sound codec := by
  obtain ⟨inserted, _, h⟩ := bind_eq_ok.1 h
  obtain rfl := Except.ok.inj h
  cases inserted with
  | false => exact hsound
  | true => exact hsound

theorem receivePreparedSource_sound (hsound : db.record.Sound codec) :
    (receivePreparedSource codec outside thread signed db).1.record.Sound codec := by
  apply transact_sound hsound
  intro db' _ h
  obtain ⟨_, _, h⟩ := bind_eq_ok.1 h
  obtain ⟨_, _, h⟩ := bind_eq_ok.1 h
  obtain ⟨_, _, h⟩ := bind_eq_ok.1 h
  obtain ⟨_, _, h⟩ := bind_eq_ok.1 h
  obtain ⟨⟨_, _⟩, hreceived, h⟩ := bind_eq_ok.1 h
  unfold settlePrepared at h
  split at h
  · obtain ⟨_, hpossessed, h⟩ := bind_eq_ok.1 h
    obtain ⟨_, _, h⟩ := bind_eq_ok.1 h
    obtain ⟨rfl, _⟩ := Prod.mk.inj (Except.ok.inj h)
    exact recordSourcePossessionIn_sound (receiveIn_ok hsound hreceived) hpossessed
  · obtain ⟨rfl, _⟩ := Prod.mk.inj (Except.ok.inj h)
    exact hsound

theorem receivePublication_sound (hsound : db.record.Sound codec) :
    (receivePublication codec outside thread members revision db).1.record.Sound codec := by
  apply transact_sound hsound
  intro db' _ h
  obtain ⟨_, _, h⟩ := bind_eq_ok.1 h
  obtain ⟨published, hpublished, h⟩ := bind_eq_ok.1 h
  obtain ⟨possessed, hpossessed, h⟩ := bind_eq_ok.1 h
  obtain ⟨_, _, h⟩ := bind_eq_ok.1 h
  obtain ⟨_, _, h⟩ := bind_eq_ok.1 h
  obtain ⟨rfl, _⟩ := Prod.mk.inj (Except.ok.inj h)
  refine recordSourcePossessionIn_sound ?_ hpossessed
  apply foldlM_except_inv _ hpublished hsound
  intro before member after hmember hbefore
  obtain ⟨_, _, hmember⟩ := bind_eq_ok.1 hmember
  exact receiveIn_ok hbefore (requireAccepted_ok hmember)

theorem installNative_sound (hsound : db.record.Sound codec) :
    (installNative codec outside records db).1.record.Sound codec := by
  apply transact_sound hsound
  intro db' _ h
  obtain ⟨installed, hinstalled, h⟩ := bind_eq_ok.1 h
  obtain ⟨_, _, h⟩ := bind_eq_ok.1 h
  obtain ⟨rfl, _⟩ := Prod.mk.inj (Except.ok.inj h)
  apply foldlM_except_inv _ hinstalled hsound
  intro before member after hmember hbefore
  obtain ⟨_, _, hmember⟩ := bind_eq_ok.1 hmember
  exact receiveVerifiedContentIn_ok hbefore (requireAccepted_ok hmember)

theorem ReceiveCall.run_sound (call : ReceiveCall codec) (hsound : db.record.Sound codec) :
    (call.run codec outside db).record.Sound codec := by
  cases call with
  | receive => exact receiveInner_sound hsound
  | localStack => exact receiveLocalStack_sound hsound
  | collaboration => exact receiveCollaboration_sound hsound
  | preparedSource => exact receivePreparedSource_sound hsound
  | publication => exact receivePublication_sound hsound
  | install => exact installNative_sound hsound

end Receive

theorem fresh_sound (codec : ThreadCodec) (threads : Table ContentHash ThreadRow) :
    ({ threads := threads } : Db codec).record.Sound codec := by
  have hrows : ∀ id, ({ threads := threads } : Db codec).record.rows id = none := fun _ => rfl
  have hhistory : ∀ thread facet id,
      ¬ (({ threads := threads } : Db codec).record.history thread facet).Available id := by
    intro thread facet id havailable
    obtain ⟨row, hrow, _⟩ := Record.history_available.1 havailable
    rw [hrows] at hrow
    cases hrow
  constructor
  case keyed => exact fun id row hrow => nomatch (hrows id).symm.trans hrow
  case facets => exact fun id row hrow => nomatch (hrows id).symm.trans hrow
  case revisions => exact fun id row hrow => nomatch (hrows id).symm.trans hrow
  case edges =>
    intro id parent
    refine ⟨fun hmem => absurd hmem (Finset.notMem_empty _), fun ⟨row, hrow, _⟩ => ?_⟩
    exact nomatch (hrows id).symm.trans hrow
  case closed => exact fun thread facet c p hstep => absurd hstep.available (hhistory thread facet c)
  case sources =>
    constructor
    case counted => exact fun thread revision => rfl
    case totalled => exact fun thread => rfl
    case heads =>
      exact fun thread id revision => ⟨nofun, fun h => absurd h.1.1 (hhistory thread .source id)⟩
    case revisions =>
      intro thread revision
      refine ⟨fun hmem => absurd hmem (Finset.notMem_empty _), fun ⟨id, havailable, _⟩ => ?_⟩
      exact absurd havailable (hhistory thread .source id)
  case revised => exact fun thread id havailable => absurd havailable (hhistory thread .source id)
  case controls =>
    exact fun thread c p hstep => absurd hstep.available (hhistory thread .metadata c)
  case controlHeads =>
    intro thread property id
    exact ⟨fun hmem => absurd hmem (Finset.notMem_empty _),
      fun h => absurd h.1.1 (hhistory thread .metadata id)⟩

theorem replicaAfter_sound (codec : ThreadCodec) (threads : Table ContentHash ThreadRow)
    (calls : List (Outside codec × ReceiveCall codec)) :
    (replicaAfter codec threads calls).record.Sound codec := by
  induction calls using List.reverseRecOn with
  | nil => exact fresh_sound codec threads
  | append_singleton calls call ih =>
    rw [replicaAfter, List.foldl_append]
    exact call.2.run_sound ih

end Heddle.Replication
