import Heddle.Visibility.Sidecar

namespace Heddle
open Heddle.Lib Heddle.Oplog List

section Replicas
variable [DecidableEq ι] {contentHash : StateVisibility T → ContentHash} {state : StateId}
  {cluster : Cluster ι T} {event : VisibilityEvent ι T} {events : List (VisibilityEvent ι T)}

def Cluster.records (cluster : Cluster ι T) (replica : ι) : List (StateVisibility T) :=
  (cluster.sidecars replica).records

def Cluster.Distinct (contentHash : StateVisibility T → ContentHash) (cluster : Cluster ι T) : Prop :=
  ∀ i j, ∀ r ∈ cluster.history i, ∀ s ∈ cluster.history j, contentHash r = contentHash s → r = s

/-- The record was put at the replica, and is not in its sidecar. -/
def Cluster.Dropped (cluster : Cluster ι T) (replica : ι) (record : StateVisibility T) : Prop :=
  record ∈ cluster.history replica ∧ record ∉ cluster.records replica

def Cluster.Puts (contentHash : StateVisibility T → ContentHash) (cluster : Cluster ι T)
    (event : VisibilityEvent ι T) (replica : ι) (record : StateVisibility T) : Prop :=
  ∃ receipt rest put, event = .receive receipt ∧ cluster.receipts[receipt]? = some (replica, record :: rest) ∧
    putStateVisibilityLocked contentHash record (cluster.sidecars replica) = .ok put

/-- A commit has no rivals; and neither a record that is received nor the one that it supersedes was
dropped. -/
def Cluster.Safe (contentHash : StateVisibility T → ContentHash) (cluster : Cluster ι T)
    (event : VisibilityEvent ι T) : Prop :=
  (∀ replica record kind declaredAt signature audited linked superseded,
    event = .commit replica record kind declaredAt signature audited →
    linkStateVisibility contentHash record kind declaredAt signature (cluster.sidecars replica) =
      .ok (some (linked, superseded)) →
    Unrivalled contentHash (cluster.records replica) linked) ∧
  ∀ replica record, cluster.Puts contentHash event replica record →
    ¬ cluster.Dropped replica record ∧
      ∀ prior, cluster.Dropped replica prior → record.supersedes ≠ some (contentHash prior)

/-- Bytes read from a sidecar: parents first, nothing public, all of it put somewhere. -/
structure Sendable (contentHash : StateVisibility T → ContentHash) (history : ι → List (StateVisibility T))
    (records : List (StateVisibility T)) : Prop where
  chained : Chained contentHash StateVisibility.supersedes records
  restricted : ∀ record ∈ records, record.tier ≠ .publicTier
  known : ∀ record ∈ records, ∃ replica, record ∈ history replica

structure Cluster.Sound (contentHash : StateVisibility T → ContentHash) (cluster : Cluster ι T) : Prop where
  stored : ∀ replica, ∀ record ∈ cluster.records replica, record ∈ cluster.history replica
  grounded : ∀ replica, Chained contentHash StateVisibility.supersedes (cluster.history replica)
  sidecars : ∀ replica, Sendable contentHash cluster.history (cluster.records replica)
  sent : ∀ records ∈ cluster.sent, Sendable contentHash cluster.history records
  receipts : ∀ receipt ∈ cluster.receipts, ∃ done, Sendable contentHash cluster.history (done ++ receipt.2) ∧
    ∀ record ∈ done, record ∈ cluster.history receipt.1

/-- What a step does: nothing to the sidecars and histories, a commit, or the put of a received record. -/
inductive Cluster.Stepped (contentHash : StateVisibility T → ContentHash) (cluster : Cluster ι T)
    (event : VisibilityEvent ι T) : Cluster ι T → Prop
  | unchanged : Stepped contentHash cluster event cluster
  | committed (replica record kind declaredAt signature audited linked superseded outcome)
      (hevent : event = .commit replica record kind declaredAt signature audited)
      (hlink : linkStateVisibility contentHash record kind declaredAt signature (cluster.sidecars replica) =
        .ok (some (linked, superseded)))
      (hcommit : commitStateVisibility contentHash record kind declaredAt signature audited
        (cluster.sidecars replica) = .ok (some outcome))
      (hput : putStateVisibilityLocked contentHash linked (cluster.sidecars replica) = .ok outcome.put) :
      Stepped contentHash cluster event (cluster.put replica linked outcome.put.newSidecar)
  | sent (replica records) (hevent : event = .send replica) (hrecords : cluster.sidecars replica = some records) :
      Stepped contentHash cluster event { cluster with sent := cluster.sent ++ [records] }
  | accepted (replica message verified incoming) (hevent : event = .accept replica message verified)
      (hincoming : cluster.sent[message]? = some incoming) :
      Stepped contentHash cluster event { cluster with receipts := cluster.receipts ++ [(replica, incoming)] }
  | failed (receipt replica record rest) (hevent : event = .receive receipt)
      (hreceipt : cluster.receipts[receipt]? = some (replica, record :: rest)) :
      Stepped contentHash cluster event { cluster with receipts := cluster.receipts.set receipt (replica, []) }
  | received (receipt replica record rest put) (hevent : event = .receive receipt)
      (hreceipt : cluster.receipts[receipt]? = some (replica, record :: rest))
      (hput : putStateVisibilityLocked contentHash record (cluster.sidecars replica) = .ok put) :
      Stepped contentHash cluster event { cluster.put replica record put.newSidecar with
        receipts := cluster.receipts.set receipt (replica, rest) }

theorem Cluster.stepped (contentHash : StateVisibility T → ContentHash) (state : StateId)
    (cluster : Cluster ι T) (event : VisibilityEvent ι T) :
    cluster.Stepped contentHash event (cluster.step contentHash state event) := by
  cases event with
  | commit replica record kind declaredAt signature audited =>
    unfold Cluster.step
    dsimp only
    split
    · exact .unchanged
    · split
      · rename_i linked superseded outcome hlink hcommit
        obtain ⟨linked', superseded', hlink', hput⟩ := commit_eq_some hcommit
        obtain ⟨rfl, rfl⟩ := Prod.mk.inj (Option.some.inj (Except.ok.inj (hlink.symm.trans hlink')))
        exact .committed _ _ _ _ _ _ _ _ _ rfl hlink hcommit hput
      · exact .unchanged
  | send replica =>
    unfold Cluster.step
    dsimp only
    split
    · exact .unchanged
    · exact .sent replica _ rfl ‹_›
  | accept replica message verified =>
    unfold Cluster.step
    dsimp only
    split
    · exact .unchanged
    · split
      · exact .unchanged
      · exact .accepted replica message verified _ rfl ‹_›
  | receive receipt =>
    unfold Cluster.step
    dsimp only
    split
    · rename_i replica record rest hreceipt
      split
      · exact .failed receipt replica record rest rfl hreceipt
      · exact .received receipt replica record rest _ rfl hreceipt ‹_›
    · exact .unchanged

section
variable (cluster : Cluster ι T) (replica : ι) (record : StateVisibility T) (sidecar : Sidecar T)

theorem Cluster.sidecars_put_self : (cluster.put replica record sidecar).sidecars replica = sidecar :=
  Function.update_self replica _ cluster.sidecars

@[simp] theorem Cluster.records_put_self : (cluster.put replica record sidecar).records replica = sidecar.records := by
  rw [Cluster.records, sidecars_put_self]

end

theorem Cluster.records_put_ne (h : other ≠ replica) (record : StateVisibility T)
    (sidecar : Sidecar T) :
    (cluster.put replica record sidecar).records other = cluster.records other := by
  dsimp only [Cluster.records, Cluster.put]
  rw [Function.update_of_ne h]

@[simp] theorem Cluster.history_put_self (cluster : Cluster ι T) (replica : ι) (record : StateVisibility T)
    (sidecar : Sidecar T) :
    (cluster.put replica record sidecar).history replica = cluster.history replica ++ [record] :=
  Function.update_self replica _ cluster.history

theorem Cluster.history_put_ne (h : other ≠ replica) (record : StateVisibility T)
    (sidecar : Sidecar T) :
    (cluster.put replica record sidecar).history other = cluster.history other :=
  Function.update_of_ne h _ cluster.history

theorem Cluster.mem_history_put (sidecar : Sidecar T) (h : r ∈ cluster.history other) :
    r ∈ (cluster.put replica record sidecar).history other := by
  by_cases heq : other = replica
  · subst heq
    rw [history_put_self]
    exact mem_append_left _ h
  · rwa [history_put_ne heq]

theorem Cluster.mem_history_step (h : r ∈ cluster.history replica) :
    r ∈ (cluster.step contentHash state event).history replica := by
  have hstep := cluster.stepped contentHash state event
  generalize cluster.step contentHash state event = after at hstep ⊢
  cases hstep with
  | unchanged => exact h
  | committed => exact mem_history_put _ h
  | sent => exact h
  | accepted => exact h
  | failed => exact h
  | received => exact mem_history_put none h

theorem Cluster.Distinct.of_step (h : (cluster.step contentHash state event).Distinct contentHash) :
    cluster.Distinct contentHash :=
  fun i j r hr s hs => h i j r (mem_history_step hr) s (mem_history_step hs)

theorem Cluster.Distinct.of_run (h : (cluster.run contentHash state events).Distinct contentHash) :
    cluster.Distinct contentHash := by
  induction events generalizing cluster with
  | nil => exact h
  | cons event events ih => exact (ih h).of_step

omit [DecidableEq ι] in
theorem Sendable.mono (h : Sendable contentHash history records)
    (hhistory : ∀ replica, ∀ record ∈ history replica, record ∈ history' replica) :
    Sendable contentHash history' records where
  chained := h.chained
  restricted := h.restricted
  known record hrecord := by
    obtain ⟨replica, hmem⟩ := h.known record hrecord
    exact ⟨replica, hhistory replica record hmem⟩

theorem Cluster.Sound.put (h : cluster.Sound contentHash)
    (hhistory : ∀ k, record.supersedes = some k → ∃ prior ∈ cluster.history replica, contentHash prior = k)
    (hsidecar : sidecar.records = [] ∨ sidecar.records = cluster.records replica ∨
      sidecar.records = cluster.records replica ++ [record] ∧ record.tier ≠ .publicTier ∧
        ∀ k, record.supersedes = some k → ∃ prior ∈ cluster.records replica, contentHash prior = k) :
    (cluster.put replica record sidecar).Sound contentHash := by
  have hmono : ∀ other, ∀ r ∈ cluster.history other, r ∈ (cluster.put replica record sidecar).history other :=
    fun other r hr => mem_history_put sidecar hr
  have hself : record ∈ (cluster.put replica record sidecar).history replica := by
    rw [history_put_self]
    exact mem_append_right _ mem_cons_self
  have hlocal : (∀ r ∈ sidecar.records, r ∈ (cluster.put replica record sidecar).history replica) ∧
      Chained contentHash StateVisibility.supersedes sidecar.records ∧
      ∀ r ∈ sidecar.records, r.tier ≠ .publicTier := by
    rcases hsidecar with hnil | hsame | ⟨hmore, htier, hparent⟩
    · rw [hnil]
      exact ⟨nofun, .nil, nofun⟩
    · rw [hsame]
      exact ⟨fun r hr => hmono replica r (h.stored replica r hr), (h.sidecars replica).chained,
        (h.sidecars replica).restricted⟩
    · rw [hmore]
      refine ⟨fun r hr => ?_, (h.sidecars replica).chained.snoc hparent, fun r hr => ?_⟩
      · rcases mem_append.1 hr with hr | hr
        · exact hmono replica r (h.stored replica r hr)
        · exact mem_singleton.1 hr ▸ hself
      · rcases mem_append.1 hr with hr | hr
        · exact (h.sidecars replica).restricted r hr
        · exact mem_singleton.1 hr ▸ htier
  obtain ⟨hstored, hchained, hrestricted⟩ := hlocal
  exact {
    stored := fun other => by
      by_cases heq : other = replica
      · subst heq
        rw [records_put_self]
        exact hstored
      · rw [records_put_ne heq, history_put_ne heq]
        exact h.stored other
    grounded := fun other => by
      by_cases heq : other = replica
      · subst heq
        rw [history_put_self]
        exact (h.grounded other).snoc hhistory
      · rw [history_put_ne heq]
        exact h.grounded other
    sidecars := fun other => by
      by_cases heq : other = replica
      · subst heq
        rw [records_put_self]
        exact ⟨hchained, hrestricted, fun r hr => ⟨other, hstored r hr⟩⟩
      · rw [records_put_ne heq]
        exact (h.sidecars other).mono hmono
    sent := fun records hrecords => (h.sent records hrecords).mono hmono
    receipts := fun receipt hreceipt => by
      obtain ⟨done, hsendable, hdone⟩ := h.receipts receipt hreceipt
      exact ⟨done, hsendable.mono hmono, fun r hr => hmono _ r (hdone r hr)⟩ }

omit [DecidableEq ι] in
theorem Cluster.Sound.received (h : cluster.Sound contentHash) {record : StateVisibility T}
    {put : PutVisibilityOutcome T}
    (hput : putStateVisibilityLocked contentHash record (cluster.sidecars replica) = .ok put)
    (htier : record.tier ≠ .publicTier) (hknown : ∃ other, record ∈ cluster.history other)
    (hparent : ∀ k, record.supersedes = some k → ∃ prior ∈ cluster.records replica, contentHash prior = k)
    (hdistinct : cluster.Distinct contentHash) :
    record ∈ cluster.records replica ∧ put.newSidecar = cluster.sidecars replica ∨
      put.newSidecar = some (cluster.records replica ++ [record]) := by
  obtain ⟨other, hother⟩ := hknown
  rcases put_cases hput with ⟨⟨existing, hmem, hsame⟩, hkept⟩ | ⟨hnew, ⟨hkept, _⟩ | ⟨_, hpublic⟩⟩
  · have heq := hdistinct replica other existing (h.stored replica existing hmem) record hother hsame
    exact .inl ⟨heq ▸ hmem, hkept⟩
  · exact .inr hkept
  · exfalso
    have hchained := (h.sidecars replica).chained.snoc hparent
    obtain ⟨head, hhead⟩ := exists_headOf (hchained.isHead_last hnew)
    have hgone := hpublic head hhead
    rcases mem_append.1 (headOf_isGreatestHead hhead).mem with hmem | hmem
    · exact (h.sidecars replica).restricted head hmem hgone
    · exact htier (mem_singleton.1 hmem ▸ hgone)

section
variable (h : cluster.Sound contentHash)
include h

omit [DecidableEq ι] in
theorem Cluster.Sound.puts
    (hsafe : cluster.Safe contentHash event) (hdistinct : cluster.Distinct contentHash)
    {rest : List (StateVisibility T)} {receipt : Nat} {put : PutVisibilityOutcome T}
    (hevent : event = .receive receipt)
    (hreceipt : cluster.receipts[receipt]? = some (replica, record :: rest))
    (hput : putStateVisibilityLocked contentHash record (cluster.sidecars replica) = .ok put) :
    record.tier ≠ .publicTier ∧ (∃ other, record ∈ cluster.history other) ∧
      (∀ k, record.supersedes = some k → ∃ prior ∈ cluster.records replica, contentHash prior = k) ∧
      (record ∈ cluster.records replica ∧ put.newSidecar = cluster.sidecars replica ∨
        put.newSidecar = some (cluster.records replica ++ [record])) := by
  obtain ⟨done, hsendable, hdone⟩ := h.receipts _ (mem_of_getElem? hreceipt)
  have hmem : record ∈ done ++ record :: rest := mem_append_right _ mem_cons_self
  have htier := hsendable.restricted record hmem
  have hknown := hsendable.known record hmem
  obtain ⟨_, hparents⟩ := hsafe.2 replica record ⟨receipt, rest, put, hevent, hreceipt, hput⟩
  have hparent : ∀ k, record.supersedes = some k →
      ∃ prior ∈ cluster.records replica, contentHash prior = k := by
    intro k hk
    obtain ⟨prior, hprior, hkey⟩ := hsendable.chained done record rest rfl k hk
    refine ⟨prior, ?_, hkey⟩
    by_contra hgone
    exact hparents prior ⟨hdone prior hprior, hgone⟩ (hkey ▸ hk)
  exact ⟨htier, hknown, hparent, h.received hput htier hknown hparent hdistinct⟩

theorem Cluster.Sound.commits {declaredAt : T}
    {signature : StateSignature} {superseded : Option ContentHash} {put : PutVisibilityOutcome T}
    (hlink : linkStateVisibility contentHash record kind declaredAt signature (cluster.sidecars replica) =
      .ok (some (linked, superseded)))
    (hput : putStateVisibilityLocked contentHash linked (cluster.sidecars replica) = .ok put)
    (hunrivalled : Unrivalled contentHash (cluster.records replica) linked)
    (hdistinct : (cluster.put replica linked put.newSidecar).Distinct contentHash) :
    effectiveVisibilityTier contentHash put.newSidecar = record.tier ∧
      (∀ k, linked.supersedes = some k → ∃ prior ∈ cluster.records replica, contentHash prior = k) ∧
      (put.newSidecar = none ∨
        put.newSidecar = some (cluster.records replica ++ [linked]) ∧ linked.tier ≠ .publicTier) := by
  obtain ⟨htier, hlinked⟩ := linked_eq hlink
  have hlocal : ∀ r ∈ linked :: cluster.records replica, ∀ s ∈ linked :: cluster.records replica,
      contentHash r = contentHash s → r = s := by
    have hmem : ∀ r ∈ linked :: cluster.records replica,
        r ∈ (cluster.put replica linked put.newSidecar).history replica := by
      intro r hr
      rw [history_put_self]
      rcases mem_cons.1 hr with rfl | hr
      · exact mem_append_right _ mem_cons_self
      · exact mem_append_left _ (h.stored replica r hr)
    exact fun r hr s hs => hdistinct replica replica r (hmem r hr) s (hmem s hs)
  have hchained := (h.sidecars replica).chained
  obtain ⟨hnew, _⟩ := linked_isHead hchained hlocal hlinked
  obtain ⟨head, hhead, hheadTier⟩ := latest_linked hchained hlocal hlinked hunrivalled
  have heffective := effectiveVisibilityTier_put hput hnew hhead
  refine ⟨heffective.trans (hheadTier.trans htier), fun k hk => ?_, ?_⟩
  · rw [hlinked] at hk
    obtain ⟨prior, hprior, hkey⟩ := Option.map_eq_some_iff.1 hk
    exact ⟨prior, (headOf_isGreatestHead hprior).mem, hkey⟩
  · rcases put_cases hput with ⟨⟨existing, hmem, hsame⟩, _⟩ |
      ⟨_, ⟨hkept, head', hhead', hrestricted⟩ | ⟨hgone, _⟩⟩
    · exact absurd hsame (hnew existing hmem)
    · obtain rfl := Option.some.inj (hhead.symm.trans hhead')
      exact .inr ⟨hkept, hheadTier ▸ hrestricted⟩
    · exact .inl hgone

theorem Cluster.Sound.step (hsafe : cluster.Safe contentHash event)
    (hdistinct : (cluster.step contentHash state event).Distinct contentHash) :
    (cluster.step contentHash state event).Sound contentHash := by
  have hbefore := hdistinct.of_step
  have hstep := cluster.stepped contentHash state event
  generalize cluster.step contentHash state event = after at hstep hdistinct ⊢
  cases hstep with
  | unchanged => exact h
  | committed replica record kind declaredAt signature audited linked superseded outcome hevent hlink
      hcommit hput =>
    have hunrivalled := hsafe.1 _ _ _ _ _ _ _ _ hevent hlink
    obtain ⟨_, hparent, hgone | ⟨hkept, htier⟩⟩ := h.commits hlink hput hunrivalled hdistinct
    · refine h.put (fun k hk => ?_) (.inl (by rw [hgone]; rfl))
      obtain ⟨prior, hprior, hkey⟩ := hparent k hk
      exact ⟨prior, h.stored replica prior hprior, hkey⟩
    · refine h.put (fun k hk => ?_) (.inr (.inr ⟨by rw [hkept]; rfl, htier, hparent⟩))
      obtain ⟨prior, hprior, hkey⟩ := hparent k hk
      exact ⟨prior, h.stored replica prior hprior, hkey⟩
  | sent replica records hevent hrecords =>
    have hsendable := h.sidecars replica
    rw [Cluster.records, hrecords] at hsendable
    exact { h with
      sent := fun message hmessage => by
        rcases mem_append.1 hmessage with hold | hnew
        · exact h.sent message hold
        · exact mem_singleton.1 hnew ▸ hsendable }
  | accepted replica message verified incoming hevent hincoming =>
    have hsendable := h.sent incoming (mem_of_getElem? hincoming)
    exact { h with
      receipts := fun receipt hreceipt => by
        rcases mem_append.1 hreceipt with hold | hnew
        · exact h.receipts receipt hold
        · obtain rfl := mem_singleton.1 hnew
          exact ⟨[], hsendable, nofun⟩ }
  | failed receipt replica record rest hevent hreceipt =>
    exact { h with
      receipts := fun other hother => by
        rcases mem_or_eq_of_mem_set hother with hold | rfl
        · exact h.receipts other hold
        · exact ⟨[], ⟨.nil, nofun, nofun⟩, nofun⟩ }
  | received receipt replica record rest put hevent hreceipt hput =>
    obtain ⟨htier, hknown, hparent, hresult⟩ := h.puts hsafe hbefore hevent hreceipt hput
    have hsound : (cluster.put replica record put.newSidecar).Sound contentHash := by
      refine h.put (fun k hk => ?_) ?_
      · obtain ⟨prior, hprior, hkey⟩ := hparent k hk
        exact ⟨prior, h.stored replica prior hprior, hkey⟩
      · rcases hresult with ⟨_, hsame⟩ | hmore
        · exact .inr (.inl (by rw [hsame]; rfl))
        · exact .inr (.inr ⟨by rw [hmore]; rfl, htier, hparent⟩)
    obtain ⟨done, hsendable, hdone⟩ := hsound.receipts _ (mem_of_getElem? hreceipt)
    exact { hsound with
      receipts := fun other hother => by
        rcases mem_or_eq_of_mem_set hother with hold | rfl
        · exact hsound.receipts other hold
        · refine ⟨done ++ [record], ?_, fun r hr => ?_⟩
          · rw [append_assoc]
            exact hsendable
          · rcases mem_append.1 hr with hr | hr
            · exact hdone r hr
            · obtain rfl := mem_singleton.1 hr
              rw [history_put_self]
              exact mem_append_right _ mem_cons_self }

end

def SafeRun (contentHash : StateVisibility T → ContentHash) (state : StateId) (cluster : Cluster ι T)
    (events : List (VisibilityEvent ι T)) : Prop :=
  ∀ front event rest, events = front ++ event :: rest →
    (cluster.run contentHash state front).Safe contentHash event

theorem Cluster.run_append (first second : List (VisibilityEvent ι T)) :
    cluster.run contentHash state (first ++ second) =
      (cluster.run contentHash state first).run contentHash state second :=
  foldl_append

theorem Cluster.run_singleton (cluster : Cluster ι T) (event : VisibilityEvent ι T) :
    cluster.run contentHash state [event] = cluster.step contentHash state event := rfl

theorem SafeRun.append (first second : List (VisibilityEvent ι T))
    (h : SafeRun contentHash state cluster (first ++ second)) :
    SafeRun contentHash state cluster first ∧
      SafeRun contentHash state (cluster.run contentHash state first) second := by
  constructor
  · rintro front event rest rfl
    refine h front event (rest ++ second) ?_
    rw [append_assoc, cons_append]
  · rintro front event rest rfl
    rw [← Cluster.run_append]
    refine h (first ++ front) event rest ?_
    rw [append_assoc]

theorem Cluster.Sound.run (h : cluster.Sound contentHash) (hsafe : SafeRun contentHash state cluster events)
    (hdistinct : (cluster.run contentHash state events).Distinct contentHash) :
    (cluster.run contentHash state events).Sound contentHash := by
  induction events generalizing cluster with
  | nil => exact h
  | cons event events ih =>
    change ((cluster.step contentHash state event).run contentHash state events).Distinct contentHash
      at hdistinct
    exact ih (h.step (hsafe [] event events rfl) hdistinct.of_run) (SafeRun.append [event] events hsafe).2
      hdistinct

omit [DecidableEq ι] in
theorem Cluster.Sound.empty : (Cluster.empty : Cluster ι T).Sound contentHash where
  stored := nofun
  grounded _ := .nil
  sidecars _ := ⟨.nil, nofun, nofun⟩
  sent := nofun
  receipts := nofun

end Replicas

section Exchange
variable [DecidableEq ι] {contentHash : StateVisibility T → ContentHash} {state : StateId}
  {start cluster : Cluster ι T} {event : VisibilityEvent ι T} {events : List (VisibilityEvent ι T)}

/-- No commit, and no use of what was sent or begun to be received before `start`. -/
def VisibilityEvent.Exchanges (start : Cluster ι T) : VisibilityEvent ι T → Prop
  | .commit .. => False
  | .send _ => True
  | .accept _ message _ => start.sent.length ≤ message
  | .receive receipt => start.receipts.length ≤ receipt

/-- Some step of the run puts the received record at the replica. -/
def Receives (contentHash : StateVisibility T → ContentHash) (state : StateId) (start : Cluster ι T)
    (events : List (VisibilityEvent ι T)) (replica : ι) (record : StateVisibility T) : Prop :=
  ∃ front event rest, events = front ++ event :: rest ∧
    (start.run contentHash state front).Puts contentHash event replica record

section
variable (h : cluster.Sound contentHash) (hsafe : cluster.Safe contentHash event)
  (hdistinct : cluster.Distinct contentHash)
include h hsafe hdistinct

/-- Nothing is lost when records are sent and received. -/
theorem Cluster.Sound.records_step
    (hexchanges : event.Exchanges start) (hr : r ∈ cluster.records replica) :
    r ∈ (cluster.step contentHash state event).records replica := by
  have hstep := cluster.stepped contentHash state event
  generalize cluster.step contentHash state event = after at hstep ⊢
  cases hstep with
  | unchanged => exact hr
  | committed _ _ _ _ _ _ _ _ _ hevent =>
    rw [hevent] at hexchanges
    cases hexchanges
  | sent => exact hr
  | accepted => exact hr
  | failed => exact hr
  | received receipt other record rest put hevent hreceipt hput =>
    change r ∈ (cluster.put other record put.newSidecar).records replica
    by_cases heq : replica = other
    · subst heq
      rw [records_put_self]
      obtain ⟨_, _, _, ⟨_, hsame⟩ | hmore⟩ := h.puts hsafe hdistinct hevent hreceipt hput
      · rw [hsame]
        exact hr
      · rw [hmore]
        exact mem_append_left _ hr
    · rw [records_put_ne heq]
      exact hr

theorem Cluster.Sound.puts_mem (hputs : cluster.Puts contentHash event replica record) :
    record ∈ (cluster.step contentHash state event).records replica := by
  obtain ⟨receipt, rest, put, rfl, hreceipt, hput⟩ := hputs
  obtain ⟨_, _, _, hresult⟩ := h.puts hsafe hdistinct rfl hreceipt hput
  unfold Cluster.step
  simp only [hreceipt, hput]
  change record ∈ (cluster.put replica record put.newSidecar).records replica
  rw [records_put_self]
  rcases hresult with ⟨hmem, hsame⟩ | hmore
  · rw [hsame]
    exact hmem
  · rw [hmore]
    exact mem_append_right _ mem_cons_self

end

/-- What is sent and received since `start` is what the sidecars held there. -/
structure Exchanged (start cluster : Cluster ι T) : Prop where
  records : ∀ replica, ∀ r ∈ cluster.records replica, ∃ source, r ∈ start.records source
  sentLength : start.sent.length ≤ cluster.sent.length
  sent : ∀ message, start.sent.length ≤ message → ∀ incoming, cluster.sent[message]? = some incoming →
    ∀ r ∈ incoming, ∃ source, r ∈ start.records source
  receiptsLength : start.receipts.length ≤ cluster.receipts.length
  receipts : ∀ receipt, start.receipts.length ≤ receipt → ∀ target left,
    cluster.receipts[receipt]? = some (target, left) → ∀ r ∈ left, ∃ source, r ∈ start.records source

omit [DecidableEq ι] in
theorem Exchanged.refl (start : Cluster ι T) : Exchanged start start where
  records replica r hr := ⟨replica, hr⟩
  sentLength := le_rfl
  sent message hle incoming hmessage := by
    rw [getElem?_eq_none hle] at hmessage
    cases hmessage
  receiptsLength := le_rfl
  receipts receipt hle target left hreceipt := by
    rw [getElem?_eq_none hle] at hreceipt
    cases hreceipt

omit [DecidableEq ι] in
theorem Exchanged.set_receipt (h : Exchanged start cluster)
    (hreceipt : cluster.receipts[receipt]? = some (replica, whole))
    (hrest : ∀ r ∈ rest, r ∈ whole) (hle : start.receipts.length ≤ other)
    (hother : (cluster.receipts.set receipt (replica, rest))[other]? = some (target, left)) :
    ∀ r ∈ left, ∃ source, r ∈ start.records source := by
  by_cases heq : receipt = other
  · subst heq
    rw [List.getElem?_set_self (List.getElem?_eq_some_iff.1 hreceipt).1] at hother
    obtain ⟨rfl, rfl⟩ := Prod.mk.inj (Option.some.inj hother)
    exact fun r hr => h.receipts receipt hle replica whole hreceipt r (hrest r hr)
  · rw [getElem?_set_ne heq] at hother
    exact h.receipts other hle target left hother

theorem Exchanged.step (h : Exchanged start cluster) (hsound : cluster.Sound contentHash)
    (hsafe : cluster.Safe contentHash event) (hdistinct : cluster.Distinct contentHash)
    (hexchanges : event.Exchanges start) :
    Exchanged start (cluster.step contentHash state event) := by
  have hstep := cluster.stepped contentHash state event
  generalize cluster.step contentHash state event = after at hstep ⊢
  cases hstep with
  | unchanged => exact h
  | committed _ _ _ _ _ _ _ _ _ hevent =>
    rw [hevent] at hexchanges
    cases hexchanges
  | sent replica records hevent hrecords =>
    refine ⟨h.records, ?_, fun message hle incoming hmessage => ?_, h.receiptsLength, h.receipts⟩
    · exact h.sentLength.trans (length_append ▸ Nat.le_add_right _ _)
    · rcases Nat.lt_or_ge message cluster.sent.length with hlt | hge
      · rw [getElem?_append_left hlt] at hmessage
        exact h.sent message hle incoming hmessage
      · rw [getElem?_append_right hge] at hmessage
        obtain rfl := mem_singleton.1 (mem_of_getElem? hmessage)
        intro r hr
        refine h.records replica r ?_
        rw [Cluster.records, hrecords]
        exact hr
  | accepted replica message verified incoming hevent hincoming =>
    rw [hevent] at hexchanges
    have hknown := h.sent message hexchanges incoming hincoming
    refine ⟨h.records, h.sentLength, h.sent, ?_, fun receipt hle target left hreceipt => ?_⟩
    · exact h.receiptsLength.trans (length_append ▸ Nat.le_add_right _ _)
    · rcases Nat.lt_or_ge receipt cluster.receipts.length with hlt | hge
      · rw [getElem?_append_left hlt] at hreceipt
        exact h.receipts receipt hle target left hreceipt
      · rw [getElem?_append_right hge] at hreceipt
        obtain ⟨rfl, rfl⟩ := Prod.mk.inj (mem_singleton.1 (mem_of_getElem? hreceipt))
        exact hknown
  | failed receipt replica record rest hevent hreceipt =>
    refine ⟨h.records, h.sentLength, h.sent, ?_, fun other hle target left hother =>
      h.set_receipt hreceipt (fun _ hr => absurd hr not_mem_nil) hle hother⟩
    rw [length_set]
    exact h.receiptsLength
  | received receipt replica record rest put hevent hreceipt hput =>
    rw [hevent] at hexchanges
    obtain ⟨source, hsource⟩ := h.receipts receipt hexchanges replica _ hreceipt record mem_cons_self
    refine ⟨fun other r hr => ?_, h.sentLength, h.sent, ?_, fun other hle target left hother =>
      h.set_receipt hreceipt (fun r hr => .tail _ hr) hle hother⟩
    · change r ∈ (cluster.put replica record put.newSidecar).records other at hr
      by_cases heq : other = replica
      · subst heq
        rw [Cluster.records_put_self] at hr
        obtain ⟨_, _, _, ⟨_, hsame⟩ | hmore⟩ := hsound.puts hsafe hdistinct hevent hreceipt hput
        · rw [hsame] at hr
          exact h.records other r hr
        · rw [hmore] at hr
          rcases mem_append.1 hr with hr | hr
          · exact h.records other r hr
          · exact mem_singleton.1 hr ▸ ⟨source, hsource⟩
      · rw [Cluster.records_put_ne heq] at hr
        exact h.records other r hr
    · rw [length_set]
      exact h.receiptsLength

theorem Exchanged.run (hsound : start.Sound contentHash) (hsafe : SafeRun contentHash state start events)
    (hdistinct : (start.run contentHash state events).Distinct contentHash)
    (hexchanges : ∀ event ∈ events, event.Exchanges start) :
    Exchanged start (start.run contentHash state events) ∧
      (∀ replica, ∀ r ∈ start.records replica, r ∈ (start.run contentHash state events).records replica) ∧
      ∀ replica r, Receives contentHash state start events replica r →
        r ∈ (start.run contentHash state events).records replica := by
  induction events using List.reverseRecOn with
  | nil =>
    refine ⟨.refl start, fun _ _ hr => hr, ?_⟩
    rintro replica r ⟨front, event, rest, hsplit, _⟩
    exact absurd hsplit.symm (append_ne_nil_of_right_ne_nil _ (cons_ne_nil _ _))
  | append_singleton events event ih =>
    obtain ⟨hsafeRun, hsafeStep⟩ := SafeRun.append events [event] hsafe
    rw [Cluster.run_append] at hdistinct ⊢
    have hbefore : (start.run contentHash state events).Distinct contentHash := hdistinct.of_run
    have hsafeEvent := hsafeStep [] event [] rfl
    obtain ⟨hexchanged, hkept, hreceived⟩ := ih hsafeRun hbefore
      fun event hevent => hexchanges event (mem_append_left _ hevent)
    have hsoundAfter := hsound.run hsafeRun hbefore
    have hevent := hexchanges event (mem_append_right _ mem_cons_self)
    have hmono : ∀ replica, ∀ r ∈ (start.run contentHash state events).records replica,
        r ∈ ((start.run contentHash state events).step contentHash state event).records replica :=
      fun replica r hr => hsoundAfter.records_step hsafeEvent hbefore hevent hr
    refine ⟨hexchanged.step hsoundAfter hsafeEvent hbefore hevent,
      fun replica r hr => hmono replica r (hkept replica r hr), ?_⟩
    rintro replica r ⟨front, event', rest, hsplit, hputs⟩
    rcases eq_nil_or_concat' rest with rfl | ⟨rest', last, rfl⟩
    · obtain ⟨rfl, hlast⟩ := append_inj' hsplit rfl
      obtain rfl := (List.cons.inj hlast).1
      exact hsoundAfter.puts_mem hsafeEvent hbefore hputs
    · rw [← cons_append, ← append_assoc] at hsplit
      obtain ⟨rfl, _⟩ := append_inj' hsplit rfl
      exact hmono replica r (hreceived replica r ⟨front, event', rest', rfl, hputs⟩)

end Exchange

section Laws
variable [DecidableEq ι] (contentHash : StateVisibility T → ContentHash) (state : StateId)

/-- The laws of visibility along a run from empty sidecars. -/
structure VisibilityConverges (events : List (VisibilityEvent ι T)) : Prop where
  /-- A commit that succeeds makes its tier the effective one. -/
  committed : ∀ front rest replica record kind declaredAt signature audited outcome,
    events = front ++ .commit replica record kind declaredAt signature audited :: rest →
    record.state = state →
    commitStateVisibility contentHash record kind declaredAt signature audited
      ((Cluster.empty.run contentHash state front).sidecars replica) = .ok (some outcome) →
    effectiveVisibilityTier contentHash ((Cluster.empty.run contentHash state (front ++
      [.commit replica record kind declaredAt signature audited])).sidecars replica) = record.tier
  /-- A received record that a record put there supersedes changes nothing. -/
  superseded : ∀ front event rest replica record later, events = front ++ event :: rest →
    (Cluster.empty.run contentHash state front).Puts contentHash event replica record →
    later ∈ (Cluster.empty.run contentHash state front).history replica →
    later.supersedes = some (contentHash record) →
    effectiveVisibilityTier contentHash
        ((Cluster.empty.run contentHash state (front ++ [event])).sidecars replica) =
      effectiveVisibilityTier contentHash ((Cluster.empty.run contentHash state front).sidecars replica)
  /-- When all replicas have received what the others held, they agree. -/
  agreed : ∀ front exchange rest, events = front ++ exchange ++ rest →
    (∀ event ∈ exchange, event.Exchanges (Cluster.empty.run contentHash state front)) →
    (∀ source target, source ≠ target →
      ∀ record ∈ (Cluster.empty.run contentHash state front).records source,
        Receives contentHash state (Cluster.empty.run contentHash state front) exchange target record) →
    ∀ i j, effectiveVisibilityTier contentHash
        ((Cluster.empty.run contentHash state (front ++ exchange)).sidecars i) =
      effectiveVisibilityTier contentHash
        ((Cluster.empty.run contentHash state (front ++ exchange)).sidecars j)

variable {contentHash state} {events : List (VisibilityEvent ι T)}

/-- In a run of safe steps the laws hold. -/
theorem visibilityConverges (hdistinct : (Cluster.empty.run contentHash state events).Distinct contentHash)
    (hsafe : SafeRun contentHash state Cluster.empty events) :
    VisibilityConverges contentHash state events where
  committed front rest replica record kind declaredAt signature audited outcome hsplit hstate hcommit := by
    subst hsplit
    obtain ⟨hsafeFront, hsafeRest⟩ := SafeRun.append front _ hsafe
    rw [← singleton_append, ← append_assoc, Cluster.run_append] at hdistinct
    have hafter := hdistinct.of_run
    rw [Cluster.run_append] at hafter
    have hsound := Cluster.Sound.empty.run hsafeFront hafter.of_run
    obtain ⟨linked, superseded, hlink, hput⟩ := commit_eq_some hcommit
    have hunrivalled := (hsafeRest [] _ rest rfl).1 _ _ _ _ _ _ _ _ rfl hlink
    have hstep : (Cluster.empty.run contentHash state front).run contentHash state
        [.commit replica record kind declaredAt signature audited] =
        (Cluster.empty.run contentHash state front).put replica linked outcome.put.newSidecar := by
      rw [Cluster.run_singleton, Cluster.step]
      rw [if_neg (not_not.2 hstate), hlink, hcommit]
    rw [hstep] at hafter
    rw [Cluster.run_append, hstep, Cluster.sidecars_put_self]
    exact (hsound.commits hlink hput hunrivalled hafter).1
  superseded front event rest replica record later hsplit hputs hlater hsupersedes := by
    subst hsplit
    obtain ⟨hsafeFront, hsafeRest⟩ := SafeRun.append front _ hsafe
    have hsafeEvent := hsafeRest [] event rest rfl
    rw [Cluster.run_append] at hdistinct
    have hbefore := hdistinct.of_run
    have hsound := Cluster.Sound.empty.run hsafeFront hbefore
    obtain ⟨prior, hprior, hkey⟩ := (hsound.grounded replica).parent_mem hlater hsupersedes
    obtain ⟨hkept, _⟩ := hsafeEvent.2 replica record hputs
    obtain ⟨receipt, left, put, rfl, hreceipt, hput⟩ := hputs
    obtain ⟨_, ⟨other, hother⟩, _⟩ := hsound.puts hsafeEvent hbefore rfl hreceipt hput
    obtain rfl := hbefore replica other prior hprior record hother hkey
    have hmem : prior ∈ (Cluster.empty.run contentHash state front).records replica := by
      by_contra hgone
      exact hkept ⟨hprior, hgone⟩
    have hsame : put.newSidecar = (Cluster.empty.run contentHash state front).sidecars replica := by
      rcases put_cases hput with ⟨_, hsame⟩ | ⟨hnew, _⟩
      · exact hsame
      · exact absurd rfl (hnew prior hmem)
    have hstep : (Cluster.empty.run contentHash state (front ++ [.receive receipt])).sidecars replica =
        put.newSidecar := by
      rw [Cluster.run_append, Cluster.run_singleton, Cluster.step]
      simp only [hreceipt, hput]
      exact Cluster.sidecars_put_self _ _ _ _
    rw [hstep, hsame]
  agreed front exchange rest hsplit hexchanges hreceives i j := by
    subst hsplit
    obtain ⟨hsafe, _⟩ := SafeRun.append (front ++ exchange) rest hsafe
    obtain ⟨hsafeFront, hsafeExchange⟩ := SafeRun.append front exchange hsafe
    rw [Cluster.run_append] at hdistinct
    have hall := hdistinct.of_run
    rw [Cluster.run_append] at hall ⊢
    have hsound := Cluster.Sound.empty.run hsafeFront hall.of_run
    obtain ⟨hexchanged, hkept, hreceived⟩ := Exchanged.run hsound hsafeExchange hall hexchanges
    have hafter := hsound.run hsafeExchange hall
    have hsubset : ∀ source target r, r ∈ ((Cluster.empty.run contentHash state front).run contentHash state
        exchange).records source →
        r ∈ ((Cluster.empty.run contentHash state front).run contentHash state exchange).records target := by
      intro source target r hr
      obtain ⟨holder, hholder⟩ := hexchanged.records source r hr
      by_cases heq : holder = target
      · exact heq ▸ hkept holder r hholder
      · exact hreceived target r (hreceives holder target heq r hholder)
    have hlatest : latest contentHash _ = latest contentHash _ :=
      headOf_congr (fun r => ⟨hsubset i j r, hsubset j i r⟩)
        fun a ha b hb => hall i i a (hafter.stored i a ha) b (hafter.stored i b hb)
    unfold effectiveVisibilityTier
    have hsidecars : latest contentHash (Cluster.sidecars _ i).records =
        latest contentHash (Cluster.sidecars _ j).records := hlatest
    rw [hsidecars]

theorem SafeRun.cons (hsafe : cluster.Safe contentHash event)
    (h : SafeRun contentHash state (cluster.step contentHash state event) events) :
    SafeRun contentHash state cluster (event :: events) := by
  intro front event' rest hsplit
  cases front with
  | nil =>
    obtain ⟨rfl, rfl⟩ := List.cons.inj hsplit
    exact hsafe
  | cons first front =>
    obtain ⟨rfl, rfl⟩ := List.cons.inj hsplit
    exact h front event' rest rfl

theorem SafeRun.nil {cluster : Cluster ι T} : SafeRun contentHash state cluster [] := by
  intro front event rest hsplit
  exact absurd hsplit.symm (append_ne_nil_of_right_ne_nil _ (cons_ne_nil _ _))

omit [DecidableEq ι] in
theorem Cluster.safe_of_kept {cluster : Cluster ι T}
    (hkept : ∀ replica, ∀ record ∈ cluster.history replica, record ∈ cluster.records replica)
    (hlatest : ∀ replica record kind declaredAt signature audited,
      event = .commit replica record kind declaredAt signature audited →
      ∀ r ∈ cluster.records replica, latest contentHash (cluster.records replica) = some r) :
    cluster.Safe contentHash event := by
  have hnone : ∀ replica prior, ¬ cluster.Dropped replica prior :=
    fun replica prior hdropped => hdropped.2 (hkept replica prior hdropped.1)
  constructor
  · intro replica record kind declaredAt signature audited _ _ hevent hlink other hother hrival
    have hhead : latest contentHash (cluster.records replica) = some other :=
      hlatest replica record kind declaredAt signature audited hevent other hother.mem
    have hsupersedes := (linked_eq hlink).2
    change _ = (latest contentHash (cluster.records replica)).map contentHash at hsupersedes
    rw [hhead] at hsupersedes
    exact absurd hsupersedes hrival
  · exact fun replica record _ =>
      ⟨hnone replica record, fun prior hprior => absurd hprior (hnone replica prior)⟩

end Laws

section Examples

def dockState : StateId := ⟨Vector.replicate 32 7⟩

def dockDeclaration (tier : VisibilityTier) : StateVisibility Nat where
  state := dockState
  tier := tier
  embargoUntil := none
  declarer := ⟨utf8 "Ada", utf8 "ada@loom"⟩
  declaredAt := 0
  signature := none
  supersedes := none

def dockSignature : StateSignature := ⟨"ed25519", "key", "signature"⟩

def dockHash (record : StateVisibility Nat) : ContentHash :=
  ⟨Vector.replicate 32 (UInt8.ofNat record.declaredAt)⟩

def dockShared : List (VisibilityEvent Bool Nat) :=
  [.commit false (dockDeclaration .internal) .set 1 dockSignature true, .send false,
    .accept true 0 fun _ => true, .receive 0]

def dockReturned : List (VisibilityEvent Bool Nat) :=
  dockShared ++ [.commit false (dockDeclaration .publicTier) .promote 2 dockSignature true, .send true,
    .accept false 1 fun _ => true]

/-- `false` restricts the state and promotes it; `true`, which scoped it to a team, gets both
records beside its own. -/
def dockForked : List (VisibilityEvent Bool Nat) :=
  [.commit false (dockDeclaration (.restricted "legal")) .set 1 dockSignature true,
    .commit true (dockDeclaration (.teamScoped "dock")) .set 2 dockSignature true,
    .commit false (dockDeclaration .internal) .promote 3 dockSignature true, .send false,
    .accept true 0 fun _ => true, .receive 0, .receive 0]

theorem visibilityConverges_dockForked : VisibilityConverges dockHash dockState dockForked := by
  apply visibilityConverges
  · unfold Cluster.Distinct
    decide +kernel
  · apply SafeRun.cons (Cluster.safe_of_kept (by decide +kernel) ?_)
    apply SafeRun.cons (Cluster.safe_of_kept (by decide +kernel) ?_)
    apply SafeRun.cons (Cluster.safe_of_kept (by decide +kernel) ?_)
    apply SafeRun.cons (Cluster.safe_of_kept (by decide +kernel) ?_)
    apply SafeRun.cons (Cluster.safe_of_kept (by decide +kernel) ?_)
    apply SafeRun.cons (Cluster.safe_of_kept (by decide +kernel) ?_)
    apply SafeRun.cons (Cluster.safe_of_kept (by decide +kernel) ?_) SafeRun.nil
    all_goals
      rintro _ _ _ _ _ _ hevent
      cases hevent
    all_goals decide +kernel

/-- The promotion is undone by the record that it superseded. -/
theorem not_visibilityConverges_dockReturned :
    (Cluster.empty.run dockHash dockState (dockReturned ++ [.receive 1])).Distinct dockHash ∧
      ¬ VisibilityConverges dockHash dockState (dockReturned ++ [.receive 1]) := by
  constructor
  · unfold Cluster.Distinct
    decide +kernel
  · intro h
    have hputs : ∃ record later, (Cluster.empty.run dockHash dockState dockReturned).Puts dockHash
        (.receive 1) false record ∧
        later ∈ (Cluster.empty.run dockHash dockState dockReturned).history false ∧
        later.supersedes = some (dockHash record) :=
      ⟨{ dockDeclaration .internal with declaredAt := 1, signature := some dockSignature },
        { dockDeclaration .publicTier with
          declaredAt := 2
          signature := some dockSignature
          supersedes := some ⟨Vector.replicate 32 1⟩ },
        ⟨1, [], _, rfl, rfl, rfl⟩, by decide +kernel, by decide +kernel⟩
    obtain ⟨record, later, hputs, hlater, hsupersedes⟩ := hputs
    have hsame := h.superseded dockReturned (.receive 1) [] false record later rfl hputs hlater hsupersedes
    have hbefore : effectiveVisibilityTier dockHash
        ((Cluster.empty.run dockHash dockState dockReturned).sidecars false) = .publicTier := by
      decide +kernel
    have hafter : effectiveVisibilityTier dockHash
        ((Cluster.empty.run dockHash dockState (dockReturned ++ [.receive 1])).sidecars false) =
          .internal := by
      decide +kernel
    cases hafter.symm.trans (hsame.trans hbefore)

end Examples

end Heddle
