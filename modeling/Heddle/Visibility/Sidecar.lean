import Heddle.Lib.Heads
import Heddle.SourceTarget.Node
import Heddle.Visibility.Record
import Mathlib.Logic.Function.Basic

namespace Heddle
open Heddle.Lib Heddle.Oplog

def restrictivenessRank : VisibilityTier → Nat
  | .publicTier => 0
  | .internal => 1
  | .teamScoped _ => 2
  | .restricted _ => 3
  | .privateTier _ => 4

def isStrictlyLessRestrictiveThan (self other : VisibilityTier) : Bool :=
  restrictivenessRank self < restrictivenessRank other

inductive VisibilityCommitKind where
  | set
  | promote
  deriving DecidableEq

inductive VisibilityError where
  | bail (message : String)
  | validate (context : String) (error : StateVisibilityError)
  | cannotPromote (state : StateId) (source target : String)
  | claimsState (claimed transferred : StateId)
  | signature
  | audit
  deriving DecidableEq

abbrev Sidecar (T : Type) := Option (List (StateVisibility T))

def Sidecar.records (sidecar : Sidecar T) : List (StateVisibility T) := sidecar.getD []

structure PutVisibilityOutcome (T : Type) where
  id : ContentHash
  priorSidecar : Sidecar T
  newSidecar : Sidecar T

structure VisibilityCommitOutcome (T : Type) where
  put : PutVisibilityOutcome T
  superseded : Option ContentHash
  declaredAt : T

section Sidecar
variable (contentHash : StateVisibility T → ContentHash)

def latest (records : List (StateVisibility T)) : Option (StateVisibility T) :=
  headOf contentHash StateVisibility.supersedes records

def effectiveVisibilityTier (sidecar : Sidecar T) : VisibilityTier :=
  match latest contentHash sidecar.records with
  | some record => record.tier
  | none => .publicTier

def effectivePublic (records : List (StateVisibility T)) : Bool :=
  match latest contentHash records with
  | some latest => latest.tier = .publicTier
  | none => true

def putStateVisibilityLocked (record : StateVisibility T) (sidecar : Sidecar T) :
    Except VisibilityError (PutVisibilityOutcome T) :=
  if record.signature.isNone then
    .error (.bail "authoritative state-visibility metadata must be client-signed")
  else
    match record.validate with
    | .error error => .error (.validate "validate state-visibility record before put" error)
    | .ok () =>
      let id := contentHash record
      if sidecar.records.any fun existing => contentHash existing = id then .ok ⟨id, sidecar, sidecar⟩
      else
        let existing := sidecar.records ++ [record]
        if effectivePublic contentHash existing then .ok ⟨id, sidecar, none⟩ else .ok ⟨id, sidecar, some existing⟩

/-- The record that a commit puts, and what a promotion supersedes by it; there is none to promote
when the state is public by absence. -/
def linkStateVisibility (record : StateVisibility T) (kind : VisibilityCommitKind) (declaredAt : T)
    (signature : StateSignature) (sidecar : Sidecar T) :
    Except VisibilityError (Option (StateVisibility T × Option ContentHash)) :=
  let priorHead := latest contentHash sidecar.records
  let linked := { record with
    declaredAt, supersedes := priorHead.map contentHash, signature := some signature }
  match kind with
  | .set => .ok (some (linked, none))
  | .promote =>
    match priorHead with
    | none => .ok none
    | some latest =>
      if isStrictlyLessRestrictiveThan record.tier latest.tier then
        .ok (some (linked, priorHead.map contentHash))
      else .error (.cannotPromote record.state (tierName latest.tier) (tierName record.tier))

/-- A commit whose audit entry cannot be appended is rolled back. -/
def commitStateVisibility (record : StateVisibility T) (kind : VisibilityCommitKind) (declaredAt : T)
    (signature : StateSignature) (audited : Bool) (sidecar : Sidecar T) :
    Except VisibilityError (Option (VisibilityCommitOutcome T)) := do
  match ← linkStateVisibility contentHash record kind declaredAt signature sidecar with
  | none => .ok none
  | some (linked, superseded) =>
    let put ← putStateVisibilityLocked contentHash linked sidecar
    if audited then .ok (some ⟨put, superseded, declaredAt⟩) else .error .audit

/-- The checks of the records in received bytes, before the first of them is put. -/
def checkIncoming (state : StateId) (verified : StateVisibility T → Bool)
    (incoming : List (StateVisibility T)) : Except VisibilityError Unit :=
  incoming.forM fun record =>
    if record.state ≠ state then .error (.claimsState record.state state)
    else
      match record.validate with
      | .error error => .error (.validate "validate incoming state-visibility record" error)
      | .ok () => if verified record then .ok () else .error .signature

end Sidecar

/-- The sidecars of one state at all replicas, the bytes that were read from them, what is left to put
of the bytes that are being received, and the records that were put at each replica. -/
structure Cluster (ι T : Type) where
  sidecars : ι → Sidecar T
  sent : List (List (StateVisibility T))
  receipts : List (ι × List (StateVisibility T))
  history : ι → List (StateVisibility T)

inductive VisibilityEvent (ι T : Type) where
  | commit (replica : ι) (record : StateVisibility T) (kind : VisibilityCommitKind) (declaredAt : T)
      (signature : StateSignature) (audited : Bool)
  | send (replica : ι)
  | accept (replica : ι) (message : Nat) (verified : StateVisibility T → Bool)
  | receive (receipt : Nat)

section Cluster
variable [DecidableEq ι] (contentHash : StateVisibility T → ContentHash) (state : StateId)

def Cluster.empty : Cluster ι T := ⟨fun _ => none, [], [], fun _ => []⟩

def Cluster.put (cluster : Cluster ι T) (replica : ι) (record : StateVisibility T)
    (sidecar : Sidecar T) : Cluster ι T :=
  { cluster with
    sidecars := Function.update cluster.sidecars replica sidecar
    history := Function.update cluster.history replica (cluster.history replica ++ [record]) }

/-- One commit, one reading of a sidecar, the checks of received bytes, or the put of their next record. -/
def Cluster.step (cluster : Cluster ι T) : VisibilityEvent ι T → Cluster ι T
  | .commit replica record kind declaredAt signature audited =>
    let sidecar := cluster.sidecars replica
    -- the sidecar of another state is another file
    if record.state ≠ state then cluster
    else
      match linkStateVisibility contentHash record kind declaredAt signature sidecar,
        commitStateVisibility contentHash record kind declaredAt signature audited sidecar with
      | .ok (some (linked, _)), .ok (some outcome) => cluster.put replica linked outcome.put.newSidecar
      | _, _ => cluster
  | .send replica =>
    match cluster.sidecars replica with
    | none => cluster
    | some records => { cluster with sent := cluster.sent ++ [records] }
  | .accept replica message verified =>
    match cluster.sent[message]? with
    | none => cluster
    | some incoming =>
      match checkIncoming state verified incoming with
      | .error _ => cluster
      | .ok () => { cluster with receipts := cluster.receipts ++ [(replica, incoming)] }
  | .receive receipt =>
    match cluster.receipts[receipt]? with
    | some (replica, record :: rest) =>
      match putStateVisibilityLocked contentHash record (cluster.sidecars replica) with
      | .error _ => { cluster with receipts := cluster.receipts.set receipt (replica, []) }
      | .ok put => { cluster.put replica record put.newSidecar with
          receipts := cluster.receipts.set receipt (replica, rest) }
    | _ => cluster

def Cluster.run (cluster : Cluster ι T) (events : List (VisibilityEvent ι T)) : Cluster ι T :=
  events.foldl (Cluster.step contentHash state) cluster

end Cluster

section Put
variable {contentHash : StateVisibility T → ContentHash} {record : StateVisibility T} {sidecar : Sidecar T}
  {put : PutVisibilityOutcome T}

section
variable (h : putStateVisibilityLocked contentHash record sidecar = .ok put)
include h

theorem put_cases :
    (∃ existing ∈ sidecar.records, contentHash existing = contentHash record) ∧ put.newSidecar = sidecar ∨
      (∀ existing ∈ sidecar.records, contentHash existing ≠ contentHash record) ∧
        (put.newSidecar = some (sidecar.records ++ [record]) ∧
            (∃ head, latest contentHash (sidecar.records ++ [record]) = some head ∧
              head.tier ≠ .publicTier) ∨
          put.newSidecar = none ∧
            ∀ head, latest contentHash (sidecar.records ++ [record]) = some head →
              head.tier = .publicTier) := by
  unfold putStateVisibilityLocked at h
  split at h
  · cases h
  · split at h
    · cases h
    · dsimp only at h
      split at h
      · rename_i hany
        obtain rfl := Except.ok.inj h
        obtain ⟨existing, hmem, hsame⟩ := List.any_eq_true.1 hany
        exact .inl ⟨⟨existing, hmem, of_decide_eq_true hsame⟩, rfl⟩
      · rename_i hnone
        have hnew : ∀ existing ∈ sidecar.records, contentHash existing ≠ contentHash record := by
          intro existing hmem hsame
          exact hnone (List.any_eq_true.2 ⟨existing, hmem, decide_eq_true hsame⟩)
        refine .inr ⟨hnew, ?_⟩
        split at h
        · rename_i hpublic
          obtain rfl := Except.ok.inj h
          refine .inr ⟨rfl, fun head hhead => ?_⟩
          rw [effectivePublic, hhead] at hpublic
          exact of_decide_eq_true hpublic
        · rename_i hrestricted
          obtain rfl := Except.ok.inj h
          unfold effectivePublic at hrestricted
          split at hrestricted
          · rename_i head hhead
            exact .inl ⟨rfl, head, hhead, fun heq => hrestricted (decide_eq_true heq)⟩
          · exact absurd rfl hrestricted

theorem effectiveVisibilityTier_put
    (hnew : ∀ existing ∈ sidecar.records, contentHash existing ≠ contentHash record)
    (hhead : latest contentHash (sidecar.records ++ [record]) = some head) :
    effectiveVisibilityTier contentHash put.newSidecar = head.tier := by
  rcases put_cases h with ⟨⟨existing, hmem, hsame⟩, _⟩ | ⟨_, ⟨hkept, _⟩ | ⟨hgone, hpublic⟩⟩
  · exact absurd hsame (hnew existing hmem)
  · rw [hkept, effectiveVisibilityTier]
    change (match latest contentHash (sidecar.records ++ [record]) with
      | some record => record.tier
      | none => VisibilityTier.publicTier) = _
    rw [hhead]
  · rw [hgone, hpublic head hhead]
    rfl

end

end Put

section Link
variable {contentHash : StateVisibility T → ContentHash} {record linked : StateVisibility T}
  {kind : VisibilityCommitKind} {declaredAt : T} {signature : StateSignature} {audited : Bool}
  {sidecar : Sidecar T} {superseded : Option ContentHash}

theorem linked_eq
    (h : linkStateVisibility contentHash record kind declaredAt signature sidecar = .ok (some (linked, superseded))) :
    linked.tier = record.tier ∧
      linked.supersedes = (latest contentHash sidecar.records).map contentHash := by
  unfold linkStateVisibility at h
  dsimp only at h
  split at h
  · obtain ⟨rfl, _⟩ := Prod.mk.inj (Option.some.inj (Except.ok.inj h))
    exact ⟨rfl, rfl⟩
  · split at h
    · cases h
    · split at h
      · obtain ⟨rfl, _⟩ := Prod.mk.inj (Option.some.inj (Except.ok.inj h))
        exact ⟨rfl, rfl⟩
      · cases h

theorem commit_eq_some
    (h : commitStateVisibility contentHash record kind declaredAt signature audited sidecar = .ok (some outcome)) :
    ∃ linked superseded, linkStateVisibility contentHash record kind declaredAt signature sidecar =
        .ok (some (linked, superseded)) ∧
      putStateVisibilityLocked contentHash linked sidecar = .ok outcome.put := by
  obtain ⟨link, hlink, hrest⟩ := bind_eq_ok.1 h
  cases link with
  | none => cases hrest
  | some pair =>
    obtain ⟨linked, superseded⟩ := pair
    obtain ⟨put, hput, hrest⟩ := bind_eq_ok.1 hrest
    refine ⟨linked, superseded, hlink, ?_⟩
    split at hrest
    · obtain rfl := Option.some.inj (Except.ok.inj hrest)
      exact hput
    · cases hrest

/-- Of the heads that the record does not supersede, those with a greater hash than its own are under
one that has its tier. -/
def Unrivalled (contentHash : StateVisibility T → ContentHash) (records : List (StateVisibility T))
    (record : StateVisibility T) : Prop :=
  ∀ other, IsHead contentHash StateVisibility.supersedes records other →
    record.supersedes ≠ some (contentHash other) → contentHash record < contentHash other →
    ∃ best, IsHead contentHash StateVisibility.supersedes records best ∧
      record.supersedes ≠ some (contentHash best) ∧ contentHash other ≤ contentHash best ∧
      best.tier = record.tier

section
variable (hchained : Chained contentHash StateVisibility.supersedes records)
  (hdistinct : ∀ r ∈ linked :: records, ∀ s ∈ linked :: records, contentHash r = contentHash s → r = s)
  (hlinked : linked.supersedes = (latest contentHash records).map contentHash)
include hchained hdistinct hlinked

theorem linked_isHead :
    (∀ existing ∈ records, contentHash existing ≠ contentHash linked) ∧
      IsHead contentHash StateVisibility.supersedes (records ++ [linked]) linked := by
  have hnew : ∀ existing ∈ records, contentHash existing ≠ contentHash linked := by
    intro existing hmem hsame
    obtain rfl := hdistinct _ (.tail _ hmem) _ List.mem_cons_self hsame
    obtain ⟨head, hhead⟩ := hchained.exists_isHead
      (fun r hr s hs => hdistinct r (.tail _ hr) s (.tail _ hs)) (List.ne_nil_of_mem hmem)
    obtain ⟨head, hhead⟩ := exists_headOf hhead
    change latest contentHash records = some head at hhead
    rw [hhead] at hlinked
    exact (headOf_isGreatestHead hhead).last existing hmem hlinked
  refine ⟨hnew, (hchained.snoc fun k hk => ?_).isHead_last hnew⟩
  rw [hlinked] at hk
  obtain ⟨head, hhead, hkey⟩ := Option.map_eq_some_iff.1 hk
  exact ⟨head, (headOf_isGreatestHead hhead).mem, hkey⟩

theorem latest_linked (hunrivalled : Unrivalled contentHash records linked) :
    ∃ head, latest contentHash (records ++ [linked]) = some head ∧ head.tier = linked.tier := by
  obtain ⟨_, hself⟩ := linked_isHead hchained hdistinct hlinked
  obtain ⟨head, hhead⟩ := exists_headOf hself
  refine ⟨head, hhead, ?_⟩
  have hgreatest := headOf_isGreatestHead hhead
  rcases List.mem_append.1 hgreatest.mem with hmem | hmem
  · have hold : IsHead contentHash StateVisibility.supersedes records head :=
      ⟨hmem, fun b hb => hgreatest.last b (List.mem_append_left _ hb)⟩
    have hfree := hgreatest.last linked hself.mem
    rcases (hgreatest.greatest linked hself).eq_or_lt with heq | hlt
    · exact congrArg StateVisibility.tier (hdistinct head (.tail _ hmem) linked List.mem_cons_self heq.symm)
    · obtain ⟨best, hbest, hbestFree, hle, htier⟩ := hunrivalled head hold hfree hlt
      have hbest' : IsHead contentHash StateVisibility.supersedes (records ++ [linked]) best := by
        refine ⟨List.mem_append_left _ hbest.mem, fun b hb => ?_⟩
        rcases List.mem_append.1 hb with hb | hb
        · exact hbest.last b hb
        · exact List.mem_singleton.1 hb ▸ hbestFree
      have heq := le_antisymm hle (hgreatest.greatest best hbest')
      rw [hdistinct head (.tail _ hmem) best (.tail _ hbest.mem) heq, htier]
  · rw [List.mem_singleton.1 hmem]

end

end Link

end Heddle
