import Heddle.Repo.OperationDedup

namespace Heddle
open Heddle.Lib Heddle.Oplog
open List hiding Vector

section Deleting
variable {receipts kept : Receipts} {deleted : List (ReceiptKey × Receipt)} {key : ReceiptKey}

def Untouched (deleted : List (ReceiptKey × Receipt)) (key : ReceiptKey) : Prop :=
  ∀ receipt, (key, receipt) ∉ deleted

structure Cleans (receipts kept : Receipts) (deleted : List (ReceiptKey × Receipt)) : Prop where
  lookup : ∀ key, Untouched deleted key → kept.lookup key = receipts.lookup key
  deleted : ∀ entry ∈ deleted, receipts.lookup entry.1 = some entry.2

theorem deleteWhere_cleans (condition : ReceiptKey → Receipt → Bool) (receipts : Receipts) :
    Cleans receipts (deleteWhere condition receipts).1 (deleteWhere condition receipts).2 where
  lookup key huntouched := by
    rw [deleteWhere, Table.lookup_retain]
    cases hlookup : receipts.lookup key with
    | none => rfl
    | some receipt =>
      rw [Option.filter_some, if_pos]
      rw [Bool.not_eq_true', Bool.eq_false_iff]
      intro hcondition
      exact huntouched receipt (mem_filter.2 ⟨Table.lookup_eq_some.1 hlookup, hcondition⟩)
  deleted entry hentry := Table.lookup_eq_some.2 (mem_filter.1 hentry).1

theorem prune_cleans (cutoff : Int) (receipts : Receipts) :
    Cleans receipts (prune cutoff receipts).1 (prune cutoff receipts).2 :=
  deleteWhere_cleans _ receipts

theorem untouched_append :
    Untouched (first ++ second) key ↔ Untouched first key ∧ Untouched second key := by
  simp only [Untouched, mem_append, not_or, forall_and]

theorem lookup_of_deleteWhere (h : (deleteWhere condition receipts).1.lookup key = some receipt) :
    receipts.lookup key = some receipt := by
  rw [deleteWhere, Table.lookup_retain, Option.filter_eq_some_iff] at h
  exact h.1

theorem Cleans.append (hfirst : Cleans receipts middle first)
    (hsecond : Cleans middle kept second)
    (hback : ∀ key receipt, middle.lookup key = some receipt → receipts.lookup key = some receipt) :
    Cleans receipts kept (first ++ second) where
  lookup key huntouched := by
    obtain ⟨huntouched, huntouched'⟩ := untouched_append.1 huntouched
    rw [hsecond.lookup key huntouched', hfirst.lookup key huntouched]
  deleted entry hentry := by
    rcases mem_append.1 hentry with hmem | hmem
    · exact hfirst.deleted entry hmem
    · exact hback _ _ (hsecond.deleted entry hmem)

theorem expired_of_pruned (h : entry ∈ (prune cutoff receipts).2) :
    entry.2.expired cutoff = true := by
  obtain ⟨hentry, hkey⟩ := mem_filter.1 h
  obtain ⟨entry', hbatch, hsame⟩ := mem_map.1 (of_decide_eq_true hkey)
  have hsorted := mem_mergeSort.1 (mem_of_mem_take hbatch)
  obtain ⟨hentry', hexpired⟩ := mem_filter.1 hsorted
  obtain rfl := inj_on_of_nodup_map receipts.nodup hentry' hentry hsame
  exact hexpired

end Deleting

/-- A reservation is completed at most once; a completed row stays as it is. -/
def Receipt.Continues (receipt receipt' : Receipt) : Prop :=
  receipt' = receipt ∨ receipt.pending = true ∧ receipt'.pending = false ∧
    receipt'.verb = receipt.verb ∧ receipt'.requestHash = receipt.requestHash

theorem Receipt.Continues.trans {a b c : Receipt} (hab : a.Continues b) (hbc : b.Continues c) :
    a.Continues c := by
  rcases hbc with rfl | ⟨hpending, hdone, hverb, hhash⟩
  · exact hab
  · rcases hab with rfl | ⟨_, hdone', _, _⟩
    · exact .inr ⟨hpending, hdone, hverb, hhash⟩
    · exact absurd (hpending.symm.trans hdone') (by decide)

section Calls
variable {blake3DeriveKey : Bytes → Bytes → ContentHash} {store : OperationDedupStore}
  {operationId : OperationId} {verb : String} {requestHash : Vector UInt8 32} {receipts : Receipts}

theorem insertReceipt_eq_ok (h : insertReceipt key receipt receipts = .ok inserted) :
    inserted = receipts.insert key receipt := by
  rw [insertReceipt] at h
  split at h
  · cases h
  · exact (Except.ok.inj h).symm

theorem OperationDedupStore.cleanUp_cleans (store : OperationDedupStore) (operationId : OperationId)
    (pruneNow expiryNow : Int) (receipts : Receipts) :
    Cleans receipts (store.cleanUp operationId pruneNow expiryNow receipts).1
      (store.cleanUp operationId pruneNow expiryNow receipts).2 := by
  dsimp only [cleanUp]
  exact (prune_cleans _ receipts).append (deleteWhere_cleans _ _) fun _ _ => lookup_of_deleteWhere

theorem reserve_cases
    (h : store.reserve blake3DeriveKey operationId verb requestHash pruneNow expiryNow insertNow receipts =
      .ok transaction) :
    transaction.deleted = (store.cleanUp operationId pruneNow expiryNow receipts).2 ∧
      ∃ kept, kept = (store.cleanUp operationId pruneNow expiryNow receipts).1 ∧
        ((∃ prior, kept.lookup (store.namespaceName, operationId) = some prior ∧
            transaction.receipts = kept ∧ transaction.answer = prior.answerFor verb requestHash ∧
            transaction.notifies = false) ∨
          kept.lookup (store.namespaceName, operationId) = none ∧ transaction.answer = .reserved ∧
            ∃ receipt : Receipt, receipt.pending = true ∧
              transaction.receipts = kept.insert (store.namespaceName, operationId) receipt) := by
  unfold OperationDedupStore.reserve at h
  dsimp only at h
  split at h
  · rename_i prior hprior
    obtain rfl := Except.ok.inj h
    exact ⟨rfl, _, rfl, .inl ⟨prior, hprior, rfl, rfl, rfl⟩⟩
  · rename_i hnone
    obtain ⟨inserted, hinserted, hok⟩ := bind_eq_ok.1 h
    obtain rfl := Except.ok.inj hok
    exact ⟨rfl, _, rfl, .inr ⟨hnone, rfl, _, rfl, insertReceipt_eq_ok hinserted⟩⟩

theorem record_cases
    (h : store.record blake3DeriveKey operationId verb requestHash response writeNow pruneNow receipts =
      .ok transaction) :
    (∃ prior, receipts.lookup (store.namespaceName, operationId) = some prior ∧ prior.pending = false ∧
        prior.verb = verb ∧ prior.requestHash = requestHash ∧ prior.response = response ∧
        transaction.receipts = receipts ∧ transaction.deleted = []) ∨
      ∃ receipt : Receipt, receipt.pending = false ∧ receipt.verb = verb ∧
        receipt.requestHash = requestHash ∧ receipt.response = response ∧
        (∀ prior, receipts.lookup (store.namespaceName, operationId) = some prior →
          prior.pending = true ∧ prior.verb = verb ∧ prior.requestHash = requestHash) ∧
        transaction = OperationDedupStore.finishRecord pruneNow (receipts.insert (store.namespaceName, operationId) receipt) := by
  unfold OperationDedupStore.record at h
  dsimp only at h
  split at h
  · rename_i prior hprior
    split at h
    · cases h
    · rename_i hmatches
      simp only [Bool.or_eq_true, Bool.and_eq_true, Bool.not_eq_true', decide_eq_true_eq, not_or,
        not_and, not_not] at hmatches
      obtain ⟨⟨hverb, hhash⟩, hresponse⟩ := hmatches
      split at h
      · rename_i hdone
        rw [Bool.not_eq_true'] at hdone
        obtain rfl := Except.ok.inj h
        exact .inl ⟨prior, hprior, hdone, hverb, hhash, hresponse hdone, rfl, rfl⟩
      · rename_i hpending
        rw [Bool.not_eq_true', Bool.not_eq_false] at hpending
        obtain rfl := Except.ok.inj h
        refine .inr ⟨{ prior with
          response, pending := false, createdAt := writeNow, checked := fun h => by cases h },
          rfl, hverb, hhash, rfl, ?_, rfl⟩
        intro prior' hprior'
        obtain rfl := Option.some.inj (hprior.symm.trans hprior')
        exact ⟨hpending, hverb, hhash⟩
  · rename_i hnone
    obtain ⟨inserted, hinserted, hok⟩ := bind_eq_ok.1 h
    obtain rfl := Except.ok.inj hok
    obtain rfl := insertReceipt_eq_ok hinserted
    refine .inr ⟨_, rfl, rfl, rfl, rfl, ?_, rfl⟩
    intro prior hprior
    cases hnone.symm.trans hprior

end Calls

def DedupEvent.key (event : DedupEvent) : Option ReceiptKey :=
  match event.call with
  | .reserve operationId .. => some (event.store.namespaceName, operationId)
  | .record operationId .. => some (event.store.namespaceName, operationId)
  | .cancel operationId _ => some (event.store.namespaceName, operationId)
  | .compact .. => none

/-- The times before which a call takes completed rows for expired. -/
def DedupCall.cutoffs : DedupCall → List Int
  | .reserve _ _ _ pruneNow expiryNow _ =>
    [saturatingSub pruneNow defaultRetentionSecs, saturatingSub expiryNow defaultRetentionSecs]
  | .record _ _ _ _ _ pruneNow => [saturatingSub pruneNow defaultRetentionSecs]
  | .cancel _ _ => []
  | .compact retentionSecs now => [saturatingSub now retentionSecs]

section Events
variable {blake3DeriveKey : Bytes → Bytes → ContentHash} {event : DedupEvent} {receipts : Receipts}
  {key : ReceiptKey} {receipt : Receipt}

def DedupEvent.Grants (blake3DeriveKey : Bytes → Bytes → ContentHash) (receipts : Receipts)
    (event : DedupEvent) (key : ReceiptKey) : Prop :=
  event.key = some key ∧ (event.step blake3DeriveKey receipts).reply = .ok (.outcome .reserved)

def DedupEvent.Commits (blake3DeriveKey : Bytes → Bytes → ContentHash) (receipts : Receipts)
    (event : DedupEvent) : Prop :=
  ∃ notified transaction, event.execution = .committed notified ∧
    event.transaction blake3DeriveKey receipts = .ok transaction

def DedupEvent.Requests (event : DedupEvent) (key : ReceiptKey) (verb : String)
    (requestHash : Vector UInt8 32) : Prop :=
  ∃ operationId pruneNow expiryNow insertNow, key = (event.store.namespaceName, operationId) ∧
    event.call = .reserve operationId verb requestHash pruneNow expiryNow insertNow

def DedupEvent.RecordsFirst (blake3DeriveKey : Bytes → Bytes → ContentHash) (receipts : Receipts)
    (event : DedupEvent) (key : ReceiptKey) (verb : String) (requestHash : Vector UInt8 32)
    (response : Bytes) : Prop :=
  event.Commits blake3DeriveKey receipts ∧
    (∃ operationId writeNow pruneNow, key = (event.store.namespaceName, operationId) ∧
      event.call = .record operationId verb requestHash response writeNow pruneNow) ∧
    ∀ prior, receipts.lookup key = some prior → prior.pending = true

def DedupEvent.Cancels (event : DedupEvent) (key : ReceiptKey) (receipt : Receipt) : Prop :=
  event.key = some key ∧ (∃ operationId, event.call = .cancel operationId receipt.verb) ∧
    receipt.pending = true

def DedupEvent.Expires (event : DedupEvent) (receipt : Receipt) : Prop :=
  receipt.pending = false ∧ ∃ cutoff ∈ event.call.cutoffs, receipt.createdAt < cutoff

theorem Receipt.Continues.refl (receipt : Receipt) : receipt.Continues receipt := .inl rfl

theorem expires_of_expired (hcutoff : cutoff ∈ event.call.cutoffs)
    (h : receipt.expired cutoff = true) : event.Expires receipt := by
  rw [Receipt.expired, Bool.and_eq_true, Bool.not_eq_true', decide_eq_true_eq] at h
  exact ⟨h.1, cutoff, hcutoff, h.2⟩

theorem expires_of_cleanUp
    (hcall : event.call = .reserve operationId verb requestHash pruneNow expiryNow insertNow)
    (hmem : (key, receipt) ∈ (event.store.cleanUp operationId pruneNow expiryNow receipts).2) :
    event.Expires receipt := by
  rcases mem_append.1 hmem with hpruned | hexpired
  · refine expires_of_expired ?_ (expired_of_pruned hpruned)
    rw [hcall]
    exact mem_cons_self
  · have hcondition := (mem_filter.1 hexpired).2
    rw [Bool.and_eq_true] at hcondition
    refine expires_of_expired ?_ hcondition.2
    rw [hcall]
    exact .tail _ mem_cons_self

theorem cancel_cleans (store : OperationDedupStore) (operationId : OperationId) (verb : String)
    (receipts : Receipts) : Cleans receipts (store.cancel operationId verb receipts).receipts
      (store.cancel operationId verb receipts).deleted := by
  dsimp only [OperationDedupStore.cancel]
  exact deleteWhere_cleans _ receipts

theorem compact_cleans (retentionSecs now : Int) (receipts : Receipts) :
    Cleans receipts (OperationDedupStore.compact retentionSecs now receipts).receipts
      (OperationDedupStore.compact retentionSecs now receipts).deleted :=
  prune_cleans _ receipts

section
variable (h : event.transaction blake3DeriveKey receipts = .ok transaction)
include h

theorem transaction_lookup (huntouched : Untouched transaction.deleted key)
    (hlookup : receipts.lookup key = some receipt) :
    ∃ receipt', transaction.receipts.lookup key = some receipt' ∧ receipt.Continues receipt' := by
  unfold DedupEvent.transaction at h
  split at h
  · obtain ⟨reserved, hreserved, rfl⟩ := map_eq_ok_iff.1 h
    obtain ⟨hdeleted, kept, rfl, hrow⟩ := reserve_cases hreserved
    have hcleans := event.store.cleanUp_cleans
    have hkept := ((hcleans _ _ _ _).lookup key (hdeleted ▸ huntouched)).trans hlookup
    rcases hrow with ⟨_, _, hreceipts, _⟩ | ⟨hnone, _, inserted, _, hreceipts⟩
    · exact ⟨receipt, hreceipts ▸ hkept, .refl receipt⟩
    · refine ⟨receipt, ?_, .refl receipt⟩
      have hne : key ≠ _ := fun heq => by
        rw [heq, hnone] at hkept
        cases hkept
      change reserved.receipts.lookup key = some receipt
      rw [hreceipts, Table.lookup_insert_ne hne, hkept]
  · obtain ⟨recorded, hrecorded, rfl⟩ := map_eq_ok_iff.1 h
    rcases record_cases hrecorded with ⟨_, _, _, _, _, _, hreceipts, _⟩ |
      ⟨inserted, hdone, hverb, hhash, _, hprior, rfl⟩
    · exact ⟨receipt, hreceipts ▸ hlookup, .refl receipt⟩
    · have hkept := (prune_cleans _ _).lookup key huntouched
      rw [Table.lookup_insert] at hkept
      split at hkept
      · rename_i hkey
        obtain ⟨hpending, hverb', hhash'⟩ := hprior receipt (hkey ▸ hlookup)
        exact ⟨inserted, hkept, .inr ⟨hpending, hdone, hverb.trans hverb'.symm, hhash.trans hhash'.symm⟩⟩
      · exact ⟨receipt, hkept.trans hlookup, .refl receipt⟩
  · obtain rfl := Except.ok.inj h
    exact ⟨receipt, ((cancel_cleans _ _ _ _).lookup key huntouched).trans hlookup, .refl receipt⟩
  · obtain rfl := Except.ok.inj h
    exact ⟨receipt, ((compact_cleans _ _ _).lookup key huntouched).trans hlookup, .refl receipt⟩

theorem transaction_deleted (hmem : (key, receipt) ∈ transaction.deleted) :
    event.Cancels key receipt ∨ event.Expires receipt := by
  unfold DedupEvent.transaction at h
  split at h
  · rename_i hcall
    obtain ⟨reserved, hreserved, rfl⟩ := map_eq_ok_iff.1 h
    change _ ∈ reserved.deleted at hmem
    rw [(reserve_cases hreserved).1] at hmem
    exact .inr (expires_of_cleanUp hcall hmem)
  · rename_i hcall
    obtain ⟨recorded, hrecorded, rfl⟩ := map_eq_ok_iff.1 h
    change _ ∈ recorded.deleted at hmem
    rcases record_cases hrecorded with ⟨_, _, _, _, _, _, _, hdeleted⟩ | ⟨_, _, _, _, _, _, rfl⟩
    · rw [hdeleted] at hmem
      cases hmem
    · refine .inr (expires_of_expired ?_ (expired_of_pruned hmem))
      rw [hcall]
      exact mem_cons_self
  · rename_i operationId verb hcall
    obtain rfl := Except.ok.inj h
    have hcondition := (mem_filter.1 hmem).2
    simp only [Bool.and_eq_true, decide_eq_true_eq] at hcondition
    obtain ⟨⟨rfl, rfl⟩, hpending⟩ := hcondition
    refine .inl ⟨?_, ⟨operationId, hcall⟩, hpending⟩
    rw [DedupEvent.key, hcall]
  · rename_i hcall
    obtain rfl := Except.ok.inj h
    refine .inr (expires_of_expired ?_ (expired_of_pruned hmem))
    rw [hcall]
    exact mem_cons_self

end

theorem step_cases (blake3DeriveKey : Bytes → Bytes → ContentHash) (event : DedupEvent)
    (receipts : Receipts) :
    (¬ event.Commits blake3DeriveKey receipts ∧
        ∃ error, event.step blake3DeriveKey receipts = ⟨receipts, [], .error error⟩) ∨
      ∃ notified transaction, event.execution = .committed notified ∧
        event.transaction blake3DeriveKey receipts = .ok transaction ∧
        event.step blake3DeriveKey receipts = ⟨transaction.receipts, transaction.deleted,
          if transaction.notifies then notified.map fun _ => transaction.answer
          else .ok transaction.answer⟩ := by
  unfold DedupEvent.step DedupEvent.Commits
  cases event.execution with
  | rolledBack error =>
    refine .inl ⟨?_, _, rfl⟩
    rintro ⟨_, _, hexecution, _⟩
    cases hexecution
  | committed notified =>
    cases htransaction : event.transaction blake3DeriveKey receipts with
    | error error =>
      refine .inl ⟨?_, error, rfl⟩
      rintro ⟨_, _, _, hok⟩
      cases hok
    | ok transaction => exact .inr ⟨notified, transaction, rfl, rfl, rfl⟩

theorem step_lookup (huntouched : Untouched (event.step blake3DeriveKey receipts).deleted key)
    (hlookup : receipts.lookup key = some receipt) :
    ∃ receipt', (event.step blake3DeriveKey receipts).receipts.lookup key = some receipt' ∧
      receipt.Continues receipt' := by
  rcases step_cases blake3DeriveKey event receipts with
    ⟨_, error, hstep⟩ | ⟨_, _, _, htransaction, hstep⟩
  · rw [hstep]
    exact ⟨receipt, hlookup, .refl receipt⟩
  · rw [hstep] at huntouched ⊢
    exact transaction_lookup htransaction huntouched hlookup

theorem step_deleted (h : (key, receipt) ∈ (event.step blake3DeriveKey receipts).deleted) :
    event.Cancels key receipt ∨ event.Expires receipt := by
  rcases step_cases blake3DeriveKey event receipts with
    ⟨_, error, hstep⟩ | ⟨_, _, _, htransaction, hstep⟩
  · rw [hstep] at h
    cases h
  · rw [hstep] at h
    exact transaction_deleted htransaction h

theorem answerFor_ne_reserved (prior : Receipt) (verb : String) (requestHash : Vector UInt8 32) :
    prior.answerFor verb requestHash ≠ .reserved := by
  unfold Receipt.answerFor
  split
  · nofun
  · split <;> nofun

theorem grants_cases (h : event.Grants blake3DeriveKey receipts key) :
    (Untouched (event.step blake3DeriveKey receipts).deleted key → receipts.lookup key = none) ∧
      ∃ receipt, (event.step blake3DeriveKey receipts).receipts.lookup key = some receipt := by
  obtain ⟨hkey, hreply⟩ := h
  rcases step_cases blake3DeriveKey event receipts with
    ⟨hfails, error, hstep⟩ | ⟨notified, transaction, _, htransaction, hstep⟩
  · rw [hstep] at hreply
    cases hreply
  · rw [hstep] at hreply ⊢
    have hanswer : transaction.answer = .outcome .reserved := by
      dsimp only at hreply
      split at hreply
      · obtain ⟨_, _, hanswer⟩ := map_eq_ok_iff.1 hreply
        exact hanswer
      · exact Except.ok.inj hreply
    unfold DedupEvent.transaction at htransaction
    split at htransaction
    · rename_i hcall
      obtain ⟨reserved, hreserved, rfl⟩ := map_eq_ok_iff.1 htransaction
      rw [DedupEvent.key, hcall] at hkey
      obtain rfl := Option.some.inj hkey
      obtain ⟨hdeleted, kept, rfl, hrow⟩ := reserve_cases hreserved
      rcases hrow with ⟨prior, _, _, hprior, _⟩ | ⟨hnone, _, inserted, _, hreceipts⟩
      · have hconflict := hprior.symm.trans (DedupReply.outcome.inj hanswer)
        exact absurd hconflict (answerFor_ne_reserved _ _ _)
      · refine ⟨fun huntouched => ?_, inserted, ?_⟩
        · rw [← hnone]
          exact ((event.store.cleanUp_cleans _ _ _ _).lookup _ (hdeleted ▸ huntouched)).symm
        · change reserved.receipts.lookup _ = _
          rw [hreceipts, Table.lookup_insert_self]
    · obtain ⟨_, _, rfl⟩ := map_eq_ok_iff.1 htransaction
      cases hanswer
    · obtain rfl := Except.ok.inj htransaction
      cases hanswer
    · obtain rfl := Except.ok.inj htransaction
      cases hanswer

theorem requests_lookup (h : event.Requests key verb requestHash)
    (huntouched : Untouched (event.step blake3DeriveKey receipts).deleted key)
    (hlookup : receipts.lookup key = some receipt) :
    (event.step blake3DeriveKey receipts).receipts.lookup key = some receipt ∧
      (event.Commits blake3DeriveKey receipts →
        (event.step blake3DeriveKey receipts).reply = .ok (.outcome (receipt.answerFor verb requestHash))) := by
  obtain ⟨operationId, pruneNow, expiryNow, insertNow, rfl, hcall⟩ := h
  rcases step_cases blake3DeriveKey event receipts with
    ⟨hfails, error, hstep⟩ | ⟨notified, transaction, _, htransaction, hstep⟩
  · rw [hstep]
    exact ⟨hlookup, fun hcommits => absurd hcommits hfails⟩
  · rw [hstep] at huntouched ⊢
    unfold DedupEvent.transaction at htransaction
    rw [hcall] at htransaction
    obtain ⟨reserved, hreserved, rfl⟩ := map_eq_ok_iff.1 htransaction
    obtain ⟨hdeleted, kept, rfl, hrow⟩ := reserve_cases hreserved
    have hkept := ((event.store.cleanUp_cleans _ _ _ _).lookup _ (hdeleted ▸ huntouched)).trans hlookup
    rcases hrow with ⟨prior, hprior, hreceipts, hanswer, hnotifies⟩ | ⟨hnone, _⟩
    · obtain rfl := Option.some.inj (hkept.symm.trans hprior)
      refine ⟨hreceipts ▸ hkept, fun _ => ?_⟩
      change (if reserved.notifies then _ else Except.ok (DedupReply.outcome reserved.answer)) = _
      rw [hnotifies, hanswer]
      rfl
    · cases hnone.symm.trans hkept

theorem requests_commits (h : event.Requests key verb requestHash)
    (hexecution : event.execution = .committed notified)
    (hlookup : receipts.lookup key = some receipt) (hfresh : ¬ event.Expires receipt) :
    event.Commits blake3DeriveKey receipts ∧
      Untouched (event.step blake3DeriveKey receipts).deleted key := by
  obtain ⟨operationId, pruneNow, expiryNow, insertNow, rfl, hcall⟩ := h
  have hcleans := event.store.cleanUp_cleans operationId pruneNow expiryNow receipts
  have huntouched : Untouched (event.store.cleanUp operationId pruneNow expiryNow receipts).2
      (event.store.namespaceName, operationId) := by
    intro receipt' hmem
    obtain rfl := Option.some.inj (hlookup.symm.trans (hcleans.deleted _ hmem))
    exact hfresh (expires_of_cleanUp hcall hmem)
  have hreserve : event.store.reserve blake3DeriveKey operationId verb requestHash pruneNow expiryNow
      insertNow receipts = .ok ⟨(event.store.cleanUp operationId pruneNow expiryNow receipts).1,
        (event.store.cleanUp operationId pruneNow expiryNow receipts).2,
        receipt.answerFor verb requestHash, false⟩ := by
    unfold OperationDedupStore.reserve
    simp only [(hcleans.lookup _ huntouched).trans hlookup]
  obtain ⟨transaction, htransaction, hdeleted⟩ :
      ∃ transaction, event.transaction blake3DeriveKey receipts = .ok transaction ∧
        transaction.deleted = (event.store.cleanUp operationId pruneNow expiryNow receipts).2 := by
    unfold DedupEvent.transaction
    rw [hcall]
    exact ⟨_, map_eq_ok_iff.2 ⟨_, hreserve, rfl⟩, rfl⟩
  refine ⟨⟨notified, transaction, hexecution, htransaction⟩, ?_⟩
  unfold DedupEvent.step
  simp only [hexecution, htransaction, hdeleted]
  exact huntouched

/-- The response that is stored first is there, unless it is expired at once. -/
theorem recordsFirst_lookup
    (h : event.RecordsFirst blake3DeriveKey receipts key verb requestHash response)
    (huntouched : Untouched (event.step blake3DeriveKey receipts).deleted key) :
    ∃ receipt, (event.step blake3DeriveKey receipts).receipts.lookup key = some receipt ∧
      receipt.pending = false ∧ receipt.verb = verb ∧ receipt.requestHash = requestHash ∧
      receipt.response = response := by
  obtain ⟨hcommits, ⟨operationId, writeNow, pruneNow, rfl, hcall⟩, hfirst⟩ := h
  rcases step_cases blake3DeriveKey event receipts with
    ⟨hfails, _⟩ | ⟨notified, transaction, _, htransaction, hstep⟩
  · exact absurd hcommits hfails
  · rw [hstep] at huntouched ⊢
    unfold DedupEvent.transaction at htransaction
    rw [hcall] at htransaction
    obtain ⟨recorded, hrecorded, rfl⟩ := map_eq_ok_iff.1 htransaction
    rcases record_cases hrecorded with ⟨prior, hprior, hdone, _⟩ |
      ⟨inserted, hdone, hverb, hhash, hresponse, _, rfl⟩
    · exact absurd ((hfirst prior hprior).symm.trans hdone) (by decide)
    · refine ⟨inserted, ?_, hdone, hverb, hhash, hresponse⟩
      exact ((prune_cleans _ _).lookup _ huntouched).trans (Table.lookup_insert_self _ _ _)

end Events

section Runs
variable {blake3DeriveKey : Bytes → Bytes → ContentHash} {receipts : Receipts} {key : ReceiptKey}
  {receipt : Receipt}

def Deletes (blake3DeriveKey : Bytes → Bytes → ContentHash) (receipts : Receipts)
    (events : List DedupEvent) (key : ReceiptKey) : Prop :=
  ∃ front event rest receipt, events = front ++ event :: rest ∧
    (key, receipt) ∈ (event.step blake3DeriveKey (receiptsAfter blake3DeriveKey receipts front)).deleted

theorem receiptsAfter_append (first second : List DedupEvent) :
    receiptsAfter blake3DeriveKey receipts (first ++ second) =
      receiptsAfter blake3DeriveKey (receiptsAfter blake3DeriveKey receipts first) second :=
  foldl_append

theorem not_deletes_cons (h : ¬ Deletes blake3DeriveKey receipts (event :: events) key) :
    Untouched (event.step blake3DeriveKey receipts).deleted key ∧
      ¬ Deletes blake3DeriveKey (event.step blake3DeriveKey receipts).receipts events key := by
  constructor
  · intro receipt hmem
    exact h ⟨[], event, events, receipt, rfl, hmem⟩
  · rintro ⟨front, event', rest, receipt, rfl, hmem⟩
    exact h ⟨event :: front, event', rest, receipt, rfl, hmem⟩

theorem not_deletes_append (h : ¬ Deletes blake3DeriveKey receipts (first ++ second) key) :
    ¬ Deletes blake3DeriveKey receipts first key ∧
      ¬ Deletes blake3DeriveKey (receiptsAfter blake3DeriveKey receipts first) second key := by
  constructor
  · rintro ⟨front, event, rest, receipt, rfl, hmem⟩
    refine h ⟨front, event, rest ++ second, receipt, ?_, hmem⟩
    rw [append_assoc, cons_append]
  · rintro ⟨front, event, rest, receipt, rfl, hmem⟩
    refine h ⟨first ++ front, event, rest, receipt, ?_, ?_⟩
    · rw [append_assoc]
    · rw [receiptsAfter_append]
      exact hmem

theorem receiptsAfter_lookup (h : ¬ Deletes blake3DeriveKey receipts events key)
    (hlookup : receipts.lookup key = some receipt) :
    ∃ receipt', (receiptsAfter blake3DeriveKey receipts events).lookup key = some receipt' ∧
      receipt.Continues receipt' := by
  induction events generalizing receipts receipt with
  | nil => exact ⟨receipt, hlookup, .refl receipt⟩
  | cons event events ih =>
    obtain ⟨huntouched, hrest⟩ := not_deletes_cons h
    obtain ⟨middle, hmiddle, hcontinues⟩ := step_lookup huntouched hlookup
    obtain ⟨last, hlast, hcontinues'⟩ := ih hrest hmiddle
    exact ⟨last, hlast, hcontinues.trans hcontinues'⟩

/-- What the store promises about the calls after `receipts`. -/
structure AtMostOnce (blake3DeriveKey : Bytes → Bytes → ContentHash) (receipts : Receipts) : Prop where
  /-- Between two grants of a key its row is deleted. -/
  granted : ∀ before (first : DedupEvent) between (second : DedupEvent) key,
    first.Grants blake3DeriveKey (receiptsAfter blake3DeriveKey receipts before) key →
    second.Grants blake3DeriveKey (receiptsAfter blake3DeriveKey receipts (before ++ first :: between)) key →
    Deletes blake3DeriveKey (receiptsAfter blake3DeriveKey receipts (before ++ [first]))
      (between ++ [second]) key
  /-- Rows are deleted by their cancellation, or when they are expired. -/
  deleted : ∀ events (event : DedupEvent) key receipt,
    (key, receipt) ∈ (event.step blake3DeriveKey (receiptsAfter blake3DeriveKey receipts events)).deleted →
      event.Cancels key receipt ∨ event.Expires receipt
  /-- While a response is retained, its request gets it. -/
  replayed : ∀ before (first : DedupEvent) between (second : DedupEvent) key verb requestHash response,
    first.RecordsFirst blake3DeriveKey (receiptsAfter blake3DeriveKey receipts before) key verb
      requestHash response →
    second.Requests key verb requestHash →
    second.Commits blake3DeriveKey (receiptsAfter blake3DeriveKey receipts (before ++ first :: between)) →
    ¬ Deletes blake3DeriveKey (receiptsAfter blake3DeriveKey receipts before)
      (first :: between ++ [second]) key →
    (second.step blake3DeriveKey (receiptsAfter blake3DeriveKey receipts
      (before ++ first :: between))).reply = .ok (.outcome (.replay response))
  /-- Another request for the key is refused, and leaves the row as it is. -/
  refused : ∀ events (event : DedupEvent) key verb requestHash prior,
    event.Requests key verb requestHash →
    (receiptsAfter blake3DeriveKey receipts events).lookup key = some prior →
    prior.verb ≠ verb ∨ prior.requestHash ≠ requestHash →
    ¬ Deletes blake3DeriveKey (receiptsAfter blake3DeriveKey receipts events) [event] key →
    ¬ event.Grants blake3DeriveKey (receiptsAfter blake3DeriveKey receipts events) key ∧
      (receiptsAfter blake3DeriveKey receipts (events ++ [event])).lookup key = some prior ∧
      (event.Commits blake3DeriveKey (receiptsAfter blake3DeriveKey receipts events) →
        (event.step blake3DeriveKey (receiptsAfter blake3DeriveKey receipts events)).reply =
          .ok (.outcome .conflict))
  /-- A request whose row is not expired goes through, and the row is retained. -/
  answered : ∀ events (event : DedupEvent) key verb requestHash prior notified,
    event.Requests key verb requestHash → event.execution = .committed notified →
    (receiptsAfter blake3DeriveKey receipts events).lookup key = some prior → ¬ event.Expires prior →
    event.Commits blake3DeriveKey (receiptsAfter blake3DeriveKey receipts events) ∧
      ¬ Deletes blake3DeriveKey (receiptsAfter blake3DeriveKey receipts events) [event] key

theorem untouched_of_not_deletes (h : ¬ Deletes blake3DeriveKey receipts [event] key) :
    Untouched (event.step blake3DeriveKey receipts).deleted key :=
  (not_deletes_cons h).1

theorem not_grants_of_lookup {event : DedupEvent}
    (huntouched : Untouched (event.step blake3DeriveKey receipts).deleted key)
    (hlookup : receipts.lookup key = some receipt) : ¬ event.Grants blake3DeriveKey receipts key := by
  intro hgrants
  cases ((grants_cases hgrants).1 huntouched).symm.trans hlookup

/-- Deduplication is at most once, whatever the order of the calls. -/
theorem atMostOnce (blake3DeriveKey : Bytes → Bytes → ContentHash) (receipts : Receipts) :
    AtMostOnce blake3DeriveKey receipts where
  granted before first between second key hfirst hsecond := by
    by_contra hretained
    obtain ⟨receipt, hlookup⟩ := (grants_cases hfirst).2
    have hafter : (receiptsAfter blake3DeriveKey receipts (before ++ [first])).lookup key = some receipt := by
      rw [receiptsAfter_append]
      exact hlookup
    obtain ⟨hbetween, hlast⟩ := not_deletes_append hretained
    obtain ⟨receipt', hlookup', _⟩ := receiptsAfter_lookup hbetween hafter
    rw [← receiptsAfter_append, append_assoc, singleton_append] at hlast hlookup'
    have hnone := (grants_cases hsecond).1 (untouched_of_not_deletes hlast)
    cases hnone.symm.trans hlookup'
  deleted _ _ _ _ := step_deleted
  replayed before first between second key verb requestHash response hfirst hsecond hcommits hretained := by
    obtain ⟨hbetween, hlast⟩ := not_deletes_append hretained
    obtain ⟨huntouched, hrest⟩ := not_deletes_cons hbetween
    obtain ⟨receipt, hlookup, hdone, hverb, hhash, hresponse⟩ := recordsFirst_lookup hfirst huntouched
    obtain ⟨receipt', hlookup', hcontinues⟩ := receiptsAfter_lookup hrest hlookup
    rcases hcontinues with rfl | ⟨hpending, _⟩
    · rw [← receiptsAfter_append] at hlast
      have hstored : (receiptsAfter blake3DeriveKey receipts (before ++ first :: between)).lookup key =
          some receipt' := by
        rw [receiptsAfter_append]
        exact hlookup'
      rw [(requests_lookup hsecond (untouched_of_not_deletes hlast) hstored).2 hcommits, Receipt.answerFor]
      simp [hverb, hhash, hdone, hresponse]
    · exact absurd (hpending.symm.trans hdone) (by decide)
  refused events event key verb requestHash prior hrequests hlookup hdiffers hretained := by
    have huntouched := untouched_of_not_deletes hretained
    obtain ⟨hkept, hanswer⟩ := requests_lookup hrequests huntouched hlookup
    refine ⟨not_grants_of_lookup huntouched hlookup, ?_, fun hcommits => ?_⟩
    · rw [receiptsAfter_append]
      exact hkept
    · have hconflict : prior.answerFor verb requestHash = .conflict := by
        rw [Receipt.answerFor, if_pos]
        simpa only [Bool.or_eq_true, decide_eq_true_eq] using hdiffers
      rw [hanswer hcommits, hconflict]
  answered events event key verb requestHash prior notified hrequests hexecution hlookup hfresh := by
    obtain ⟨hcommits, huntouched⟩ := requests_commits hrequests hexecution hlookup hfresh
    refine ⟨hcommits, ?_⟩
    rintro ⟨front, event', rest, receipt, hsplit, hmem⟩
    obtain ⟨rfl, rfl, rfl⟩ : front = [] ∧ event' = event ∧ rest = [] := by
      cases front with
      | nil =>
        obtain ⟨rfl, rfl⟩ := List.cons.inj hsplit
        exact ⟨rfl, rfl, rfl⟩
      | cons _ front =>
        have hlength := congrArg List.length hsplit
        simp only [length_append, length_cons, length_nil] at hlength
        omega
    exact huntouched receipt hmem

end Runs

end Heddle
