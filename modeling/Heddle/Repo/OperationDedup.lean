import Heddle.Lib.Table
import Heddle.Object.PartialTree
import Heddle.Oplog.Record
import Heddle.Lib.MsgPack

namespace Heddle
open Heddle.Lib Heddle.Oplog

def Oplog.OperationId.toText (id : OperationId) : String :=
  let hex (bytes : Bytes) := bytes.flatMap fun b => [hexDigit (b.toNat / 16), hexDigit (b.toNat % 16)]
  let bytes := id.uuid.toList
  String.ofList (hex (bytes.take 4) ++ '-' :: hex ((bytes.drop 4).take 2) ++ '-' ::
    hex ((bytes.drop 6).take 2) ++ '-' :: hex ((bytes.drop 8).take 2) ++ '-' :: hex (bytes.drop 10))

inductive DedupOutcome where
  | reserved
  | replay (response : Bytes)
  | inFlight
  | conflict
  deriving DecidableEq

structure Receipt where
  recordId : Option ContentHash
  verb : String
  requestHash : Vector UInt8 32
  response : Bytes
  createdAt : Int
  pending : Bool
  checked : pending = true → response = []
  deriving DecidableEq

abbrev ReceiptKey := String × OperationId

abbrev Receipts := Table ReceiptKey Receipt

def databaseError (error : String) : HeddleError :=
  .invalidObject ("operation receipt database: " ++ error)

def compactionBatch : Nat := 256

def defaultRetentionSecs : Int := 7 * 24 * 60 * 60

def saturatingSub (a b : Int) : Int := max (-2 ^ 63) (min (2 ^ 63 - 1) (a - b))

def deleteWhere (condition : ReceiptKey → Receipt → Bool) (receipts : Receipts) :
    Receipts × List (ReceiptKey × Receipt) :=
  (receipts.retain fun key receipt => !condition key receipt,
    receipts.entries.filter fun entry => condition entry.1 entry.2)

def Receipt.expired (cutoff : Int) (receipt : Receipt) : Bool :=
  !receipt.pending && receipt.createdAt < cutoff

def pruneOrder (a b : ReceiptKey × Receipt) : Bool :=
  a.2.createdAt < b.2.createdAt ||
    a.2.createdAt = b.2.createdAt && a.1.2.toText ≤ b.1.2.toText

def pruneBatch (cutoff : Int) (receipts : Receipts) : List (ReceiptKey × Receipt) :=
  ((receipts.entries.filter fun entry => entry.2.expired cutoff).mergeSort pruneOrder).take
    compactionBatch

def prune (cutoff : Int) (receipts : Receipts) : Receipts × List (ReceiptKey × Receipt) :=
  deleteWhere (fun key _ => key ∈ (pruneBatch cutoff receipts).map Prod.fst) receipts

def insertReceipt (key : ReceiptKey) (receipt : Receipt) (receipts : Receipts) :
    Except HeddleError Receipts :=
  if receipt.recordId.isSome && receipts.entries.any fun entry => entry.2.recordId = receipt.recordId then
    .error (databaseError "UNIQUE constraint failed: operation_receipts.record_id")
  else
    .ok (receipts.insert key receipt)

/-- A transaction that can commit: the table behind it, the rows it deletes, what it answers, and
whether it leaves a mark for the observers. -/
structure DedupTransaction (α : Type) where
  receipts : Receipts
  deleted : List (ReceiptKey × Receipt)
  answer : α
  notifies : Bool

/-- What a reservation answers when the key has a row. -/
def Receipt.answerFor (prior : Receipt) (verb : String) (requestHash : Vector UInt8 32) : DedupOutcome :=
  if prior.verb ≠ verb || prior.requestHash ≠ requestHash then .conflict
  else if prior.pending then .inFlight
  else .replay prior.response

/-- A handle; the namespace of the local command line is empty. -/
structure OperationDedupStore where
  namespaceName : String
  deriving DecidableEq

namespace OperationDedupStore
variable (blake3DeriveKey : Bytes → Bytes → ContentHash)

def receiptRecordKey (namespaceName : String) (id : OperationId) : ContentHash :=
  blake3DeriveKey (utf8 "heddle-device-operation-record-v2")
    (MsgPack.beBytes 8 (utf8 namespaceName).length ++ utf8 namespaceName ++ id.uuid.toList)

def recordKey (store : OperationDedupStore) (id : OperationId) : Option ContentHash :=
  if store.namespaceName = "" then none
  else some (receiptRecordKey blake3DeriveKey store.namespaceName id)

/-- A cleanup batch, and then the expiry of the requested key itself. -/
def cleanUp (store : OperationDedupStore) (operationId : OperationId) (pruneNow expiryNow : Int)
    (receipts : Receipts) : Receipts × List (ReceiptKey × Receipt) :=
  let pruned := prune (saturatingSub pruneNow defaultRetentionSecs) receipts
  let kept := deleteWhere (fun key receipt => key = (store.namespaceName, operationId) &&
    receipt.expired (saturatingSub expiryNow defaultRetentionSecs)) pruned.1
  (kept.1, pruned.2 ++ kept.2)

/-- The clock is read for the pruning, for the expiry and for the new row. -/
def reserve (store : OperationDedupStore) (operationId : OperationId) (verb : String)
    (requestHash : Vector UInt8 32) (pruneNow expiryNow insertNow : Int) (receipts : Receipts) :
    Except HeddleError (DedupTransaction DedupOutcome) :=
  let key := (store.namespaceName, operationId)
  let kept := store.cleanUp operationId pruneNow expiryNow receipts
  match kept.1.lookup key with
  | some prior => .ok ⟨kept.1, kept.2, prior.answerFor verb requestHash, false⟩
  | none => do
    let receipts ← insertReceipt key {
      recordId := store.recordKey blake3DeriveKey operationId
      verb, requestHash
      response := []
      createdAt := insertNow
      pending := true
      checked := fun _ => rfl } kept.1
    .ok ⟨receipts, kept.2, .reserved, true⟩

def finishRecord (pruneNow : Int) (receipts : Receipts) : DedupTransaction Unit :=
  let pruned := prune (saturatingSub pruneNow defaultRetentionSecs) receipts
  ⟨pruned.1, pruned.2, (), true⟩

def record (store : OperationDedupStore) (operationId : OperationId) (verb : String)
    (requestHash : Vector UInt8 32) (response : Bytes) (writeNow pruneNow : Int) (receipts : Receipts) :
    Except HeddleError (DedupTransaction Unit) :=
  let key := (store.namespaceName, operationId)
  match receipts.lookup key with
  | some prior =>
    if prior.verb ≠ verb || prior.requestHash ≠ requestHash ||
        (!prior.pending && prior.response ≠ response) then
      .error (.conflict "operation receipt does not match reserved or completed command")
    else if !prior.pending then .ok ⟨receipts, [], (), false⟩
    else .ok (finishRecord pruneNow (receipts.insert key { prior with
      response, pending := false, createdAt := writeNow, checked := nofun }))
  | none => do
    let receipts ← insertReceipt key {
      recordId := store.recordKey blake3DeriveKey operationId
      verb, requestHash, response
      createdAt := writeNow
      pending := false
      checked := nofun } receipts
    .ok (finishRecord pruneNow receipts)

def cancel (store : OperationDedupStore) (operationId : OperationId) (verb : String)
    (receipts : Receipts) : DedupTransaction Unit :=
  let left := deleteWhere (fun key receipt =>
    key = (store.namespaceName, operationId) && receipt.verb = verb && receipt.pending) receipts
  ⟨left.1, left.2, (), 0 < left.2.length⟩

def compact (retentionSecs now : Int) (receipts : Receipts) : DedupTransaction Nat :=
  let pruned := prune (saturatingSub now retentionSecs) receipts
  ⟨pruned.1, pruned.2, pruned.2.length, 0 < pruned.2.length⟩

end OperationDedupStore

inductive DedupCall where
  | reserve (operationId : OperationId) (verb : String) (requestHash : Vector UInt8 32)
      (pruneNow expiryNow insertNow : Int)
  | record (operationId : OperationId) (verb : String) (requestHash : Vector UInt8 32)
      (response : Bytes) (writeNow pruneNow : Int)
  | cancel (operationId : OperationId) (verb : String)
  | compact (retentionSecs now : Int)
  deriving DecidableEq

inductive DedupReply where
  | outcome (outcome : DedupOutcome)
  | recorded
  | cancelled
  | compacted (count : Nat)
  deriving DecidableEq

/-- A transaction that fails leaves nothing behind; one that commits can fail to leave its mark. -/
inductive Execution where
  | rolledBack (error : String)
  | committed (notified : Except HeddleError Unit)

structure DedupEvent where
  store : OperationDedupStore
  call : DedupCall
  execution : Execution

section Run
variable (blake3DeriveKey : Bytes → Bytes → ContentHash)

def DedupTransaction.map (f : α → β) (transaction : DedupTransaction α) : DedupTransaction β :=
  { transaction with answer := f transaction.answer }

def DedupEvent.transaction (event : DedupEvent) (receipts : Receipts) :
    Except HeddleError (DedupTransaction DedupReply) :=
  match event.call with
  | .reserve operationId verb requestHash pruneNow expiryNow insertNow =>
    (event.store.reserve blake3DeriveKey operationId verb requestHash pruneNow expiryNow insertNow
      receipts).map (·.map .outcome)
  | .record operationId verb requestHash response writeNow pruneNow =>
    (event.store.record blake3DeriveKey operationId verb requestHash response writeNow pruneNow
      receipts).map (·.map fun _ => .recorded)
  | .cancel operationId verb => .ok ((event.store.cancel operationId verb receipts).map fun _ => .cancelled)
  | .compact retentionSecs now =>
    .ok ((OperationDedupStore.compact retentionSecs now receipts).map .compacted)

structure DedupStep where
  receipts : Receipts
  deleted : List (ReceiptKey × Receipt)
  reply : Except HeddleError DedupReply

def DedupEvent.step (event : DedupEvent) (receipts : Receipts) : DedupStep :=
  match event.execution with
  | .rolledBack error => ⟨receipts, [], .error (databaseError error)⟩
  | .committed notified =>
    match event.transaction blake3DeriveKey receipts with
    | .error error => ⟨receipts, [], .error error⟩
    | .ok transaction => ⟨transaction.receipts, transaction.deleted,
        if transaction.notifies then notified.map fun _ => transaction.answer
        else .ok transaction.answer⟩

/-- The table behind calls through any handles, in the order of their transactions. -/
def receiptsAfter (receipts : Receipts) (events : List DedupEvent) : Receipts :=
  events.foldl (fun receipts event => (event.step blake3DeriveKey receipts).receipts) receipts

end Run

end Heddle
