import Heddle.Replication.Database

namespace Heddle.Replication
open Heddle.Lib Heddle.Oplog

namespace Database
variable {V : Type} (thread : ContentHash) (facet : ThreadFacet) (db : Database V)

def hasAcceptedChild (id : ContentHash) (row : OperationRow V) : Bool :=
  ∃ edge ∈ db.parents, edge.2 = id ∧ ∃ child ∈ db.operations.get edge.1,
    child.thread = row.thread ∧ child.status = .accepted

/-- The accepted operations without an accepted child, in the order of their ids. -/
def frontier : List ContentHash :=
  (db.operations.entries.filter fun entry => entry.2.thread = thread ∧ entry.2.facet = facet ∧
    entry.2.status = .accepted ∧ db.hasAcceptedChild entry.1 entry.2 = false).map Prod.fst

def status (id : ContentHash) : Except ReplicaError Admission :=
  (db.operations.get id).elim (.error noRows) fun row =>
    match row.status with
    | .accepted => .ok .accepted
    | .rejected => .ok (.rejected (row.reason.getD ""))
    | .pending => .ok .pending

end Database

def onlyIf (p : Prop) [Decidable p] (action : Except ε Unit) : Except ε Unit :=
  if p then action else .ok ()

section Receive
variable (codec : ThreadCodec) (outside : Outside codec) (thread : ContentHash)

/-- A control command id names one operation; a client that compares must have seen the heads. -/
def checkControlCommand (operation : Op codec) (id : ContentHash) (compareFrontier : Bool)
    (db : Db codec) : Except ReplicaError (Db codec) :=
  match operation.body with
  | .metadata bytes => do
    let control ← object (codec.decodeControl bytes)
    let command := (thread, operation.publisher, control.clientOperationId)
    refuse (∃ old ∈ db.controlCommands.lookup command, old ≠ id)
      (.invalid "Thread control operation ID reused with different signed bytes")
    let accepted := (db.operations.get id).any fun row => row.thread = thread ∧ row.status = .accepted
    let current := ((db.controlHeadsOf thread (key control.property)).sort (· ≤ ·)).take 129
    refuse (compareFrontier = true ∧ accepted = false ∧ current.toFinset ≠ operation.parents)
      (.invalid "Thread property frontier changed")
    return { db with
      controlCommands := (db.controlCommands.lookup command).elim
        (db.controlCommands.insert command id) fun _ => db.controlCommands }
  | _ => .ok db

/-- A local landing expects the source frontier, unless it is accepted already. -/
def checkIntegrationFrontier (operation : Op codec) (id : ContentHash) (compareFrontier : Bool)
    (db : Db codec) : Except ReplicaError Unit := do
  let receipt ← object (operation.localIntegration codec)
  let existing := (db.operations.get id).map OperationRow.status
  refuse (compareFrontier = true ∧ ∃ expected ∈ receipt, existing ≠ some .accepted ∧
      ((db.frontier thread .source).take 129).toFinset ≠ expected.expectedTargetFrontier)
    (.invalid "local integration target frontier changed")

def ThreadOperation.sourceRevision (operation : Op codec) : Except HeddleError (Option StateId) :=
  match operation.body with
  | .capture capture => (codec.decodeState capture.result.state).map fun state => some state.stateId
  | .integration _ | .localIntegration _ =>
    (operation.sourceState codec).map fun state => state.map State.stateId
  | _ => .ok none

/-- `INSERT OR IGNORE INTO operations`, with the rows of `parents` when the operation is new. -/
def insertOperation (signed : SignedOperation codec) (id : ContentHash) (revision : Option StateId)
    (db : Db codec) : Except ReplicaError (Db codec) :=
  match db.operations.get id with
  | some _ => .ok db
  | none => do
    let parents ← (signed.operation.parents.sort (· ≤ ·)).foldlM
      (fun parents parent => insertRow (id, parent) parents) db.parents
    return { db.setRow id
        { thread := thread, facet := signed.operation.facet, canonical := signed.operation
          signature := signed.signature, sourceRevision := revision } with
      parents := parents }.bumpGeneration thread

/-- The references of an operation that is not accepted yet can be deferred. -/
def deferReference (id : ContentHash) (deferReferences : Bool) (revision : Option StateId)
    (db : Db codec) : Except ReplicaError (Db codec) :=
  if deferReferences = true then
    revision.elim (.error (.invalid "source metadata operation required")) fun _ =>
      .ok { db with referencePending := insert (thread, id) db.referencePending }
  else .ok db

/-- An original author's admission stays with the row. -/
def admitAuthority (operation : Op codec) (id : ContentHash)
    (db : Db codec) : Except ReplicaError (Db codec) := do
  let original ← outside.originalAuthority operation
  return if original = true then
      (db.operations.get id).elim db fun row => db.setRow id { row with authorityAdmitted := true }
    else db

/-- A receipt is stored once; with an operation that was there already it changes the thread. -/
def storeReceipt (id : ContentHash) (inserted : Bool) (receipt : Option (Bytes × Bytes))
    (db : Db codec) : Except ReplicaError (Db codec) :=
  match receipt, db.operations.get id with
  | some receipt, some row =>
    if row.authorityReceipt.isSome then .ok db
    else do
      outside.persistEvidence db receipt
      let db := db.setRow id { row with authorityReceipt := some receipt }
      return if inserted then db else db.bumpGeneration thread
  | _, _ => .ok db

def receiveVerifiedContentIn (signed : SignedOperation codec) (compareFrontier : Bool)
    (imported : Option (Op codec)) (receipt : Option (Bytes × Bytes)) (deferReferences : Bool)
    (db : Db codec) :
    Except ReplicaError (Db codec × Admission) := do
  refuse (∃ bound ∈ imported, bound ≠ signed.operation) (.hybrid "scope")
  let id ← object (signed.operation.id codec)
  let alreadyAccepted := (db.operations.get id).any fun row => row.canonical = signed.operation ∧
    row.signature = signed.signature ∧ row.status = .accepted
  onlyIf (alreadyAccepted = false) (outside.validateSourceOwnerIn db signed.operation)
  checkIntegrationFrontier codec thread signed.operation id compareFrontier db
  let db ← checkControlCommand codec thread signed.operation id compareFrontier db
  let revision ← object (signed.operation.sourceRevision codec)
  let inserted := (db.operations.get id).isNone
  let db ← insertOperation codec thread signed id revision db
  let db ← deferReference codec thread id (deferReferences && !alreadyAccepted) revision db
  let db ← admitAuthority codec outside signed.operation id db
  let db ← storeReceipt codec outside thread id inserted receipt db
  outside.indexOperation db signed.operation
  let db ← admitReady codec outside thread imported db
  let admission ← db.status id
  return (db, admission)

/-- Keys and operations of hosted imports need their witness. -/
def receiveIn (signed : SignedOperation codec) (compareFrontier : Bool)
    (receipt : Option (Bytes × Bytes)) (deferReferences : Bool)
    (db : Db codec) :
    Except ReplicaError (Db codec × Admission) := do
  let id ← object (signed.operation.id codec)
  let hosted ← outside.hostedExecution signed.operation
  refuse (outside.witnessed signed.operation id = true ∨ hosted = true) .witnessEvidenceRequired
  receiveVerifiedContentIn codec outside thread signed compareFrontier none receipt deferReferences db

/-- A transaction: what fails leaves the tables as they were. -/
def transact (db : Database V) (body : Except ReplicaError (Database V × α)) :
    Database V × Except ReplicaError α :=
  match body with
  | .error e => (db, .error e)
  | .ok (db, a) => (db, .ok a)

def completeReferenceProjection (operation : Op codec) (id : ContentHash)
    (db : Db codec) :
    Db codec × Except ReplicaError Unit :=
  transact db do
    outside.validateReferenceCapture db operation
    outside.publishCaptureReferences db operation id
    outside.commit db
    return ({ db with referencePending := db.referencePending.erase (thread, id) }.bumpGeneration thread,
      ())

/-- After the commit the listeners are told, and a deferred projection is completed. -/
def finishReceive (notify : Bool) (operation : Op codec) (id : ContentHash) (deferThis : Bool)
    (admission : Admission) (db : Db codec) :
    Db codec × Except ReplicaError Unit :=
  match onlyIf (notify = true) outside.notifyCommitted with
  | .error e => (db, .error e)
  | .ok () =>
    if deferThis = false ∧ admission = .accepted ∧ (thread, id) ∈ db.referencePending then
      completeReferenceProjection codec outside thread operation id db
    else (db, .ok ())

def defersReferences (operation : Op codec) (deferReferences : Bool) : Except ReplicaError Bool :=
  if deferReferences = true then outside.hasReferenceProof operation else .ok false

/-- The checks before the transaction; says whether the references of the operation are deferred. -/
def prepareReceive (signed : SignedOperation codec) (receipt : Option (Bytes × Bytes))
    (deferReferences : Bool) (db : Db codec) : Except ReplicaError Bool := do
  outside.verify signed
  refuse (signed.operation.thread ≠ thread) (.invalid "wrong Thread")
  outside.requireTrustedIntegration signed.operation
  outside.requireLocalIntegrationSource db signed.operation
  receipt.elim (.ok ()) (outside.requireAuthorityAdmission signed)
  outside.authorize signed.operation
  let result ← object (signed.operation.sourceResult codec)
  refuse (deferReferences = true ∧ result = none) (.invalid "source metadata operation required")
  let deferThis ← defersReferences codec outside signed.operation deferReferences
  onlyIf (deferThis = false) (outside.validateReferenceCapture db signed.operation)
  return deferThis

def receiveInner (signed : SignedOperation codec) (compareFrontier : Bool)
    (receipt : Option (Bytes × Bytes)) (deferReferences : Bool)
    (db : Db codec) :
    Db codec × Except ReplicaError Admission :=
  let committed := transact db do
    let deferThis ← prepareReceive codec outside thread signed receipt deferReferences db
    let received ← receiveIn codec outside thread signed compareFrontier receipt deferThis db
    onlyIf (received.2 = .accepted) (outside.recordCommand received.1)
    outside.commit received.1
    let id ← object (signed.operation.id codec)
    return (received.1, received.2, deferThis, id)
  match committed with
  | (db, .error e) => (db, .error e)
  | (db, .ok (admission, deferThis, id)) =>
    let finished := finishReceive codec outside thread true signed.operation id deferThis admission db
    (finished.1, finished.2.map fun () => admission)

/-- Rolls back unless the operation is accepted. -/
def requireAccepted (message : String)
    (received : Except ReplicaError (Database V × Admission)) :
    Except ReplicaError (Database V) := do
  let received ← received
  refuse (received.2 ≠ .accepted) (.invalid message)
  return received.1

def prepareStackMember (db : Db codec) (signed : SignedOperation codec) : Except ReplicaError Unit := do
  outside.verify signed
  let receipt ← object (signed.operation.localIntegration codec)
  refuse (receipt = none) (.invalid "stack member must be a local integration")
  outside.requireTrustedIntegration signed.operation
  outside.requireLocalIntegrationSource db signed.operation
  outside.validateReferenceCapture db signed.operation

/-- The listeners of a thread are told once. -/
def finishStack : List ContentHash → List (Op codec × ContentHash) → Db codec →
    Db codec × Except ReplicaError Unit
  | _, [], db => (db, .ok ())
  | notified, member :: members, db =>
    match finishReceive codec outside member.1.thread (decide (member.1.thread ∉ notified)) member.1
        member.2 false .accepted db with
    | (db, .error e) => (db, .error e)
    | (db, .ok ()) => finishStack (member.1.thread :: notified) members db

/-- A stack of local integrations in one transaction; a failed member rolls all of them back. -/
def receiveLocalStack (signed : List (SignedOperation codec))
    (db : Db codec) :
    Db codec × Except ReplicaError Unit :=
  let committed := transact db do
    refuse (signed = [] ∨ 64 < signed.length) (.invalid "landing stack requires 1–64 members")
    signed.forM (prepareStackMember codec outside db)
    let db ← signed.foldlM (fun db member =>
      requireAccepted "landing stack member is not accepted"
        (receiveIn codec outside member.operation.thread member true none false db)) db
    outside.recordCommand db
    outside.commit db
    let ids ← signed.mapM fun member => do
      return (member.operation, ← object (member.operation.id codec))
    return (db, ids)
  match committed with
  | (db, .error e) => (db, .error e)
  | (db, .ok members) => finishStack codec outside [] members db

/-- A discussion or context command; its preconditions are checked in `authorize`. -/
def receiveCollaboration (signed : SignedOperation codec) (db : Db codec) :
    Db codec × Except ReplicaError Unit :=
  transact db do
    outside.verify signed
    outside.authorize signed.operation
    let db ← requireAccepted "collaboration requires admitted causal parents"
      (receiveIn codec outside thread signed false none false db)
    outside.recordCommand db
    outside.commit db
    return (db, ())

/-- A new row of the availability table changes the thread. -/
def recordSourcePossessionIn (revision : StateId) (db : Db codec) : Except ReplicaError (Db codec) := do
  let inserted ← outside.insertAvailability db thread revision
  return if inserted then db.bumpGeneration thread else db

/-- Records the possession of an accepted source; what is not accepted is rolled back. -/
def settlePrepared (revision : StateId) (received : Db codec × Admission) (db : Db codec) :
    Except ReplicaError (Db codec × Admission) :=
  if received.2 = .accepted then do
    let db ← recordSourcePossessionIn codec outside thread revision received.1
    outside.commit db
    return (db, .accepted)
  else .ok (db, received.2)

/-- A local capture; one that is not accepted is rolled back. -/
def receivePreparedSource (signed : SignedOperation codec)
    (db : Db codec) :
    Db codec × Except ReplicaError Admission :=
  transact db do
    let _ ← prepareReceive codec outside thread signed none false db
    let state ← object (signed.operation.sourceState codec)
    let state ← state.elim (.error (.invalid "prepared source operation required")) .ok
    let receipt ← object (signed.operation.localIntegration codec)
    let received ← receiveIn codec outside thread signed receipt.isSome none false db
    settlePrepared codec outside thread state.stateId received db

/-- Source operations published together, each with its receipt. -/
def receivePublication (signed : List (SignedOperation codec × Option (Bytes × Bytes)))
    (revision : StateId) (db : Db codec) :
    Db codec × Except ReplicaError Unit :=
  transact db do
    signed.forM fun member => outside.verify member.1
    let db ← signed.foldlM (fun db member => do
      outside.requireLocalIntegrationSource db member.1.operation
      requireAccepted "validated publication source did not settle"
        (receiveIn codec outside member.1.operation.thread member.1 false member.2 false db)) db
    let db ← recordSourcePossessionIn codec outside thread revision db
    outside.recordCommand db
    outside.commit db
    return (db, ())

/-- A verified closure, in an order of its dependencies; imports are checked as such. -/
def installNative (records : List (SignedOperation codec × Option (Op codec)))
    (db : Db codec) :
    Db codec × Except ReplicaError Unit :=
  transact db do
    let db ← records.foldlM (fun db record => do
      outside.validateReferenceCapture db record.1.operation
      requireAccepted "scope" (receiveVerifiedContentIn codec outside record.1.operation.thread record.1
        false record.2 none false db)) db
    outside.commit db
    return (db, ())

inductive ReceiveCall where
  | receive (thread : ContentHash) (signed : SignedOperation codec) (compareFrontier : Bool)
      (receipt : Option (Bytes × Bytes)) (deferReferences : Bool)
  | localStack (signed : List (SignedOperation codec))
  | collaboration (thread : ContentHash) (signed : SignedOperation codec)
  | preparedSource (thread : ContentHash) (signed : SignedOperation codec)
  | publication (thread : ContentHash)
      (signed : List (SignedOperation codec × Option (Bytes × Bytes))) (revision : StateId)
  | install (records : List (SignedOperation codec × Option (Op codec)))

def ReceiveCall.run : ReceiveCall codec → Db codec →
    Db codec
  | .receive thread signed compareFrontier receipt deferReferences, db =>
    (receiveInner codec outside thread signed compareFrontier receipt deferReferences db).1
  | .localStack signed, db => (receiveLocalStack codec outside signed db).1
  | .collaboration thread signed, db => (receiveCollaboration codec outside thread signed db).1
  | .preparedSource thread signed, db => (receivePreparedSource codec outside thread signed db).1
  | .publication thread signed revision, db =>
    (receivePublication codec outside thread signed revision db).1
  | .install records, db => (installNative codec outside records db).1

end Receive

/-- The tables after a run of calls on fresh tables with the given threads. -/
def replicaAfter (codec : ThreadCodec) (threads : Table ContentHash ThreadRow)
    (calls : List (Outside codec × ReceiveCall codec)) : Db codec :=
  calls.foldl (fun db call => call.2.run codec call.1 db) { threads := threads }

end Heddle.Replication
