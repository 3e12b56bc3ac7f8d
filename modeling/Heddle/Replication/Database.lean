import Heddle.Replication.Operation
import Heddle.Lib.Table
import Heddle.Visibility.Audience
import Mathlib.Data.Finset.Sort

namespace Heddle.Replication
open Heddle.Lib Heddle.Oplog

instance : IsTrans ContentHash (· ≤ ·) := inferInstance

instance : Std.Antisymm (fun a b : ContentHash => a ≤ b) := inferInstance

inductive ReplicaError where
  | sql (message : String)
  | object (error : HeddleError)
  | hybrid (reject : String)
  | witnessEvidenceRequired
  | outside (message : String)
  | invalid (message : String)
  deriving DecidableEq

def ReplicaError.display : ReplicaError → String
  | .sql message => "Thread storage: " ++ message
  | .object error => "Thread object: " ++ error.display
  | .hybrid reject => reject
  | .witnessEvidenceRequired =>
    "hosted installation requires fresh root-authenticated witness and original authority evidence"
  | .outside message => message
  | .invalid message => message

def constraintFailed : ReplicaError := .sql "constraint failed"
def noRows : ReplicaError := .sql "Query returned no rows"

inductive OperationStatus where
  | pending
  | accepted
  | rejected
  deriving DecidableEq

structure OperationRow (V : Type) where
  thread : ContentHash
  facet : ThreadFacet
  canonical : ThreadOperation V
  signature : Bytes
  status : OperationStatus := .pending
  reason : Option String := none
  sourceRevision : Option StateId := none
  authorityAdmitted : Bool := false
  authorityReceipt : Option (Bytes × Bytes) := none
  deriving DecidableEq

structure ThreadRow where
  genesis : ThreadGenesis
  generation : Nat := 0
  deriving DecidableEq

def insertRow [DecidableEq α] (row : α) (rows : Finset α) : Except ReplicaError (Finset α) :=
  if row ∈ rows then .error constraintFailed else .ok (insert row rows)

structure SourceIndex where
  revisions : Finset (ContentHash × StateId) := ∅
  counts : Table ContentHash Nat := .empty
  heads : Table (ContentHash × ContentHash) StateId := .empty
  headRevisions : Table (ContentHash × StateId) Nat := .empty

namespace SourceIndex
variable (thread id : ContentHash) (parents : Finset ContentHash)

def headInserted (revision : StateId) (index : SourceIndex) : SourceIndex :=
  { index with
    headRevisions := index.headRevisions.insert (thread, revision)
      ((index.headRevisions.lookup (thread, revision)).elim 1 (· + 1)) }

/-- The trigger `thread_source_head_delete`; the count is checked to be at least zero. -/
def headDeleted (revision : StateId) (index : SourceIndex) : Except ReplicaError SourceIndex :=
  match index.headRevisions.lookup (thread, revision) with
  | none => .ok index
  | some 0 => .error constraintFailed
  | some 1 => .ok { index with headRevisions := index.headRevisions.erase (thread, revision) }
  | some (n + 2) =>
    .ok { index with headRevisions := index.headRevisions.insert (thread, revision) (n + 1) }

def insertHead (revision : StateId) (index : SourceIndex) : Except ReplicaError SourceIndex :=
  if (index.heads.lookup (thread, id)).isSome then .error constraintFailed
  else .ok (headInserted thread revision
    { index with heads := index.heads.insert (thread, id) revision })

def deleteHead (index : SourceIndex) (row : ContentHash × ContentHash) :
    Except ReplicaError SourceIndex :=
  match index.heads.lookup row with
  | none => .ok index
  | some revision => headDeleted row.1 revision { index with heads := index.heads.erase row }

def parentHeads (index : SourceIndex) : List (ContentHash × ContentHash) :=
  (index.heads.entries.map Prod.fst).filter fun row => row.1 = thread ∧ row.2 ∈ parents

def countRevision (revision : StateId) (index : SourceIndex) : SourceIndex :=
  if (thread, revision) ∈ index.revisions then index
  else
    { index with
      revisions := insert (thread, revision) index.revisions
      counts := index.counts.insert thread ((index.counts.lookup thread).elim 1 (· + 1)) }

def sourceAdmitted (revision : Option StateId) (index : SourceIndex) :
    Except ReplicaError SourceIndex :=
  match revision with
  | none => .error constraintFailed
  | some revision => do
    let index := index.countRevision thread revision
    let index ← (index.parentHeads thread parents).foldlM deleteHead index
    index.insertHead thread id revision

end SourceIndex

structure Database (V : Type) where
  threads : Table ContentHash ThreadRow
  operations : SortedMap ContentHash (OperationRow V) := .empty
  parents : Finset (ContentHash × ContentHash) := ∅
  sourceIndex : SourceIndex := {}
  controlHeads : Finset (ContentHash × String × ContentHash) := ∅
  controlCommands : Table (ContentHash × Bytes × Uuid) ContentHash := .empty
  referencePending : Finset (ContentHash × ContentHash) := ∅

namespace Database
variable {V : Type} (thread id : ContentHash)

def bumpGeneration (db : Database V) : Database V :=
  { db with
    threads := (db.threads.lookup thread).elim db.threads fun row =>
      db.threads.insert thread { row with generation := row.generation + 1 } }

def genesis (db : Database V) : Except ReplicaError ThreadGenesis :=
  (db.threads.lookup thread).elim (.error noRows) fun row => .ok row.genesis

def parentsOf (db : Database V) : Finset ContentHash :=
  (db.parents.filter fun edge => edge.1 = id).image Prod.snd

def setRow (row : OperationRow V) (db : Database V) : Database V :=
  { db with operations := db.operations.put id (some row) }

def markAccepted (db : Database V) : Except ReplicaError (Database V) :=
  match db.operations.get id with
  | none => .ok db
  | some row =>
    if row.status ≠ .accepted ∧ row.facet = .source then
      (db.sourceIndex.sourceAdmitted row.thread id (db.parentsOf id) row.sourceRevision).map fun index =>
        { db.setRow id { row with status := .accepted } with sourceIndex := index }
    else .ok (db.setRow id { row with status := .accepted })

def markRejected (reason : String) (db : Database V) : Database V :=
  (db.operations.get id).elim db fun row =>
    db.setRow id { row with status := .rejected, reason := some reason }

def replaceControlHeads (property : String) (parents : Finset ContentHash) (db : Database V) :
    Except ReplicaError (Database V) := do
  let heads ← insertRow (thread, property, id) db.controlHeads
  return { db with controlHeads := heads \ parents.image fun parent => (thread, property, parent) }

def controlHeadsOf (property : String) (db : Database V) : Finset ContentHash :=
  (db.controlHeads.filter fun row => row.1 = thread ∧ row.2.1 = property).image fun row => row.2.2

end Database

/-- What a peer is told about an operation. -/
inductive Admission where
  | accepted
  | pending
  | rejected (reason : String)
  deriving DecidableEq

structure SignedOperation (codec : ThreadCodec) where
  operation : Op codec
  signature : Bytes
  deriving DecidableEq

abbrev Db (codec : ThreadCodec) := Database codec.CaptureVisibility

/-- What the rest of the store, the object store and the keys answer during one call. -/
structure Outside (codec : ThreadCodec) where
  verify : SignedOperation codec → Except ReplicaError Unit
  requireTrustedIntegration : Op codec → Except ReplicaError Unit
  requireLocalIntegrationSource : Db codec → Op codec → Except ReplicaError Unit
  requireAuthorityAdmission : SignedOperation codec → Bytes × Bytes → Except ReplicaError Unit
  authorize : Op codec → Except ReplicaError Unit
  validateReferenceCapture : Db codec → Op codec → Except ReplicaError Unit
  hasReferenceProof : Op codec → Except ReplicaError Bool
  witnessed : Op codec → ContentHash → Bool
  hostedExecution : Op codec → Except ReplicaError Bool
  originalAuthority : Op codec → Except ReplicaError Bool
  persistEvidence : Db codec → Bytes × Bytes → Except ReplicaError Unit
  indexOperation : Db codec → Op codec → Except ReplicaError Unit
  validateSourceOwnerIn : Db codec → Op codec → Except ReplicaError Unit
  stateVisibility : Db codec → StateId → Except ReplicaError (Option VisibilityTier)
  installState : Db codec → State codec.Verification → Option VisibilityTier → Except ReplicaError Unit
  refreshListing : Db codec → ContentHash → Property → Except ReplicaError Unit
  indexReferenceSources : Db codec → Op codec → ContentHash → Except ReplicaError Unit
  publishCaptureReferences : Db codec → Op codec → ContentHash → Except ReplicaError Unit
  recordCommand : Db codec → Except ReplicaError Unit
  insertAvailability : Db codec → ContentHash → StateId → Except ReplicaError Bool
  commit : Db codec → Except ReplicaError Unit
  notifyCommitted : Except ReplicaError Unit

def object : Except HeddleError α → Except ReplicaError α := mapErr .object

namespace Database
variable {V : Type} (thread id : ContentHash) (db : Database V)

/-- A parent that can never be accepted for a row of the thread and facet. -/
def failing (facet : ThreadFacet) (parent : ContentHash) : Bool :=
  (db.operations.get parent).any fun row =>
    row.status = .rejected ∨ row.thread ≠ thread ∨ row.facet ≠ facet

def settled (parent : ContentHash) : Bool :=
  (db.operations.get parent).any fun row => row.status = .accepted

def isReady (row : OperationRow V) : Bool :=
  row.thread = thread ∧ row.status = .pending ∧
    (row.facet ≠ .metadata ∨ row.authorityAdmitted = true) ∧
    ((∃ parent ∈ db.parentsOf id, db.failing row.thread row.facet parent = true) ∨
      ∀ parent ∈ db.parentsOf id, db.settled parent = true)

/-- The pending rows of the thread that can be decided, at most 128. -/
def ready : List (ContentHash × OperationRow V) :=
  (db.operations.entries.filter fun entry => db.isReady thread entry.1 entry.2).take 128

/-- Why the least failing parent fails. -/
def parentFailure (facet : ThreadFacet) : Option String := do
  let parent ← ((db.parentsOf id).sort (· ≤ ·)).find? fun parent => db.failing thread facet parent
  let row ← db.operations.get parent
  return if row.thread ≠ thread ∨ row.facet ≠ facet then
      "causal parents cross Thread or disclosure facet"
    else "causal parent was rejected"

end Database

section Admit
variable (codec : ThreadCodec) (outside : Outside codec) (thread : ContentHash)

/-- The audience of the parents of an integration must not be weakened. -/
def integrationAudience (db : Db codec) (state : State codec.Verification)
    (receipt : LocalIntegration codec.CaptureVisibility) :
    Except ReplicaError (Option VisibilityTier) := do
  let required ← state.parents.foldlM (fun required parent => do
    let tier ← outside.stateVisibility db parent
    tier.elim (.ok required) fun tier => object (intersectVisibility required tier)) .publicTier
  let combined ← object (intersectVisibility required receipt.resultVisibility)
  refuse (combined ≠ receipt.resultVisibility)
    (.invalid "local integration weakens source audience")
  return if receipt.resultVisibility = .publicTier then none else some receipt.resultVisibility

def installSource (db : Db codec) (operation : Op codec) : Except ReplicaError Unit := do
  let state ← object (operation.sourceState codec)
  let receipt ← object (operation.localIntegration codec)
  match state, receipt with
  | none, _ => .ok ()
  | some state, none => outside.installState db state none
  | some state, some receipt => do
    let tier ← integrationAudience codec outside db state receipt
    outside.installState db state tier

def acceptControlHeads (operation : Op codec) (id : ContentHash)
    (db : Db codec) :
    Except ReplicaError (Db codec) :=
  match operation.body with
  | .metadata bytes => do
    let control ← object (codec.decodeControl bytes)
    let db ← db.replaceControlHeads thread id (key control.property) operation.parents
    outside.refreshListing db thread control.property
    return db
  | _ => .ok db

def publishReferences (operation : Op codec) (id : ContentHash) (db : Db codec) :
    Except ReplicaError Unit :=
  if (thread, id) ∈ db.referencePending then .ok ()
  else outside.publishCaptureReferences db operation id

def accept (operation : Op codec) (id : ContentHash) (db : Db codec) :
    Except ReplicaError (Db codec) := do
  installSource codec outside db operation
  let db ← acceptControlHeads codec outside thread operation id db
  outside.indexReferenceSources db operation id
  let db ← db.markAccepted id
  publishReferences codec outside thread operation id db
  return db

def loadParents (operation : Op codec) (db : Db codec) :
    Except ReplicaError (List (Op codec)) :=
  (operation.parents.sort (· ≤ ·)).mapM fun parent =>
    (db.operations.get parent).elim (.error noRows) fun row => .ok row.canonical

def decideOperation (genesis : ThreadGenesis) (imported : Option (Op codec)) (operation : Op codec)
    (id : ContentHash) (db : Db codec) :
    Except ReplicaError (Db codec) :=
  match db.parentFailure thread id operation.facet with
  | some reason => .ok (db.markRejected id reason)
  | none => do
    let parents ← loadParents codec operation db
    match outside.validateSourceOwnerIn db operation with
    | .error e => .ok (db.markRejected id e.display)
    | .ok () =>
      match operation.validateParentsInner codec genesis parents (imported = some operation) with
      | .error e => .ok (db.markRejected id e.display)
      | .ok () => accept codec outside thread operation id db

def admitOne (genesis : ThreadGenesis) (imported : Option (Op codec))
    (db : Db codec)
    (entry : ContentHash × OperationRow codec.CaptureVisibility) :
    Except ReplicaError (Db codec) := do
  let id ← object (entry.2.canonical.id codec)
  let db ← decideOperation codec outside thread genesis imported entry.2.canonical id db
  return db.bumpGeneration thread

/-- Batches of ready operations, until none is ready. -/
def admitRounds (genesis : ThreadGenesis) (imported : Option (Op codec)) :
    Nat → Db codec → Except ReplicaError (Db codec)
  | 0, db => .ok db
  | rounds + 1, db =>
    if db.ready thread = [] then .ok db
    else do
      let db ← (db.ready thread).foldlM (admitOne codec outside thread genesis imported) db
      admitRounds genesis imported rounds db

def pendingRows (db : Database V) : List (ContentHash × OperationRow V) :=
  db.operations.entries.filter fun entry => entry.2.status = .pending

def pendingIds (db : Database V) : Finset ContentHash := ((pendingRows db).map Prod.fst).toFinset

/-- A round decides a pending operation, so there are at most as many rounds as pending rows. -/
def admitReady (imported : Option (Op codec)) (db : Db codec) :
    Except ReplicaError (Db codec) := do
  let genesis ← db.genesis thread
  admitRounds codec outside thread genesis imported (pendingRows db).length db

end Admit

end Heddle.Replication
