import Heddle.Object.Encoding

namespace Heddle.Oplog
open Heddle Heddle.Lib

structure ChangeId where
  bytes : Vector UInt8 16
  deriving DecidableEq

structure OperationId where
  uuid : Vector UInt8 16
  deriving DecidableEq

@[ext] structure Principal where
  name : Bytes
  email : Bytes
  deriving DecidableEq

@[ext] structure Agent where
  provider : String
  model : String
  sessionId : Option String := none
  segmentId : Option String := none
  policyId : Option String := none
  thoughtLevel : Option String := none
  parent : Option String := none
  deriving DecidableEq

@[ext] structure Attribution where
  principal : Principal
  agent : Option Agent
  deriving DecidableEq

inductive VisibilityTier where
  | publicTier
  | internal
  | teamScoped (teamId : String)
  | restricted (scopeLabel : String)
  | privateTier (scopeLabel : String)
  deriving DecidableEq

inductive ConflictResolutionMode where
  | ours
  | theirs
  | edit
  | auto
  deriving DecidableEq

inductive RecordedHead where
  | attached (thread : String)
  | detached (state : StateId)
  deriving DecidableEq

/-- The ThreadManager records around a thread update; the two record sets are complete. -/
structure ThreadUpdateSnapshots where
  old : Option Bytes
  new : Option Bytes
  oldRecords : List Bytes
  newRecords : List Bytes
  oldRefAbsent : Bool
  deriving DecidableEq

inductive OpRecord where
  | snapshot (newState : StateId) (prevHead head : Option StateId) (thread : Option String)
  | goto (target : StateId) (prevHead : Option StateId) (head : StateId)
  | threadCreate (name : String) (state : StateId) (managerSnapshot : Option Bytes)
  | threadDelete (name : String) (state : StateId)
  | threadUpdate (name : String) (oldState newState : StateId)
      (managerSnapshots : Option ThreadUpdateSnapshots)
  | fork (source newState : StateId) (thread : Option String) (head : Option StateId)
  | collapse (sources : List StateId) (result : StateId) (thread : Option String)
      (preThreadState : Option StateId)
  | markerCreate (name : String) (state : StateId)
  | markerDelete (name : String) (state : StateId)
  | checkpoint (parent : Option StateId) (state : StateId) (thread : Option String)
  | transactionAbort (transactionId reason : String)
  | ephemeralThreadCollapse (thread : String) (finalState : StateId)
  | conflictResolved (conflictId resolution : String) (resolver : Attribution)
      (mode : ConflictResolutionMode)
  | transactionCommit (transactionId : String) (opCount : UInt32)
  | redact (redactionId blob : ContentHash) (state : StateId) (path : String)
  | purge (redactionId blob : ContentHash)
  | fastForward (sourceThread targetThread : String) (preTargetId postTargetId : StateId)
  | gitCheckpoint (branch : String) (state : StateId) (previousGitOid : Option String)
      (newGitOid : String)
  | remoteThreadUpdate (remote thread : String) (state : StateId)
  | remoteThreadDelete (remote thread : String) (state : StateId)
  | undoRecoveryUpdate (state : StateId)
  | stateVisibilitySet (state : StateId) (recordId : ContentHash) (tier : VisibilityTier)
      (priorSidecar newSidecar : Option Bytes)
  | stateVisibilityPromote (state : StateId) (superseded recordId : ContentHash)
      (tier : VisibilityTier) (priorSidecar newSidecar : Option Bytes)
  | headUpdate (previous new : RecordedHead)
  | entryVisibilitySet (changeId : ChangeId) (recordId : ContentHash)
      (priorSidecar newSidecar : Option Bytes)
  deriving DecidableEq

inductive IsolationKey where
  | thread (name : String)
  | localHead (scope : String)
  | stateVisibility (state : StateId)
  deriving DecidableEq

/-- What a conditional commit asks of the log: no entry after `sinceHeadId` touches one of `keys`. -/
structure IsolationPrecondition where
  sinceHeadId : Nat
  keys : List IsolationKey
  deriving DecidableEq

inductive ConditionalCommitOutcome where
  | committed (ids : List Nat)
  | alreadyCommitted (prior : List OpRecord)
  | isolationConflict (key : IsolationKey) (sinceHeadId conflictingEntryId : Nat)

end Heddle.Oplog
