import Heddle.Lib.StepTrace
import Heddle.Refs.SummaryIndex

namespace Heddle.Refs
open Heddle.Lib

inductive RefExpectation (α : Type) where
  | any
  | missing
  | value (v : α)
  deriving DecidableEq

inductive RefUpdate where
  | point (key : RefKey) (expected : RefExpectation StateId) (new : Option StateId)
  | head (expected : RefExpectation Head) (new : Head)
  deriving DecidableEq

def matchesExpectation [DecidableEq α] (expectation : RefExpectation α) (current : Option α)
    (existsNow : Bool) : Bool :=
  match expectation with
  | .any => true
  | .missing => !existsNow
  | .value v => current = some v

section Plan
variable (names : RefNames)

def describeStateId (value : Option StateId) : String :=
  value.elim "missing" names.toStringFull

def describeExpectationStateId : RefExpectation StateId → String
  | .any => "any"
  | .missing => "missing"
  | .value id => names.toStringFull id

def describeHead : Head → String
  | .attached thread => "ref: " ++ thread
  | .detached state => names.toStringFull state

def describeExpectationHead : RefExpectation Head → String
  | .any => "any"
  | .missing => "missing"
  | .value head => describeHead names head

structure RefUpdatePlan where
  path : RefPath
  newContent : Option RefText
  previousContent : Option RefText
  description : String
  packedRemove : Option RefKey
  summaryDelta : Option SummaryDelta
  deriving DecidableEq

def pointDelta (key : RefKey) : Option StateId → SummaryDelta
  | some id => .set key id
  | none => .delete key

def pointPlan (key : RefKey) (current new : Option StateId) : RefUpdatePlan where
  path := .entry key
  newContent := new.map .state
  previousContent := current.map .state
  description := key.describe
  packedRemove := if key.packable && new.isNone && current.isSome then some key else none
  summaryDelta := some (pointDelta key new)

def headPlan (raw : Option RefText) (new : Head) : RefUpdatePlan where
  path := .head
  newContent := some new.toText
  previousContent := raw
  description := "HEAD"
  packedRemove := none
  summaryDelta := none

/-- The path of the update's ref. A thread's file is read along with its path. -/
def planPath (store : RefStore) (key : RefKey) : Except RefError RefPath := do
  match key with
  | .thread _ =>
    let _ ← rawGet names store key
    refPath names key
  | _ => refPath names key

def planPointUpdate (store : RefStore) (seen : List RefPath) (key : RefKey)
    (expected : RefExpectation StateId) (new : Option StateId) :
    Except RefError (List RefPath × RefUpdatePlan) := do
  let path ← planPath names store key
  if path ∈ seen then .error (.conflict ("duplicate ref update for " ++ key.describe))
  else
    let current ← rawGet names store key
    if matchesExpectation expected current current.isSome then
      return (path :: seen, pointPlan key current new)
    else .error (.conflict (key.describe ++ " expected " ++
      describeExpectationStateId names expected ++ ", found " ++ describeStateId names current))

/-- HEAD is not entered among the paths that were seen. -/
def planHeadUpdate (store : RefStore) (seen : List RefPath) (expected : RefExpectation Head)
    (new : Head) : Except RefError (List RefPath × RefUpdatePlan) := do
  let current ← readHeadState names store
  if matchesExpectation expected (some current.head) current.existsOnDisk then
    return (seen, headPlan current.raw new)
  else .error (.conflict ("HEAD expected " ++ describeExpectationHead names expected ++ ", found " ++
    if current.existsOnDisk then describeHead names current.head else "missing"))

def planRefUpdate (store : RefStore) (planned : List RefPath × List RefUpdatePlan) :
    RefUpdate → Except RefError (List RefPath × List RefUpdatePlan)
  | .point key expected new => do
    let (seen, plan) ← planPointUpdate names store planned.1 key expected new
    return (seen, planned.2 ++ [plan])
  | .head expected new => do
    let (seen, plan) ← planHeadUpdate names store planned.1 expected new
    return (seen, planned.2 ++ [plan])

def planRefUpdates (store : RefStore) (updates : List RefUpdate) :
    Except RefError (List RefUpdatePlan) := do
  let planned ← updates.foldlM (planRefUpdate names store) ([], [])
  return planned.2

end Plan

section Publish

/-- A file that is replaced by a write of its own, outside the batch of renames. -/
inductive WriteSite where
  | packed
  | restore (index : Nat)
  | restorePacked
  deriving DecidableEq

/-- The file system steps of a publish; each can fail. Plans are counted from 0. A file that is
replaced is written and renamed first, then its directory is synced. -/
inductive Step where
  | lockRefs
  | nameEntry (index : Nat)
  | createParent (index : Nat)
  | allocTemp (index : Nat)
  | stageTemp (index : Nat)
  | rename (index : Nat)
  | removeFile (index : Nat)
  | syncDirectory (parent : RefPath)
  | write (site : WriteSite)
  | syncWrite (site : WriteSite)
  | removeRestored (index : Nat)
  | removePacked
  | writeSummary
  deriving DecidableEq

abbrev Outcome := Lib.Outcome RefError RefStore

variable (fails : Step → Bool)

def stepThen (step : Step) (store : RefStore) (next : RefStore → Outcome) : Outcome :=
  failOr .io fails step store next

def writeFileAtomic (site : WriteSite) (store written : RefStore) : Outcome :=
  stepThen fails (.write site) store fun _ =>
    stepThen fails (.syncWrite site) written fun written => (.ok (), written)

/-- `write_name_entry`: HEAD has no name to enter. -/
def writeNameEntry (index : Nat) (plan : RefUpdatePlan) (store : RefStore) : Outcome :=
  if plan.summaryDelta.isSome then
    stepThen fails (.nameEntry index) store fun store => (.ok (), store)
  else (.ok (), store)

def preparePlan (index : Nat) (plan : RefUpdatePlan) (store : RefStore) : Outcome :=
  if plan.newContent.isSome then
    (writeNameEntry fails index plan store).andThen fun store =>
      stepThen fails (.createParent index) store fun store =>
        stepThen fails (.allocTemp index) (store.createEntry plan.path) fun store => (.ok (), store)
  else (.ok (), store)

def preparePlans : Nat → List RefUpdatePlan → RefStore → Outcome
  | _, [], store => (.ok (), store)
  | index, plan :: plans, store =>
    (preparePlan fails index plan store).andThen (preparePlans (index + 1) plans)

def stageTempFiles : Nat → List RefUpdatePlan → RefStore → Outcome
  | _, [], store => (.ok (), store)
  | index, plan :: plans, store =>
    if plan.newContent.isSome then
      stepThen fails (.stageTemp index) store (stageTempFiles (index + 1) plans)
    else stageTempFiles (index + 1) plans store

def applyPlan (index : Nat) (plan : RefUpdatePlan) (store : RefStore) : Outcome :=
  if plan.newContent.isSome then
    stepThen fails (.rename index) store fun store =>
      (.ok (), store.setFile plan.path plan.newContent)
  else if (store.fileAt plan.path).isSome then
    stepThen fails (.removeFile index) store fun store => (.ok (), store.setFile plan.path none)
  else (.ok (), store)

def restorePlan (index : Nat) (plan : RefUpdatePlan) (store : RefStore) : Outcome :=
  match plan.previousContent with
  | some previous =>
    writeFileAtomic fails (.restore index) store (store.setFile plan.path (some previous))
  | none =>
    if (store.fileAt plan.path).isSome then
      stepThen fails (.removeRestored index) store fun store =>
        (.ok (), store.setFile plan.path none)
    else (.ok (), store)

def restorePacked (packedSnapshot : Option PackedRefs) (store : RefStore) : Outcome :=
  match packedSnapshot with
  | some snapshot =>
    writeFileAtomic fails .restorePacked store { store with packed := some snapshot }
  | none =>
    if store.packed.isSome then
      stepThen fails .removePacked store fun store => (.ok (), { store with packed := none })
    else (.ok (), store)

/-- Restores the plans that were applied, the last one first, and the packed refs. -/
def rollbackUpdates : List (Nat × RefUpdatePlan) → Option PackedRefs → RefStore → Outcome
  | [], packedSnapshot, store => restorePacked fails packedSnapshot store
  | (index, plan) :: applied, packedSnapshot, store =>
    (restorePlan fails index plan store).andThen (rollbackUpdates applied packedSnapshot)

/-- The error of the failed step after a rollback, or that of the rollback when it failed too. -/
def failWithRollback (applied : List (Nat × RefUpdatePlan)) (packedSnapshot : Option PackedRefs)
    (context : String) (error : RefError) (store : RefStore) : Outcome :=
  match rollbackUpdates fails applied packedSnapshot store with
  | (.ok (), store) => (.error error, store)
  | (.error _, store) => (.error (.conflict (context ++ "; rollback failed")), store)

def applyPlans (packedSnapshot : Option PackedRefs) :
    Nat → List (Nat × RefUpdatePlan) → List RefUpdatePlan → RefStore → Outcome
  | _, _, [], store => (.ok (), store)
  | index, applied, plan :: plans, store =>
    ((applyPlan fails index plan store).undo
      (failWithRollback fails applied packedSnapshot ("refs update failed for " ++ plan.description))
      ).andThen (applyPlans packedSnapshot (index + 1) ((index, plan) :: applied) plans)

def dirtyParents (plans : List RefUpdatePlan) : List RefPath :=
  ((plans.filter (fun plan => plan.newContent.isSome)).map RefUpdatePlan.path).dedup

def syncDirectories : List RefPath → RefStore → Outcome
  | [], store => (.ok (), store)
  | parent :: parents, store =>
    stepThen fails (.syncDirectory parent) store (syncDirectories parents)

def applyPackedRemovals (plans : List RefUpdatePlan) (store : RefStore) : Outcome :=
  let removals := plans.filterMap RefUpdatePlan.packedRemove
  if removals.isEmpty then (.ok (), store)
  else
    match store.packed with
    | none => (.ok (), store)
    | some packed =>
      let packed := removals.foldl PackedRefs.remove packed
      writeFileAtomic fails .packed store { store with packed := some packed }

def appliedPlans (plans : List RefUpdatePlan) : List (Nat × RefUpdatePlan) :=
  (plans.zipIdx.map Prod.swap).reverse

variable (names : RefNames)

def publishRefPlans (plans : List RefUpdatePlan) (store : RefStore) : Outcome :=
  (preparePlans fails 0 plans store).andThen fun store =>
  (stageTempFiles fails 0 plans store).andThen fun store =>
  let packedSnapshot := store.packed
  (applyPlans fails packedSnapshot 0 [] plans store).andThen fun store =>
  -- A failed sync returns here, without a rollback.
  (syncDirectories fails (dirtyParents plans) store).andThen fun store =>
  ((applyPackedRemovals fails plans store).undo
    (failWithRollback fails (appliedPlans plans) packedSnapshot "packed refs update failed")
    ).andThen fun store =>
  let deltas := plans.filterMap RefUpdatePlan.summaryDelta
  (.ok (), updateRefSummaryIndexWithDeltas names store (fails .writeSummary) deltas)

/-- Without a lagging operation log: the store's files are the values that are validated. -/
def updateRefs (store : RefStore) (updates : List RefUpdate) : Outcome :=
  if updates.isEmpty then (.ok (), store)
  else stepThen fails .lockRefs store fun store =>
    match planRefUpdates names store updates with
    | .error error => (.error error, store)
    | .ok plans => publishRefPlans fails names plans store

end Publish

section Operations
variable (names : RefNames) (store : RefStore)

def setRemoteThread (remote thread : String) (state : StateId) : Outcome :=
  match refPath names (.remoteThread remote thread) with
  | .error error => (.error error, store)
  | .ok path =>
    let written := (store.createEntry path).setFile path (some (.state state))
    (.ok (), rebuildRefSummaryIndex names written false)

def deleteRemoteThread (remote thread : String) : Outcome :=
  match rawGet names store (.remoteThread remote thread) with
  | .error error => (.error error, store)
  | .ok state =>
    let removed :=
      if state.isSome then store.setFile (.entry (.remoteThread remote thread)) none else store
    (.ok (), rebuildRefSummaryIndex names removed false)

def setRef (key : RefKey) (state : StateId) : Outcome :=
  match key with
  | .remoteThread remote thread => setRemoteThread names store remote thread state
  | _ => updateRefs (fun _ => false) names store [.point key .any (some state)]

def deleteRef (key : RefKey) : Outcome :=
  match key with
  | .remoteThread remote thread => deleteRemoteThread names store remote thread
  | _ =>
    match rawGet names store key with
    | .error error => (.error error, store)
    | .ok none => (.ok (), store)
    | .ok (some _) => updateRefs (fun _ => false) names store [.point key .any none]

def packLoose (toKey : String → RefKey) (refNames : List String) (packed : PackedRefs) :
    Except RefError PackedRefs :=
  refNames.foldlM (fun packed name => do
    let _ ← refPath names (toKey name)
    let state ← readStateIdAt names store (toKey name)
    return state.elim packed (packed.set (toKey name))) packed

def packedWithLoose : Except RefError (List RefKey × PackedRefs) := do
  let threads ← listThreadsFromStorage names store
  let packed ← packLoose names store .thread threads store.packedRefs
  let markers ← listMarkersFromStorage names store
  let packed ← packLoose names store .marker markers packed
  return (threads.map .thread ++ markers.map .marker, packed)

def removeLooseFile (store : RefStore) (key : RefKey) : RefStore :=
  if (store.loose key).isSome then store.setFile (.entry key) none else store

def packRefs : Outcome :=
  match packedWithLoose names store with
  | .error error => (.error error, store)
  | .ok (keys, packed) =>
    let packedStore :=
      if packed.isEmpty then store
      else keys.foldl removeLooseFile { store with packed := some packed }
    (.ok (), rebuildRefSummaryIndex names packedStore false)

end Operations

inductive RefOp where
  | set (key : RefKey) (state : StateId)
  | delete (key : RefKey)
  | update (updates : List RefUpdate)
  | pack
  deriving DecidableEq

def RefOp.run (names : RefNames) (store : RefStore) : RefOp → Outcome
  | .set key state => setRef names store key state
  | .delete key => deleteRef names store key
  | .update updates => updateRefs (fun _ => false) names store updates
  | .pack => packRefs names store

def runOps (names : RefNames) (store : RefStore) (ops : List RefOp) : RefStore :=
  ops.foldl (fun store op => (op.run names store).2) store

end Heddle.Refs
