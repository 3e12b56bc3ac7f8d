import Heddle.Collaboration.Materialize
import Heddle.SourceTarget.Node

namespace Heddle.Replication
open Heddle.Lib Heddle.Oplog
open List hiding Vector

abbrev Uuid := Vector UInt8 16

def hyphenate : List Nat → List Char → List Char
  | [], chars => chars
  | n :: groups, chars => chars.take n ++ '-' :: hyphenate groups (chars.drop n)

def Uuid.hexChars (id : Uuid) : List Char :=
  id.toList.flatMap fun b => [Nat.digitChar (b.toNat / 16), Nat.digitChar (b.toNat % 16)]

def Uuid.display (id : Uuid) : String := String.ofList (hyphenate [8, 4, 4, 4] (Uuid.hexChars id))

def Uuid.isNil (id : Uuid) : Prop := id = Vector.replicate 16 0

instance (id : Uuid) : Decidable (Uuid.isNil id) := inferInstanceAs (Decidable (id = _))

inductive ThreadFacet where
  | source
  | discussion
  | metadata
  deriving DecidableEq

inductive Property where
  | name
  | intent
  | lifecycle
  | sharing
  | audience
  | retention
  | review (id : Uuid)
  deriving DecidableEq

def key : Property → String
  | .name => "name"
  | .intent => "intent"
  | .lifecycle => "lifecycle"
  | .sharing => "sharing"
  | .audience => "audience"
  | .retention => "retention"
  | .review id => "review:" ++ Uuid.display id

section Keys

theorem digitChar_inj : ∀ m < 16, ∀ n < 16, Nat.digitChar m = Nat.digitChar n → m = n := by decide

theorem hexChars_inj {xs ys : List UInt8}
    (h : (xs.flatMap fun b => [Nat.digitChar (b.toNat / 16), Nat.digitChar (b.toNat % 16)]) =
      ys.flatMap fun b => [Nat.digitChar (b.toNat / 16), Nat.digitChar (b.toNat % 16)]) : xs = ys := by
  induction xs generalizing ys with
  | nil =>
    cases ys with
    | nil => rfl
    | cons y ys => cases h
  | cons x xs ih =>
    cases ys with
    | nil => cases h
    | cons y ys =>
      simp only [flatMap_cons, cons_append, nil_append, List.cons.injEq] at h
      obtain ⟨hhigh, hlow, hrest⟩ := h
      have hx := x.toNat_lt
      have hy := y.toNat_lt
      have hdiv := digitChar_inj _ (by omega) _ (by omega) hhigh
      have hmod := digitChar_inj _ (by omega) _ (by omega) hlow
      have hnat : x.toNat = y.toNat := by omega
      rw [UInt8.toNat_inj.1 hnat, ih hrest]

theorem hyphenate_inj (hlength : xs.length = ys.length)
    (h : hyphenate groups xs = hyphenate groups ys) : xs = ys := by
  induction groups generalizing xs ys with
  | nil => exact h
  | cons n groups ih =>
    have htake : (xs.take n).length = (ys.take n).length := by
      rw [length_take, length_take, hlength]
    obtain ⟨hfirst, hrest⟩ := append_inj h htake
    have hdrop : (xs.drop n).length = (ys.drop n).length := by
      rw [length_drop, length_drop, hlength]
    rw [← take_append_drop n xs, ← take_append_drop n ys, hfirst,
      ih hdrop (List.cons.inj hrest).2]

theorem hexChars_length (id : Uuid) : (Uuid.hexChars id).length = 32 := by
  have hlength : ∀ bytes : List UInt8, (bytes.flatMap fun b =>
      [Nat.digitChar (b.toNat / 16), Nat.digitChar (b.toNat % 16)]).length = 2 * bytes.length := by
    intro bytes
    induction bytes with
    | nil => rfl
    | cons b bytes ih =>
      rw [flatMap_cons, length_append, ih, length_cons]
      exact (Nat.add_comm ..).trans (Nat.mul_succ ..).symm
  rw [Uuid.hexChars, hlength, Vector.length_toList]

theorem Uuid.display_injective : Function.Injective Uuid.display := by
  intro a b h
  have hchars := String.ofList_inj.1 h
  have hhex := hyphenate_inj ((hexChars_length a).trans (hexChars_length b).symm) hchars
  exact Vector.toList_inj.1 (hexChars_inj hhex)

/-- The first letters of the key tell the kinds apart. -/
def keyPrefix : Property → List Char
  | .name => ['n', 'a', 'm']
  | .intent => ['i', 'n', 't']
  | .lifecycle => ['l', 'i', 'f']
  | .sharing => ['s', 'h', 'a']
  | .audience => ['a', 'u', 'd']
  | .retention => ['r', 'e', 't']
  | .review _ => ['r', 'e', 'v']

theorem review_key (id : Uuid) :
    (key (.review id)).toList = 'r' :: 'e' :: 'v' :: ("iew:".toList ++ (Uuid.display id).toList) :=
  String.toList_append ..

theorem key_take (property : Property) : (key property).toList.take 3 = keyPrefix property := by
  cases property with
  | review id => exact congrArg (List.take 3) (review_key id)
  | _ => rfl

theorem key_injective : Function.Injective key := by
  intro a b h
  have hprefix : keyPrefix a = keyPrefix b := by rw [← key_take, ← key_take, h]
  cases a with
  | review id =>
    cases b with
    | review id' =>
      have hlist := congrArg String.toList h
      simp only [review_key, List.cons.injEq, true_and, append_cancel_left_eq] at hlist
      rw [Uuid.display_injective (String.toList_inj.1 hlist)]
    | _ => simp [keyPrefix] at hprefix
  | _ =>
    cases b with
    | review id' => simp [keyPrefix] at hprefix
    | _ => first | rfl | exact absurd hprefix (by decide)

end Keys

structure CollaborationScope where
  spool : Uuid
  thread : Option ContentHash
  deriving DecidableEq

structure CollaborationActor where
  principalId : Uuid
  agentId : Option String
  deriving DecidableEq

def Property.isReview : Property → Bool
  | .review _ => true
  | _ => false

/-- A signed control, as far as its causal register goes. -/
structure ThreadControl where
  spool : Uuid
  actor : CollaborationActor
  clientOperationId : Uuid
  property : Property
  deriving DecidableEq

inductive SourceAuthor where
  | localKey
  | account (spool : Uuid) (actor : CollaborationActor) (authorityDigest : ContentHash)
      (authority : Bytes)
  deriving DecidableEq

structure Capture (V : Type) where
  state : Bytes
  sourceTargets : Option ContentHash
  visibility : Option V
  deriving DecidableEq

structure AuthoredCapture (V : Type) where
  result : Capture V
  author : SourceAuthor
  deriving DecidableEq

structure HostedIntegration (V : Type) where
  spool : Uuid
  executor : Bytes
  sourceRevision : StateId
  targetThread : ContentHash
  expectedTargetFrontier : Finset ContentHash
  result : Capture V
  deriving DecidableEq

structure LocalIntegration (V : Type) where
  spool : Uuid
  device : Bytes
  author : SourceAuthor
  sourceRevision : StateId
  targetThread : ContentHash
  expectedTargetFrontier : Finset ContentHash
  result : Capture V
  resultVisibility : VisibilityTier
  deriving DecidableEq

structure ContextRevision (δ : Type) where
  id : Uuid
  scope : CollaborationScope
  extractedFrom : Option δ
  deriving DecidableEq

inductive ThreadOperationBody (V : Type) where
  | capture (capture : AuthoredCapture V)
  | integration (bytes : Bytes)
  | localIntegration (bytes : Bytes)
  | discussion (bytes : Bytes)
  | context (bytes : Bytes)
  | metadata (bytes : Bytes)
  deriving DecidableEq

structure ThreadOperation (V : Type) where
  version : UInt16
  thread : ContentHash
  parents : Finset ContentHash
  publisher : Bytes
  body : ThreadOperationBody V
  deriving DecidableEq

inductive GenesisOwner where
  | localKey (key : Bytes)
  | account (account : Uuid)
  deriving DecidableEq

structure ThreadGenesis where
  version : UInt16
  spool : String
  parent : Option ContentHash
  base : StateId
  name : String
  intent : String
  owner : GenesisOwner
  creator : Bytes
  nonce : Bytes
  deriving DecidableEq

structure ThreadCodec where
  leaves : CollaborationLeaves
  Verification : Type
  CaptureVisibility : Type
  CollaborationOperationId : Type
  DiscussionRecordId : Type
  decEqVisibility : DecidableEq CaptureVisibility
  operationOrder : LinearOrder CollaborationOperationId
  discussionOrder : LinearOrder DiscussionRecordId
  operationText : ToString CollaborationOperationId
  discussionText : ToString DiscussionRecordId
  blake3 : Bytes → ContentHash
  encode : ThreadOperation CaptureVisibility → Except HeddleError Bytes
  encodeGenesis : ThreadGenesis → Except HeddleError Bytes
  decodeState : Bytes → Except HeddleError (State Verification)
  encodeState : State Verification → Except HeddleError Bytes
  validateVisibility : CaptureVisibility → State Verification → Except HeddleError Unit
  decodeIntegration : Bytes → Except HeddleError (HostedIntegration CaptureVisibility)
  decodeLocalIntegration : Bytes → Except HeddleError (LocalIntegration CaptureVisibility)
  decodeControl : Bytes → Except HeddleError ThreadControl
  decodeContext : Bytes → Except HeddleError (ContextRevision DiscussionRecordId)
  decodeDiscussion : Bytes → Except HeddleError
    (DecodedCollaborationOperation leaves CollaborationOperationId DiscussionRecordId)
  metadataScope : leaves.Metadata → CollaborationScope
  contextOf : leaves.Context → ContextRevision DiscussionRecordId
  syntheticInitialBase : StateId

attribute [instance] ThreadCodec.decEqVisibility ThreadCodec.operationOrder
  ThreadCodec.discussionOrder ThreadCodec.operationText ThreadCodec.discussionText

def operationFormat : String := "heddle-thread-operation-v1"
def genesisFormat : String := "heddle-thread-genesis-v1"
def authorityFormat : String := "heddle-thread-control-authority-v1"
def maxSourceAuthorityBytes : Nat := 64 * 1024

def invalid (message : String) : HeddleError := .invalidObject message

def isControl (c : Char) : Bool := c.toNat < 0x20 || (0x7F ≤ c.toNat && c.toNat ≤ 0x9F)

section Operations
variable (codec : ThreadCodec)

abbrev Op := ThreadOperation codec.CaptureVisibility

def ThreadOperation.id (operation : Op codec) : Except HeddleError ContentHash :=
  (codec.encode operation).map (computeTyped codec.blake3 operationFormat)

def ThreadGenesis.id (genesis : ThreadGenesis) : Except HeddleError ContentHash :=
  (codec.encodeGenesis genesis).map (computeTyped codec.blake3 genesisFormat)

def ThreadOperation.facet (operation : ThreadOperation V) : ThreadFacet :=
  match operation.body with
  | .capture _ | .integration _ | .localIntegration _ => .source
  | .metadata _ => .metadata
  | .discussion _ | .context _ => .discussion

instance decidableExistsChar (p : Char → Prop) [DecidablePred p] (cs : List Char) :
    Decidable (∃ c ∈ cs, p c) :=
  List.decidableBEx p cs

def SourceAuthor.validate : SourceAuthor → Except HeddleError Unit
  | .localKey => .ok ()
  | .account spool actor authorityDigest authority => do
    refuse (Uuid.isNil spool ∨ Uuid.isNil actor.principalId ∨ ∃ id ∈ actor.agentId,
        id = "" ∨ 256 < id.utf8ByteSize ∨ ∃ c ∈ id.toList, isControl c = true)
      (invalid "invalid original source author identity")
    refuse (authority = [] ∨ maxSourceAuthorityBytes < authority.length ∨
        computeTyped codec.blake3 authorityFormat authority ≠ authorityDigest)
      (invalid "invalid original source authority binding")

def SourceAuthor.checkSpool (genesis : ThreadGenesis) : SourceAuthor → Except HeddleError Unit
  | .localKey => .ok ()
  | .account spool _ _ _ =>
    refuse (Uuid.display spool ≠ genesis.spool)
      (invalid "original source author crosses Spool scope")

def Capture.validatedState (capture : Capture codec.CaptureVisibility) :
    Except HeddleError (State codec.Verification) := do
  let state ← codec.decodeState capture.state
  let encoded ← codec.encodeState state
  refuse (encoded ≠ capture.state) (invalid "non-canonical capture")
  capture.visibility.elim (.ok ()) fun visibility => codec.validateVisibility visibility state
  return state

def ThreadOperation.sourceResult (operation : Op codec) :
    Except HeddleError (Option (Capture codec.CaptureVisibility)) :=
  match operation.body with
  | .capture capture => .ok (some capture.result)
  | .integration bytes => (codec.decodeIntegration bytes).map fun receipt => some receipt.result
  | .localIntegration bytes =>
    (codec.decodeLocalIntegration bytes).map fun receipt => some receipt.result
  | _ => .ok none

def ThreadOperation.sourceState (operation : Op codec) :
    Except HeddleError (Option (State codec.Verification)) := do
  match ← operation.sourceResult codec with
  | some capture => (capture.validatedState codec).map some
  | none => .ok none

def ThreadOperation.localIntegration (operation : Op codec) :
    Except HeddleError (Option (LocalIntegration codec.CaptureVisibility)) :=
  match operation.body with
  | .localIntegration bytes => (codec.decodeLocalIntegration bytes).map some
  | _ => .ok none

def ThreadOperation.contextRevision (operation : Op codec) :
    Except HeddleError (Option (ContextRevision codec.DiscussionRecordId)) :=
  match operation.body with
  | .context bytes => (codec.decodeContext bytes).map some
  | .discussion bytes => (codec.decodeDiscussion bytes).map fun record =>
    match record.operation.body with
    | .resolve (.intoContext context) => some (codec.contextOf context)
    | _ => none
  | _ => .ok none

end Operations

section ValidateParents
variable (codec : ThreadCodec) (genesis : ThreadGenesis) (parents : List (Op codec))

/-- The revisions of the parents, which must be source operations. -/
def sourceParents (message : String) : Except HeddleError (List StateId) :=
  parents.mapM fun parent => do
    let state ← parent.sourceState codec
    state.elim (.error (invalid message)) fun state => .ok state.stateId

/-- An evolution of sources with a reference closure has one too. -/
def checkReferenceClosure (operation : Op codec) : Except HeddleError Unit := do
  let result ← operation.sourceResult codec
  if ∃ capture ∈ result, capture.sourceTargets = none then
    parents.forM fun parent => do
      let inherited ← parent.sourceResult codec
      refuse (∃ capture ∈ inherited, capture.sourceTargets.isSome)
        (invalid "source evolution drops inherited reference closure")

def AuthoredCapture.validateParents (capture : AuthoredCapture codec.CaptureVisibility)
    (causal : Finset ContentHash) (imported : Bool) : Except HeddleError Unit := do
  capture.author.validate codec
  capture.author.checkSpool genesis
  let state ← codec.decodeState capture.result.state
  let revisions ← sourceParents codec parents "capture parent is not source"
  let declared := state.parents.filter (· ≠ genesis.base)
  refuse (((imported = false ∨ causal.Nonempty) ∧ declared.toFinset ≠ revisions.toFinset) ∨
      (imported = false ∧ state.parents = []) ∨
      (imported = true ∧ (genesis.base ∈ state.parents ∨ genesis.base ≠ codec.syntheticInitialBase)) ∨
      ¬ state.parents.Nodup)
    (invalid "capture source ancestry differs from causal parents")

/-- A merge has the revision it takes over and the revisions of its parents as parents. -/
def checkMergeParents (state : State codec.Verification) (sourceRevision : StateId)
    (revisions : List StateId) (message : String) : Except HeddleError Unit :=
  let expected := insert sourceRevision
    (if parents = [] then {genesis.base} else revisions.toFinset : Finset StateId)
  refuse (state.parents.toFinset ≠ expected ∨ state.parents.length ≠ expected.card) (invalid message)

def HostedIntegration.validateOperation (receipt : HostedIntegration V) (operation : ThreadOperation V) :
    Except HeddleError Unit :=
  refuse (receipt.targetThread ≠ operation.thread ∨ receipt.executor ≠ operation.publisher ∨
      receipt.expectedTargetFrontier ≠ operation.parents)
    (invalid "integration receipt differs from signed executor, target or frontier")

def HostedIntegration.validateParents (receipt : HostedIntegration codec.CaptureVisibility) :
    Except HeddleError Unit := do
  refuse (Uuid.display receipt.spool ≠ genesis.spool)
    (invalid "integration receipt belongs to another Spool")
  let state ← receipt.result.validatedState codec
  -- a fast-forward keeps the source state
  if state.stateId ≠ receipt.sourceRevision then do
    let revisions ← sourceParents codec parents "integration parent is not source"
    checkMergeParents codec genesis parents state receipt.sourceRevision revisions
      "integration result drops source or target ancestry"

def LocalIntegration.validateOperation (receipt : LocalIntegration V) (operation : ThreadOperation V) :
    Except HeddleError Unit :=
  refuse (receipt.targetThread ≠ operation.thread ∨ receipt.device ≠ operation.publisher ∨
      receipt.expectedTargetFrontier ≠ operation.parents)
    (invalid "local integration changes device, target or observed frontier")

def LocalIntegration.validateParents (receipt : LocalIntegration codec.CaptureVisibility) :
    Except HeddleError Unit := do
  refuse (Uuid.display receipt.spool ≠ genesis.spool)
    (invalid "local integration belongs to another Spool")
  let state ← receipt.result.validatedState codec
  let revisions ← sourceParents codec parents "local integration parent is not source"
  checkMergeParents codec genesis parents state receipt.sourceRevision revisions
    "local integration drops source or target ancestry"

def ThreadControl.validateParents (control : ThreadControl) : Except HeddleError Unit := do
  refuse (Uuid.display control.spool ≠ genesis.spool)
    (invalid "Thread control belongs to another Spool")
  parents.forM fun parent =>
    match parent.body with
    | .metadata bytes => do
      let parent ← codec.decodeControl bytes
      refuse (parent.spool ≠ control.spool ∨ parent.property ≠ control.property)
        (invalid "Thread property causal parents cross fields")
      refuse (control.property.isReview ∧ parent.actor ≠ control.actor)
        (invalid "review successor changes original actor")
    | _ => .error (invalid "Thread property parent is not metadata")

def ContextRevision.validateParents (context : ContextRevision codec.DiscussionRecordId) :
    Except HeddleError Unit := do
  refuse (Uuid.display context.scope.spool ≠ genesis.spool)
    (invalid "context belongs to another spool")
  refuse (parents = [] ∧ context.extractedFrom.isSome)
    (invalid "context extraction requires a signed discussion resolution")
  parents.forM fun parent => do
    let revision ← parent.contextRevision codec
    match revision with
    | none => .error (invalid "context parent is not a context revision or extraction")
    | some revision =>
      refuse (revision.id ≠ context.id ∨ revision.scope ≠ context.scope ∨
          revision.extractedFrom ≠ context.extractedFrom)
        (invalid "context parents belong to another record or scope")

/-- The collaboration ids of the parents, which must belong to the same discussion. -/
def discussionParents (discussionId : codec.DiscussionRecordId) :
    Except HeddleError (List codec.CollaborationOperationId) :=
  parents.mapM fun parent =>
    match parent.body with
    | .discussion bytes => do
      let record ← codec.decodeDiscussion bytes
      refuse (record.operation.discussionId ≠ discussionId) (invalid "parents cross discussions")
      return record.operationId
    | _ => .error (invalid "discussion parent is not discussion")

def validateDiscussionParents (bytes : Bytes) : Except HeddleError Unit := do
  let record ← codec.decodeDiscussion bytes
  refuse (∃ metadata ∈ record.operation.metadata,
      Uuid.display (codec.metadataScope metadata).spool ≠ genesis.spool)
    (invalid "collaboration metadata belongs to another spool")
  let ids ← discussionParents codec parents record.operation.discussionId
  refuse (ids.toFinset ≠ record.operation.parents.toFinset)
    (invalid "discussion causality differs from its canonical operation")

/-- What the parents of each kind of body have to be. -/
def ThreadOperation.validateBody (operation : Op codec) (imported : Bool) : Except HeddleError Unit :=
  match operation.body with
  | .capture capture => capture.validateParents codec genesis parents operation.parents imported
  | .integration bytes => do
    let receipt ← codec.decodeIntegration bytes
    receipt.validateOperation operation
    receipt.validateParents codec genesis parents
  | .localIntegration bytes => do
    let receipt ← codec.decodeLocalIntegration bytes
    receipt.validateOperation operation
    receipt.validateParents codec genesis parents
  | .metadata bytes => do
    let control ← codec.decodeControl bytes
    control.validateParents codec genesis parents
  | .context bytes => do
    let context ← codec.decodeContext bytes
    context.validateParents codec genesis parents
  | .discussion bytes => validateDiscussionParents codec genesis parents bytes

/-- Only an authenticated import is checked as `imported`. -/
def ThreadOperation.validateParentsInner (operation : Op codec) (imported : Bool) :
    Except HeddleError Unit := do
  let thread ← genesis.id codec
  refuse (operation.thread ≠ thread ∨ parents.length ≠ operation.parents.card)
    (invalid "Thread or causal parent set mismatch")
  let ids ← parents.mapM (ThreadOperation.id codec)
  refuse (ids.toFinset ≠ operation.parents ∨
      ∃ parent ∈ parents, parent.thread ≠ operation.thread ∨ parent.facet ≠ operation.facet)
    (invalid "causal parents cross Thread or disclosure facet")
  checkReferenceClosure codec parents operation
  operation.validateBody codec genesis parents imported

end ValidateParents

end Heddle.Replication
