import Heddle.Object.State

namespace Heddle
open Heddle.Lib Heddle.Oplog

inductive CollaborationCodecError where
  | encoding (message : String)
  | invalid (message : String)
  -- indexing a map without the key
  | panicked
  deriving DecidableEq

/-- What an operation carries and a discussion only passes on, with the checks of it. -/
structure CollaborationLeaves where
  Source : Type
  Tag : Type
  Context : Type
  Metadata : Type
  Locator : Type
  decEqSource : DecidableEq Source
  decEqTag : DecidableEq Tag
  decEqContext : DecidableEq Context
  locatorOrder : LinearOrder Locator
  validateSource : Source → Except CollaborationCodecError Unit
  validateAnnotationTags : List Tag → Except CollaborationCodecError Unit
  encodeContext : Context → Except CollaborationCodecError Bytes
  validateMetadata : Metadata → Except CollaborationCodecError Unit
  turnContentHash : String → ContentHash

attribute [instance] CollaborationLeaves.decEqSource CollaborationLeaves.decEqTag
  CollaborationLeaves.decEqContext CollaborationLeaves.locatorOrder

section Data
variable (τ : CollaborationLeaves)

inductive CollaborationAnchor where
  | source (source : τ.Source)
  | repository
  | state (stateId : StateId)
  | change (changeId : ChangeId)
  | path (stateId : StateId) (path : String)
  | symbol (stateId : StateId) (path symbol : String)
  deriving DecidableEq

inductive CollaborationAnchorStatus where
  | current
  | moved
  | ambiguous
  | orphaned
  deriving DecidableEq

structure DiscussionTurn where
  body : String
  contentHash : ContentHash
  deriving DecidableEq

inductive AnnotationKind where
  | constraint
  | invariant
  | rationale
  deriving DecidableEq

inductive CollaborationResolution where
  | addressedByState (stateId : StateId)
  | addressedByChange (changeId : ChangeId)
  | dismissed (reason : String)
  | intoContext (context : τ.Context)
  | intoAnnotation (kind : AnnotationKind) (content : String) (tags : List String)
  | annotation (annotationId : String)
  deriving DecidableEq

inductive LegacyDiscussionResolution where
  | isOpen
  | addressedByState (stateId : StateId)
  | dismissed (reason : String)
  | annotation (annotationId : String)
  deriving DecidableEq

inductive CollaborationOperationBody (ι : Type) where
  | isOpen (blocking : Bool) (title : String) (anchor : CollaborationAnchor τ)
      (visibility : VisibilityTier) (turn : DiscussionTurn) (threadRef : Option String)
      (tags : List τ.Tag)
  | appendTurn (turn : DiscussionTurn)
  | editTags (tags : List τ.Tag)
  | rebindAnchor (anchor : CollaborationAnchor τ) (status : CollaborationAnchorStatus)
      (bodyChangedSinceOpen : Bool)
  | resolve (resolution : CollaborationResolution τ)
  | reopen (reason : String)
  | resolveConflict (competing : List ι) (selected : ι)
  | legacyImported (aliases : List τ.Locator) (title : String) (anchor : CollaborationAnchor τ)
      (visibility : VisibilityTier) (turns : List DiscussionTurn)
      (resolution : LegacyDiscussionResolution)

structure CollaborationOperationEnvelope (ι δ : Type) where
  metadata : Option τ.Metadata
  discussionId : δ
  parents : List ι
  occurredAtMs : Int
  body : CollaborationOperationBody τ ι

structure DecodedCollaborationOperation (ι δ : Type) where
  operationId : ι
  operation : CollaborationOperationEnvelope τ ι δ

end Data

section Validate
variable {τ : CollaborationLeaves}

def isWhiteSpace (c : Char) : Bool :=
  (9 ≤ c.toNat && c.toNat ≤ 13) || c.toNat ∈ [0x20, 0x85, 0xA0, 0x1680, 0x2028, 0x2029, 0x202F, 0x205F,
    0x3000] || (0x2000 ≤ c.toNat && c.toNat ≤ 0x200A)

def requireText (value field : String) : Except CollaborationCodecError Unit :=
  refuse (value.toList.all isWhiteSpace) (.invalid (field ++ " must not be empty"))

def validateAnchor : CollaborationAnchor τ → Except CollaborationCodecError Unit
  | .source source => τ.validateSource source
  | .path _ path => requireText path "anchor path"
  | .symbol _ path symbol => do
    requireText path "anchor path"
    requireText symbol "anchor symbol"
  | .repository | .state _ | .change _ => .ok ()

def validateResolution : CollaborationResolution τ → Except CollaborationCodecError Unit
  | .dismissed reason => requireText reason "dismiss reason"
  | .intoContext context => (τ.encodeContext context).map fun _ => ()
  | CollaborationResolution.intoAnnotation _ content _ => requireText content "annotation content"
  | CollaborationResolution.annotation annotationId => requireText annotationId "annotation id"
  | _ => .ok ()

def validateLegacyResolution : LegacyDiscussionResolution → Except CollaborationCodecError Unit
  | .dismissed reason => requireText reason "dismiss reason"
  | LegacyDiscussionResolution.annotation annotationId => requireText annotationId "annotation id"
  | _ => .ok ()

def DiscussionTurn.validate (τ : CollaborationLeaves) (turn : DiscussionTurn) :
    Except CollaborationCodecError Unit := do
  requireText turn.body "turn body"
  refuse (τ.turnContentHash turn.body ≠ turn.contentHash)
    (.invalid "turn content hash does not match its body")

def SortedUnique [LinearOrder α] (xs : List α) : Prop := xs.IsChain (· < ·)

instance [LinearOrder α] (xs : List α) : Decidable (SortedUnique xs) :=
  inferInstanceAs (Decidable (xs.IsChain (· < ·)))

namespace CollaborationOperationBody
variable [LinearOrder ι]

def isRoot : CollaborationOperationBody τ ι → Bool
  | .isOpen .. | .legacyImported .. => true
  | _ => false

def competing : CollaborationOperationBody τ ι → List ι
  | .resolveConflict competing _ => competing
  | _ => []

def validate : CollaborationOperationBody τ ι → Except CollaborationCodecError Unit
  | .isOpen _ title anchor _ turn threadRef tags => do
    requireText title "discussion title"
    validateAnchor anchor
    threadRef.elim (.ok ()) fun threadRef => requireText threadRef "discussion thread ref"
    τ.validateAnnotationTags tags
    turn.validate τ
  | .appendTurn turn => turn.validate τ
  | .editTags tags => τ.validateAnnotationTags tags
  | .rebindAnchor anchor _ _ => validateAnchor anchor
  | .resolve resolution => validateResolution resolution
  | .reopen reason => requireText reason "reopen reason"
  | .resolveConflict competing selected => do
    refuse (competing.length < 2 ∨ selected ∉ competing) (.invalid
      "conflict resolution must select one of at least two competing operations")
    refuse (¬ SortedUnique competing) (.invalid
      "competing operation ids must be sorted and unique")
  | .legacyImported aliases title anchor _ turns resolution => do
    requireText title "discussion title"
    validateAnchor anchor
    refuse (¬ SortedUnique aliases) (.invalid "legacy aliases must be sorted and unique")
    refuse turns.isEmpty (.invalid "legacy import must contain a turn")
    turns.forM fun turn => turn.validate τ
    validateLegacyResolution resolution

end CollaborationOperationBody

def CollaborationOperationEnvelope.validate [LinearOrder ι]
    (operation : CollaborationOperationEnvelope τ ι δ) : Except CollaborationCodecError Unit := do
  operation.metadata.elim (.ok ()) τ.validateMetadata
  refuse (¬ SortedUnique operation.parents) (.invalid
    "parent operation ids must be sorted and unique")
  refuse (operation.body.isRoot ∧ operation.parents ≠ []) (.invalid
    "discussion root operation cannot have parents")
  refuse (¬ operation.body.isRoot ∧ operation.parents = []) (.invalid
    "non-root collaboration operation requires a parent")
  refuse (∃ id ∈ operation.body.competing, id ∉ operation.parents) (.invalid
    "conflict resolution must causally follow every competing operation")
  operation.body.validate

end Validate

end Heddle
