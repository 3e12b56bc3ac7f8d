import Heddle.Collaboration.Operation
import Heddle.Lib.BreadthFirst
import Heddle.Lib.CausalOrder
import Heddle.Lib.GroupBy
import Mathlib.Data.Prod.Lex

namespace Heddle
open Heddle.Lib Heddle.Oplog

attribute [local instance] lawfulBEq_of_linearOrder

variable {τ : CollaborationLeaves}

section Causality
variable [LinearOrder ι] {id : ι} (all : List (DecodedCollaborationOperation τ ι δ))

def findOperation (id : ι) : Option (DecodedCollaborationOperation τ ι δ) :=
  lookupBy DecodedCollaborationOperation.operationId id all

def causalGraph : ParentGraph ι := fun id => (findOperation all id).map fun op => op.operation.parents

theorem mem_operationIds (h : findOperation all id = some op) :
    id ∈ all.map DecodedCollaborationOperation.operationId :=
  lookupBy_isSome.1 (Option.isSome_of_eq_some h)

theorem parentsOf_causalGraph (h : findOperation all id = some op) :
    (causalGraph all).parentsOf id = op.operation.parents := by
  rw [ParentGraph.parentsOf, causalGraph, h]
  rfl

def pendingWork (pending seen : List ι) : Nat :=
  pending.length + unseenWork (fun id => ((causalGraph all).parentsOf id).length)
    (all.map DecodedCollaborationOperation.operationId) seen

def precedesFrom (ancestor : ι) (pending seen : List ι) : Bool :=
  match pending with
  | [] => false
  | id :: pending =>
    if id = ancestor then true
    else if _hseen : id ∈ seen then precedesFrom ancestor pending seen
    else
      match _hop : findOperation all id with
      | none => precedesFrom ancestor pending (id :: seen)
      | some op => precedesFrom ancestor (op.operation.parents.reverse ++ pending) (id :: seen)
termination_by pendingWork all pending seen
decreasing_by
  · rw [pendingWork, pendingWork, List.length_cons]
    omega
  · have hle := unseenWork_cons_le (fun id => ((causalGraph all).parentsOf id).length)
      (all.map DecodedCollaborationOperation.operationId) seen id
    rw [pendingWork, pendingWork, List.length_cons]
    omega
  · have hwork := unseenWork_cons (fun id => ((causalGraph all).parentsOf id).length)
      (mem_operationIds all _hop) _hseen
    rw [parentsOf_causalGraph all _hop] at hwork
    rw [pendingWork, pendingWork, List.length_cons, List.length_append, List.length_reverse]
    omega

def precedes (ancestor : ι) (descendant : DecodedCollaborationOperation τ ι δ) : Bool :=
  precedesFrom all ancestor descendant.operation.parents.reverse []

def maximalOperations (ops : List (DecodedCollaborationOperation τ ι δ)) :
    List (DecodedCollaborationOperation τ ι δ) :=
  ops.filter fun candidate => ops.all fun other =>
    candidate.operationId = other.operationId ∨ ¬ precedes all candidate.operationId other

variable [ToString ι]

def resolutionOutcome (id : ι) (visiting : List ι) :
    Except CollaborationCodecError (Option (CollaborationResolution τ)) :=
  if _hvisiting : id ∈ visiting then
    .error (.invalid ("collaboration conflict resolution cycle at " ++ toString id))
  else
    match _hop : findOperation all id with
    | none => .error (.invalid ("missing operation " ++ toString id))
    | some op =>
      match op.operation.body with
      | .resolve resolution => .ok (some resolution)
      | .reopen _ => .ok none
      | .resolveConflict _ selected => resolutionOutcome selected (id :: visiting)
      | _ => .error (.invalid ("operation " ++ toString id ++
          " does not select a resolution outcome"))
termination_by unseenWork (fun _ => 1) (all.map DecodedCollaborationOperation.operationId) visiting
decreasing_by
  have hwork := unseenWork_cons (fun _ => 1) (mem_operationIds all _hop) _hvisiting
  omega

end Causality

section Discussion

structure MaterializedDiscussion (τ : CollaborationLeaves) (ι δ : Type) where
  blocking : Bool
  discussionId : δ
  title : String
  anchor : CollaborationAnchor τ
  anchorStatus : CollaborationAnchorStatus
  bodyChangedSinceOpen : Bool
  visibility : VisibilityTier
  threadRef : Option String
  tags : List τ.Tag
  turns : List (ι × DiscussionTurn)
  resolution : Option (CollaborationResolution τ)
  conflictOperations : List ι
  heads : List ι
  displayHead : ι

def legacyResolution : LegacyDiscussionResolution → Option (CollaborationResolution τ)
  | .isOpen => none
  | .addressedByState stateId => some (.addressedByState stateId)
  | .dismissed reason => some (.dismissed reason)
  | LegacyDiscussionResolution.annotation annotationId =>
    some <| CollaborationResolution.annotation annotationId

structure DiscussionRoot (τ : CollaborationLeaves) where
  blocking : Bool
  title : String
  anchor : CollaborationAnchor τ
  visibility : VisibilityTier
  threadRef : Option String
  turns : List DiscussionTurn
  resolution : Option (CollaborationResolution τ)
  tags : List τ.Tag

def CollaborationOperationBody.root? : CollaborationOperationBody τ ι → Option (DiscussionRoot τ)
  | .isOpen blocking title anchor visibility turn threadRef tags =>
    some ⟨blocking, title, anchor, visibility, threadRef, [turn], none, tags⟩
  | .legacyImported _ title anchor visibility turns resolution =>
    some ⟨false, title, anchor, visibility, none, turns, legacyResolution resolution, []⟩
  | _ => none

namespace DecodedCollaborationOperation

def appendedTurn (op : DecodedCollaborationOperation τ ι δ) : Option (ι × DiscussionTurn) :=
  match op.operation.body with
  | .appendTurn turn => some (op.operationId, turn)
  | _ => none

def editedTags (op : DecodedCollaborationOperation τ ι δ) : Option (List τ.Tag) :=
  match op.operation.body with
  | .editTags tags => some tags
  | _ => none

def reboundAnchor (op : DecodedCollaborationOperation τ ι δ) :
    Option (CollaborationAnchor τ × CollaborationAnchorStatus × Bool) :=
  match op.operation.body with
  | .rebindAnchor anchor status bodyChangedSinceOpen => some (anchor, status, bodyChangedSinceOpen)
  | _ => none

def isStateOperation (op : DecodedCollaborationOperation τ ι δ) : Bool :=
  match op.operation.body with
  | .resolve _ | .reopen _ | .resolveConflict .. => true
  | _ => false

end DecodedCollaborationOperation

variable [LinearOrder ι] [ToString ι] [ToString δ] (all : List (DecodedCollaborationOperation τ ι δ))

def sortById (ops : List (DecodedCollaborationOperation τ ι δ)) :
    List (DecodedCollaborationOperation τ ι δ) :=
  sortBy DecodedCollaborationOperation.operationId ops

def materializeAnchor (rootAnchor : CollaborationAnchor τ)
    (anchorOperations : List (DecodedCollaborationOperation τ ι δ)) :
    CollaborationAnchor τ × CollaborationAnchorStatus × Bool :=
  let outcomes := (maximalOperations all anchorOperations).filterMap
    DecodedCollaborationOperation.reboundAnchor
  match outcomes with
  | [] => (rootAnchor, .current, false)
  | first :: _ =>
    if outcomes.all (· = first) then first
    else (rootAnchor, .ambiguous, outcomes.any fun outcome => outcome.2.2)

/-- The ids of the operations in conflict, and the resolution when there is none. -/
def materializeResolution (base : Option (CollaborationResolution τ))
    (stateOperations : List (DecodedCollaborationOperation τ ι δ)) :
    Except CollaborationCodecError (List ι × Option (CollaborationResolution τ)) := do
  let maximal := maximalOperations all stateOperations
  let outcomes ← maximal.mapM fun op => resolutionOutcome all op.operationId []
  match outcomes with
  | [] => return ([], base)
  | first :: _ =>
    if outcomes.all (· = first) then return ([], first)
    else return (maximal.map DecodedCollaborationOperation.operationId, none)

/-- The tags, and the ids of the operations in conflict; `tagOperations` are tag edits. -/
def materializeTags (rootTags : List τ.Tag)
    (tagOperations : List (DecodedCollaborationOperation τ ι δ)) : List τ.Tag × List ι :=
  let maximal := maximalOperations all tagOperations
  match maximal.filterMap DecodedCollaborationOperation.editedTags with
  | [] => (rootTags, [])
  | selected :: rest =>
    if rest.all (· = selected) then (selected, [])
    else (rootTags, maximal.map DecodedCollaborationOperation.operationId)

/-- `ops` are the visible operations of the discussion, in causal order. -/
def materializeDiscussion (discussionId : δ) (ops : List (DecodedCollaborationOperation τ ι δ)) :
    Except CollaborationCodecError (MaterializedDiscussion τ ι δ) := do
  let roots := ops.filter fun op => op.operation.parents.isEmpty
  match roots with
  | [rootOperation] =>
    let rootId := rootOperation.operationId
    match rootOperation.operation.body.root? with
    | none => .error (.invalid ("discussion " ++ toString discussionId ++
        " root is not an open or legacy import"))
    | some root =>
      let rest := ops.filter fun op => op.operationId ≠ rootId
      rest.forM fun op => refuse op.operation.body.root?.isSome (.invalid ("discussion " ++
        toString discussionId ++ " has multiple root operations"))
      let (anchor, anchorStatus, bodyChangedSinceOpen) := materializeAnchor all root.anchor
        (sortById (rest.filter fun op => op.reboundAnchor.isSome))
      let (stateConflicts, resolution) ← materializeResolution all root.resolution
        (sortById (rest.filter fun op => op.isStateOperation))
      let (tags, tagConflicts) := materializeTags all root.tags
        (sortById (rest.filter fun op => op.editedTags.isSome))
      let heads := (maximalOperations all (sortById ops)).map
        DecodedCollaborationOperation.operationId
      match heads with
      | [] => .error (.invalid "discussion has no causal head")
      | displayHead :: _ =>
        return { blocking := root.blocking, discussionId, title := root.title, anchor,
                 anchorStatus, bodyChangedSinceOpen, visibility := root.visibility,
                 threadRef := root.threadRef, tags,
                 turns := root.turns.map (fun turn => (rootId, turn)) ++
                   rest.filterMap DecodedCollaborationOperation.appendedTurn,
                 resolution,
                 conflictOperations :=
                   (stateConflicts ++ tagConflicts).dedup.insertionSort (· ≤ ·),
                 heads, displayHead }
  | _ => .error (.invalid ("discussion " ++ toString discussionId ++ " has " ++
      toString roots.length ++ " roots"))

end Discussion

section Repository
variable [LinearOrder ι] [LinearOrder δ]

structure MaterializedRepositoryCollaboration (τ : CollaborationLeaves) (ι δ : Type) where
  discussions : List (δ × MaterializedDiscussion τ ι δ)
  pending : List ι

def insertOperation (byId : List (DecodedCollaborationOperation τ ι δ))
    (op : DecodedCollaborationOperation τ ι δ) :
    Except CollaborationCodecError (List (DecodedCollaborationOperation τ ι δ)) := do
  refuse (findOperation byId op.operationId).isSome
    (.invalid "duplicate collaboration operation id")
  return upsertBy DecodedCollaborationOperation.operationId op.operationId (fun _ => op) byId

/-- The earliest of the operations whose parents are all visible; of these the least id. -/
def nextVisible (byId : List (DecodedCollaborationOperation τ ι δ)) (visible : List ι) : Option ι :=
  ((byId.filter fun op => op.operationId ∉ visible ∧
    ∀ parent ∈ op.operation.parents, parent ∈ visible).map fun op =>
      toLex (op.operation.occurredAtMs, op.operationId)).min?.map fun key => (ofLex key).2

/-- The operations with a complete past, in causal order: each round adds one. -/
def visibleOrder (byId : List (DecodedCollaborationOperation τ ι δ)) : List ι :=
  schedule (nextVisible byId) byId.length []

variable [ToString ι] [ToString δ]

def requireOperation (byId : List (DecodedCollaborationOperation τ ι δ)) (id : ι) :
    Except CollaborationCodecError (DecodedCollaborationOperation τ ι δ) :=
  (findOperation byId id).elim (.error .panicked) .ok

def checkParents (byId : List (DecodedCollaborationOperation τ ι δ))
    (op : DecodedCollaborationOperation τ ι δ) : Except CollaborationCodecError Unit :=
  op.operation.parents.forM fun parent => do
    let found ← requireOperation byId parent
    refuse (found.operation.discussionId ≠ op.operation.discussionId) (.invalid ("operation " ++
      toString op.operationId ++ " has a parent from another discussion"))

def materializeRepositoryCollaboration (operations : List (DecodedCollaborationOperation τ ι δ)) :
    Except CollaborationCodecError (MaterializedRepositoryCollaboration τ ι δ) := do
  let byId ← operations.foldlM insertOperation []
  let visible := visibleOrder byId
  let ordered ← visible.mapM (requireOperation byId)
  ordered.forM (checkParents byId)
  let discussions ← (groupBy (fun op => op.operation.discussionId) ordered).mapM fun group => do
    return (group.1, ← materializeDiscussion byId group.1 group.2)
  return ⟨discussions, (byId.map DecodedCollaborationOperation.operationId).filter (· ∉ visible)⟩

end Repository

end Heddle
