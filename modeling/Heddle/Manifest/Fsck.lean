import Heddle.Manifest.Build

namespace Heddle.Manifest
open Heddle.Lib

inductive FsckRule where
  | malformedNode
  | nonCanonicalNodeEncoding
  | trailingBytes
  | leafEntriesOutOfOrder
  | duplicateObjectKey
  | emptyBranchBitmap
  | nodeDigestMismatch
  | subtreeSummaryMismatch
  | objectSizeMismatch
  | danglingNodeRef
  | danglingObjectRef
  | leafOverfull
  | underfullBranch
  | emptyNonRootLeaf
  | branchDepthMismatch
  | misroutedEntry
  | nonCanonicalTrieShape
  | depthExceeded
  deriving DecidableEq

def ManifestDecodeError.fsckRule : ManifestDecodeError → FsckRule
  | .badMagic | .unsupportedVersion _ | .unknownNodeTag _ | .unknownObjectKind _ | .truncated => .malformedNode
  | .trailingBytes => .trailingBytes
  | .entriesOutOfOrder => .leafEntriesOutOfOrder
  | .duplicateObjectKey _ => .duplicateObjectKey
  | .emptyBranchBitmap => .emptyBranchBitmap
  | .nonCanonicalEncoding => .nonCanonicalNodeEncoding
  | .addressMismatch _ _ => .nodeDigestMismatch

inductive FsckDetail where
  | pastRoute
  | absentNode
  | bytesHashTo (actual : ContentHash)
  | undecodable (error : ManifestDecodeError)
  | emptyLeaf
  | leafHolds (depth entries : Nat)
  | absentObject (key : ManifestKey)
  | objectHolds (key : ManifestKey) (declared size : UInt64)
  | declaresDepth (declared : UInt8) (depth : Nat)
  | routesTo (key : ManifestKey) (group depth slot : Nat)
  | summarizes (child : ManifestChild) (count bytes : Nat)
  | subtreeHolds (count : Nat)
  | rebuildsTo (objects : Nat) (root : ContentHash)
  deriving DecidableEq

structure FsckFinding where
  rule : FsckRule
  node : Option ContentHash
  detail : FsckDetail
  deriving DecidableEq

abbrev ManifestObjectIndex := ManifestKey → Option UInt64

structure Walk where
  visited : List ContentHash
  objects : List ManifestObject
  report : List FsckFinding
  expansionComplete : Bool

def Walk.start : Walk := ⟨[], [], [], true⟩

def Walk.enter (walk : Walk) (hash : ContentHash) : Walk := { walk with visited := hash :: walk.visited }

def Walk.push (walk : Walk) (rule : FsckRule) (hash : ContentHash) (detail : FsckDetail) : Walk :=
  { walk with report := walk.report ++ [⟨rule, some hash, detail⟩] }

def Walk.pushIf (p : Prop) [Decidable p] (walk : Walk) (rule : FsckRule) (hash : ContentHash)
    (detail : FsckDetail) : Walk :=
  if p then walk.push rule hash detail else walk

/-- A node that cannot be read leaves the expansion incomplete. -/
def Walk.unread (walk : Walk) (rule : FsckRule) (hash : ContentHash) (detail : FsckDetail) : Walk :=
  { walk.push rule hash detail with expansionComplete := false }

section Fsck
variable (blake3 : Bytes → ContentHash) (source : NodeSource) (index : Option ManifestObjectIndex)

def checkIndexed (hash : ContentHash) (walk : Walk) (entry : ManifestObject) : Walk :=
  match index with
  | none => walk
  | some decodedSize =>
    match decodedSize entry.key with
    | none => walk.push .danglingObjectRef hash (.absentObject entry.key)
    | some size => walk.pushIf (size ≠ entry.decodedSize) .objectSizeMismatch hash
        (.objectHolds entry.key entry.decodedSize size)

def visitEntry (hash : ContentHash) (walk : Walk) (entry : ManifestObject) : Walk :=
  let walk := checkIndexed index hash walk entry
  { walk with objects := walk.objects ++ [entry] }

def visitLeaf (hash : ContentHash) (depth : Nat) (isRoot : Bool) (leaf : ManifestLeaf) (walk : Walk) :
    Option (Nat × Nat) × Walk :=
  let walk := walk.pushIf (leaf.entries = [] ∧ isRoot = false) .emptyNonRootLeaf hash .emptyLeaf
  let walk := walk.pushIf (manifestLeafMaxEntries < leaf.entries.length ∧ depth < manifestRouteLevels)
    .leafOverfull hash (.leafHolds depth leaf.entries.length)
  let decodedBytes := leaf.entries.foldl
    (fun bytes entry => cappedAdd (2 ^ 64) bytes entry.decodedSize.toNat) 0
  (some (leaf.entries.length, decodedBytes), leaf.entries.foldl (visitEntry index hash) walk)

structure Totals where
  count : Nat
  bytes : Nat
  summarized : Bool

def checkRoute (depth : Nat) (child : ManifestChild) (walk : Walk) (entry : ManifestObject) : Walk :=
  walk.pushIf ((entry.route blake3).group depth ≠ child.slot) .misroutedEntry child.hash
    (.routesTo entry.key ((entry.route blake3).group depth) depth child.slot)

/-- Only what this child newly expanded is checked against its slot. -/
def visitChild (visitBelow : ContentHash → Walk → Option (Nat × Nat) × Walk) (hash : ContentHash)
    (depth : Nat) (state : Totals × Walk) (child : ManifestChild) : Totals × Walk :=
  let before := state.2.objects.length
  let (summary, walk) := visitBelow child.hash state.2
  let walk := (walk.objects.drop before).foldl (checkRoute blake3 depth child) walk
  match summary with
  | some (count, bytes) =>
    ({ state.1 with
        count := state.1.count + count
        bytes := cappedAdd (2 ^ 64) state.1.bytes bytes },
      walk.pushIf (UInt64.ofNat count ≠ child.objectCount ∨ UInt64.ofNat bytes ≠ child.decodedBytes)
        .subtreeSummaryMismatch hash (.summarizes child count bytes))
  | none => ({ state.1 with summarized := false }, walk)

def visitBranch (visitBelow : ContentHash → Walk → Option (Nat × Nat) × Walk) (hash : ContentHash)
    (depth : Nat) (branch : ManifestBranch) (walk : Walk) : Option (Nat × Nat) × Walk :=
  let walk := walk.pushIf (branch.depth.toNat ≠ depth) .branchDepthMismatch hash
    (.declaresDepth branch.depth depth)
  let (totals, walk) := branch.children.foldl (visitChild blake3 visitBelow hash depth) (⟨0, 0, true⟩, walk)
  if totals.summarized then
    (some (totals.count, totals.bytes),
      walk.pushIf (totals.count ≤ manifestLeafMaxEntries ∧ depth < manifestRouteLevels) .underfullBranch hash
        (.subtreeHolds totals.count))
  else (none, walk)

/-- `below` counts the levels that may still be entered. -/
def visit : Nat → ContentHash → Nat → Bool → Walk → Option (Nat × Nat) × Walk
  | 0, hash, _, _, walk => (none, walk.unread .depthExceeded hash .pastRoute)
  | below + 1, hash, depth, isRoot, walk =>
    if hash ∈ walk.visited then (none, walk)
    else
      let walk := walk.enter hash
      match source hash with
      | none => (none, walk.unread .danglingNodeRef hash .absentNode)
      | some bytes =>
        if blake3 bytes ≠ hash then
          (none, walk.unread .nodeDigestMismatch hash (.bytesHashTo (blake3 bytes)))
        else match ManifestNode.decode bytes with
          | .error error => (none, walk.unread error.fsckRule hash (.undecodable error))
          | .ok (.leaf leaf) => visitLeaf index hash depth isRoot leaf walk
          | .ok (.branch branch) => visitBranch blake3
              (fun child walk => visit below child (depth + 1) false walk) hash depth branch walk

def walkFrom (root : ContentHash) : Walk :=
  (visit blake3 source index (manifestRouteLevels + 1) root 0 true .start).2

/-- A rebuild that fails is passed over. -/
def fsckManifestWith (root : ContentHash) : List FsckFinding :=
  let walk := walkFrom blake3 source index root
  if walk.expansionComplete then
    match buildManifest blake3 walk.objects with
    | .ok rebuilt =>
      if rebuilt.root ≠ root then
        walk.report ++ [⟨.nonCanonicalTrieShape, some root, .rebuildsTo walk.objects.length rebuilt.root⟩]
      else walk.report
    | .error _ => walk.report
  else walk.report

def fsckManifest (root : ContentHash) : List FsckFinding := fsckManifestWith blake3 source none root

end Fsck

end Heddle.Manifest
