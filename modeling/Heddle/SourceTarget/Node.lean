import Heddle.Lib.Effect
import Heddle.Lib.SortedMap
import Heddle.Object.RedactedCodec

namespace Heddle.SourceTarget
open Heddle.Lib

instance : LinearOrder ContentHash :=
  LinearOrder.lift' (fun hash => hash.asBytes.map UInt8.toNat) byteValues_injective

def magic : Bytes := utf8 "HDTM" ++ [1]
def leafEntries : Nat := 8
def levels : Nat := 52
/-- Largest canonical node: header, depth, bitmap and 32 (hash, count) children. -/
def maxNodeBytes : Nat := 5 + 1 + 1 + 4 + 32 * 40

structure MapStore (S E : Type) where
  read : ContentHash → Nat → S → Except E (Option Bytes) × S
  write : ContentHash → Bytes → S → Except E Unit × S

structure MapBudget where
  nodeReads : Nat
  readBytes : Nat
  nodeWrites : Nat
  writeBytes : Nat
  deriving DecidableEq

inductive MapError (E : Type) where
  | storage (e : E)
  | readBudget
  | writeBudget
  | missingNode (hash : ContentHash)
  | hashMismatch (hash : ContentHash)
  | invalidNode (message : String)
  deriving DecidableEq

@[ext] structure Link where
  hash : ContentHash
  count : Nat
  deriving DecidableEq

@[ext] structure Child where
  slot : Nat
  link : Link
  deriving DecidableEq

abbrev Binding := ContentHash × ContentHash

inductive Node where
  | leaf (entries : List Binding)
  | branch (depth : Nat) (children : List Child)
  deriving DecidableEq

namespace Node

def checkedAdd (total count : Nat) : Option Nat :=
  if total + count < 2 ^ 64 then some (total + count) else none

def count : Node → Option Nat
  | .leaf entries => some entries.length
  | .branch _ children => children.foldlM (fun total child => checkedAdd total child.link.count) 0

def bitmap (children : List Child) : Nat :=
  children.foldl (fun bits child => bits ||| 1 <<< child.slot) 0

def encode : Node → Bytes
  | .leaf entries =>
    magic ++ leBytes 1 0 ++ leBytes 1 entries.length ++
      entries.flatMap fun entry => entry.1.asBytes ++ entry.2.asBytes
  | .branch depth children =>
    magic ++ leBytes 1 1 ++ leBytes 1 depth ++ leBytes 4 (bitmap children) ++
      children.flatMap fun child => child.link.hash.asBytes ++ leBytes 8 child.link.count

end Node

/-- Five bits most-significant first; the final group has one real bit. -/
def group (key : ContentHash) (depth : Nat) : Nat :=
  (List.range 5).foldl (fun slot offset =>
    let bit := depth * 5 + offset
    slot <<< 1 |||
      if bit < 256 then ((key.asBytes.getD (bit / 8) 0).toNat >>> (7 - bit % 8)) &&& 1 else 0) 0

def take (n : Nat) : Reader String (Vector UInt8 n) := fun bytes =>
  if h : n ≤ bytes.length then
    .ok (⟨(bytes.take n).toArray, size_toArray_take h⟩, bytes.drop n)
  else .error "truncated node"

def takeHash : Reader String ContentHash := return ⟨← take 32⟩

def takeNumber (width : Nat) : Reader String Nat := return ofLeBytes (← take width).toList

def outsideRoute (route : List Nat) (key : ContentHash) : Bool :=
  route.zipIdx.any fun p => group key p.2 ≠ p.1

def readEntries (route : List Nat) : Nat → Option ContentHash → Reader String (List Binding)
  | 0, _ => pure []
  | n + 1, last => do
    let key ← takeHash
    let value ← takeHash
    liftRead (refuse (∃ k ∈ last, key ≤ k) "leaf keys are not strictly ordered")
    liftRead (refuse (outsideRoute route key) "leaf key is outside its route")
    let entries ← readEntries route n (some key)
    return (key, value) :: entries

def readChildren (bitmap : Nat) : List Nat → Reader String (List Child)
  | [] => pure []
  | slot :: slots =>
    if bitmap.testBit slot then do
      let hash ← takeHash
      let count ← takeNumber 8
      liftRead (refuse (count = 0) "empty child")
      let children ← readChildren bitmap slots
      return ⟨slot, hash, count⟩ :: children
    else readChildren bitmap slots

def readLeaf (route : List Nat) : Reader String Node := do
  let count ← takeNumber 1
  liftRead (refuse (¬(1 ≤ count ∧ count ≤ leafEntries)) "invalid leaf size")
  let entries ← readEntries route count none
  return .leaf entries

def readBranch (route : List Nat) : Reader String Node := do
  let depth ← takeNumber 1
  liftRead (refuse (depth ≠ route.length ∨ levels ≤ route.length) "invalid branch depth")
  let bitmap ← takeNumber 4
  liftRead (refuse (bitmap = 0) "empty branch")
  let children ← readChildren bitmap (List.range 32)
  let node := Node.branch depth children
  let total ← liftRead (node.count.elim (.error "subtree count overflow") .ok)
  liftRead (refuse (total ≤ leafEntries) "branch must collapse to a leaf")
  return node

def readNode (route : List Nat) : Reader String Node := do
  let found ← take 5
  liftRead (refuse (found.toList ≠ magic) "unsupported node format")
  let kind ← takeNumber 1
  match kind with
  | 0 => readLeaf route
  | 1 => readBranch route
  | _ => liftRead (.error "unknown node kind")

def decode (bytes : Bytes) (route : List Nat) : Except String Node := do
  let (node, rest) ← readNode route bytes
  refuse (rest ≠ []) "trailing node bytes"
  return node

structure Work (S : Type) where
  store : S
  budget : MapBudget

abbrev MapM (S E α : Type) := Effect (Work S) (MapError E) α

def onStore (op : S → Except E α × S) : MapM S E α := fun work =>
  match op work.store with
  | (.ok a, s) => (.ok a, { work with store := s })
  | (.error e, s) => (.error (.storage e), { work with store := s })

section Map
variable (blake3 : Bytes → ContentHash) (store : MapStore S E)

def blobHash (bytes : Bytes) : ContentHash := computeTyped blake3 "blob" bytes

/-- A read is charged before the store call, its bytes once they are known. -/
def chargedRead (hash : ContentHash) : MapM S E Bytes := fun work =>
  if work.budget.nodeReads = 0 ∨ work.budget.readBytes = 0 then (.error .readBudget, work)
  else
    let budget := { work.budget with nodeReads := work.budget.nodeReads - 1 }
    let limit := min budget.readBytes maxNodeBytes
    match store.read hash limit work.store with
    | (.error e, s) => (.error (.storage e), ⟨s, budget⟩)
    | (.ok none, s) => (.error (.missingNode hash), ⟨s, budget⟩)
    | (.ok (some bytes), s) =>
      if limit < bytes.length then (.error .readBudget, ⟨s, budget⟩)
      else (.ok bytes, ⟨s, { budget with readBytes := budget.readBytes - bytes.length }⟩)

def load (hash : ContentHash) (expectedCount : Option Nat) (route : List Nat) : MapM S E Node := do
  let bytes ← chargedRead store hash
  Effect.failIf (blobHash blake3 bytes ≠ hash) (.hashMismatch hash)
  let node ← Effect.ofExcept .invalidNode (decode bytes route)
  Effect.failIf (∃ count ∈ expectedCount, node.count ≠ some count)
    (.invalidNode "child count differs from parent")
  return node

def chargedWrite (hash : ContentHash) (bytes : Bytes) : MapM S E Unit := fun work =>
  if work.budget.nodeWrites = 0 ∨ work.budget.writeBytes < bytes.length then
    (.error .writeBudget, work)
  else
    let budget := { work.budget with
      nodeWrites := work.budget.nodeWrites - 1
      writeBytes := work.budget.writeBytes - bytes.length }
    match store.write hash bytes work.store with
    | (.error e, s) => (.error (.storage e), ⟨s, budget⟩)
    | (.ok (), s) => (.ok (), ⟨s, budget⟩)

def checkedCount (node : Node) : MapM S E Nat :=
  Effect.ofExcept .invalidNode (node.count.elim (.error "subtree count overflow") .ok)

def persist (node : Node) : MapM S E Link := do
  let count ← checkedCount node
  let bytes := node.encode
  let hash := blobHash blake3 bytes
  chargedWrite store hash bytes
  return ⟨hash, count⟩

def groups (entries : List Binding) (depth : Nat) : List (Nat × List Binding) :=
  (List.range 32).map fun slot => (slot, entries.filter (group ·.1 depth = slot))

/-- `below` counts the levels that are left under `depth`. -/
def build : Nat → List Binding → Nat → MapM S E Link
  | below, entries, depth =>
    if entries.length ≤ leafEntries then persist blake3 store (.leaf entries)
    else match below with
      | 0 => throw (.invalidNode "key route exhausted")
      | below + 1 => do
        let children ← (groups entries depth).foldlM (fun children (slot, entries) =>
          if entries = [] then pure children
          else do
            let link ← build below entries (depth + 1)
            return children ++ [⟨slot, link⟩]) []
        persist blake3 store (.branch depth children)

def collect (link : Link) (route : List Nat) (entries : List Binding) :
    MapM S E (List Binding) := do
  Effect.failIf (leafEntries < link.count) (.invalidNode "collapse exceeds leaf bound")
  match ← load blake3 store link.hash (some link.count) route with
  | .leaf leaf =>
    Effect.failIf (leafEntries < entries.length + leaf.length)
      (.invalidNode "collapse exceeds leaf bound")
    return entries ++ leaf
  | .branch _ _ => throw (.invalidNode "small subtree is not canonical")

def editEntries (entries : List Binding) (key : ContentHash) (value : Option ContentHash) :
    Option (List Binding) :=
  match binarySearchBy Prod.fst key entries, value with
  | .ok (index, entry), some value =>
    if entry.2 = value then none else some (entries.set index (entry.1, value))
  | .error _, none => none
  | .ok (index, _), none => some (entries.eraseIdx index)
  | .error index, some value => some (entries.insertIdx index (key, value))

def editChildren (children : List Child) (slot : Nat) (next : Option Link) : Option (List Child) :=
  match binarySearchBy Child.slot slot children, next with
  | .ok (index, child), some link => some (children.set index { child with link })
  | .ok (index, _), none => some (children.eraseIdx index)
  | .error index, some link => some (children.insertIdx index ⟨slot, link⟩)
  | .error _, none => none

def previousLink (children : List Child) (slot : Nat) : Option Link :=
  (binarySearchBy Child.slot slot children).toOption.map (·.2.link)

/-- The node for a branch's edited children: none, a leaf of what is left, or a branch again. -/
def persistChildren (depth : Nat) (children : List Child) (route : List Nat) :
    MapM S E (Option Link) :=
  if children = [] then return none
  else do
    let count ← checkedCount (.branch depth children)
    if count ≤ leafEntries then do
      let entries ← children.foldlM (fun entries child =>
        collect blake3 store child.link (route ++ [child.slot]) entries) []
      return some (← persist blake3 store (.leaf (sortBy Prod.fst entries)))
    else return some (← persist blake3 store (.branch depth children))

/-- One node of an update; `descend` updates the child. -/
def updateNode (descend : Option (ContentHash × Option Nat) → List Nat → MapM S E (Option Link))
    (key : ContentHash) (value : Option ContentHash) (old : Option (ContentHash × Option Nat))
    (route : List Nat) : MapM S E (Option Link) :=
  match old with
  | none =>
    match value with
    | none => return none
    | some value => return some (← persist blake3 store (.leaf [(key, value)]))
  | some (hash, expectedCount) => do
    let node ← load blake3 store hash expectedCount route
    let count ← checkedCount node
    let original : Link := ⟨hash, count⟩
    match node with
    | .leaf entries =>
      match editEntries entries key value with
      | none => return some original
      | some entries =>
        if entries = [] then return none
        else return some (← build blake3 store (levels - route.length) entries route.length)
    | .branch depth children =>
      let slot := group key route.length
      let previous := previousLink children slot
      let next ← descend (previous.map fun link => (link.hash, some link.count)) (route ++ [slot])
      if previous = next then return some original
      else match editChildren children slot next with
        | none => return some original
        | some children => persistChildren blake3 store depth children route

/-- No branch is decoded below the last level, so the descent ends there. -/
def updateAt (key : ContentHash) (value : Option ContentHash) :
    Nat → Option (ContentHash × Option Nat) → List Nat → MapM S E (Option Link)
  | 0 => updateNode blake3 store (fun _ _ => throw (.invalidNode "invalid branch depth")) key value
  | below + 1 => updateNode blake3 store (updateAt key value below) key value

/-- `none` deletes the key. -/
def SourceTargetMap.update (root : Option ContentHash) (key : ContentHash) (value : Option ContentHash) :
    MapM S E (Option ContentHash) := do
  let link ← updateAt blake3 store key value levels (root.map fun hash => (hash, none)) []
  return link.map Link.hash

def SourceTargetMap.updateAll (root : Option ContentHash) (changes : List (ContentHash × Option ContentHash)) :
    MapM S E (Option ContentHash) :=
  changes.foldlM (fun root change => SourceTargetMap.update blake3 store root change.1 change.2) root

def getNode (descend : ContentHash → Option Nat → List Nat → MapM S E (Option ContentHash))
    (key hash : ContentHash) (expectedCount : Option Nat) (route : List Nat) :
    MapM S E (Option ContentHash) := do
  match ← load blake3 store hash expectedCount route with
  | .leaf entries =>
    return (binarySearchBy Prod.fst key entries).toOption.map (·.2.2)
  | .branch _ children =>
    let slot := group key route.length
    match binarySearchBy Child.slot slot children with
    | .error _ => return none
    | .ok (_, child) => descend child.link.hash (some child.link.count) (route ++ [slot])

def getAt (key : ContentHash) : Nat → ContentHash → Option Nat → List Nat →
    MapM S E (Option ContentHash)
  | 0 => getNode blake3 store (fun _ _ _ => throw (.invalidNode "invalid branch depth")) key
  | below + 1 => getNode blake3 store (getAt key below) key

def SourceTargetMap.get (root : Option ContentHash) (key : ContentHash) : MapM S E (Option ContentHash) :=
  match root with
  | none => return none
  | some hash => getAt blake3 store key levels hash none []

structure Pending where
  hash : ContentHash
  count : Option Nat
  route : List Nat
  deriving DecidableEq

/-- A round takes one node off the stack and spends a read on it, so the reads that are left bound
the rounds. -/
def walk (onLeaf : α → List Binding → MapM S E α) : Nat → List Pending → α → MapM S E α
  | _, [], result => return result
  | 0, _ :: _, _ => throw .readBudget
  | rounds + 1, next :: pending, result => do
    match ← load blake3 store next.hash next.count next.route with
    | .leaf entries =>
      let result ← onLeaf result entries
      walk onLeaf rounds pending result
    | .branch _ children =>
      let below := children.map fun child =>
        (⟨child.link.hash, some child.link.count, next.route ++ [child.slot]⟩ : Pending)
      walk onLeaf rounds (below ++ pending) result

def pendingRoot (root : Option ContentHash) : List Pending :=
  root.toList.map fun hash => ⟨hash, none, []⟩

def walkFrom (onLeaf : α → List Binding → MapM S E α) (root : Option ContentHash) (start : α) :
    MapM S E α := fun work =>
  walk blake3 store onLeaf work.budget.nodeReads (pendingRoot root) start work

def SourceTargetMap.entries (root : Option ContentHash) (limit : Nat) : MapM S E (List Binding) := do
  let result ← walkFrom blake3 store (fun result entries => do
    Effect.failIf (limit < result.length + entries.length) .readBudget
    return result ++ entries) root []
  return sortBy Prod.fst result

/-- The visitor carries its own state from one entry to the next. -/
def SourceTargetMap.visitEntries (root : Option ContentHash)
    (visitor : ContentHash → ContentHash → V → S → Except E V × S) (start : V) : MapM S E V :=
  walkFrom blake3 store (fun v entries =>
    entries.foldlM (fun v entry => onStore (visitor entry.1 entry.2 v)) v) root start

end Map

end Heddle.SourceTarget
