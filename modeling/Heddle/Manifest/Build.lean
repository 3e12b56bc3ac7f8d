import Heddle.Manifest.NodeCodec
import Mathlib.Data.Finset.Sort

namespace Heddle.Manifest
open Heddle.Lib List

abbrev NodeSource := ContentHash → Option Bytes

structure BuiltManifest where
  root : ContentHash
  nodes : SortedMap ContentHash Bytes
  objectCount : Nat
  decodedBytes : Nat

inductive ManifestBuildError where
  | conflictingDuplicate (key : ManifestKey) (first second : UInt64)
  | decodedBytesOverflow
  | node (source : ManifestNodeError)
  deriving DecidableEq

structure Summary where
  hash : ContentHash
  objectCount : Nat
  decodedBytes : Nat
  deriving DecidableEq

abbrev Inserted := List (ContentHash × Bytes)

def insertUnique (unique : SortedMap ManifestKey ManifestObject) (object : ManifestObject) :
    Except ManifestBuildError (SortedMap ManifestKey ManifestObject) := do
  match unique.get object.key with
  | none => pure ()
  | some existing =>
    refuse (existing.decodedSize ≠ object.decodedSize)
      (.conflictingDuplicate object.key existing.decodedSize object.decodedSize)
  return unique.put object.key (some object)

def uniqueEntries (objects : List ManifestObject) : Except ManifestBuildError (List ManifestObject) := do
  let unique ← objects.foldlM insertUnique SortedMap.empty
  return unique.entries.map Prod.snd

section Build
variable (blake3 : Bytes → ContentHash)

def insertedNode (node : ManifestNode) : ContentHash × Bytes := (blake3 node.encode, node.encode)

def buildLeaf (entries : List ManifestObject) : Except ManifestBuildError (Summary × Inserted) := do
  let leaf ← (ManifestLeaf.new entries).mapError .node
  let decodedBytes ← leaf.decodedBytes.elim (.error .decodedBytesOverflow) .ok
  let node := insertedNode blake3 (.leaf leaf)
  return (⟨node.1, leaf.entries.length, decodedBytes⟩, [node])

def bucket (entries : List ManifestObject) (depth slot : Nat) : List ManifestObject :=
  entries.filter fun entry => (entry.route blake3).group depth = slot

structure Progress where
  children : List ManifestChild
  objectCount : Nat
  decodedBytes : Nat
  nodes : Inserted

def addChild (slot : Nat) (progress : Progress) (child : Summary × Inserted) :
    Except ManifestBuildError Progress := do
  let decodedBytes ← (checkedAdd (2 ^ 64) progress.decodedBytes child.1.decodedBytes).elim
    (.error .decodedBytesOverflow) .ok
  return {
    children := progress.children ++
      [⟨slot, child.1.hash, .ofNat child.1.objectCount, .ofNat child.1.decodedBytes⟩]
    objectCount := progress.objectCount + child.1.objectCount
    decodedBytes
    nodes := progress.nodes ++ child.2 }

def buildBranch (depth : Nat) (progress : Progress) : Except ManifestBuildError (Summary × Inserted) := do
  let branch ← (ManifestBranch.new (.ofNat depth) progress.children).mapError .node
  let node := insertedNode blake3 (.branch branch)
  return (⟨node.1, progress.objectCount, progress.decodedBytes⟩, progress.nodes ++ [node])

/-- `below` counts the levels that are left under `depth`. -/
def buildLevel : Nat → List ManifestObject → Nat → Except ManifestBuildError (Summary × Inserted)
  | 0, entries, _ => buildLeaf blake3 entries
  | below + 1, entries, depth =>
    if entries.length ≤ manifestLeafMaxEntries then buildLeaf blake3 entries
    else do
      let progress ← (List.range manifestBranchWidth).foldlM (fun progress slot =>
        if bucket blake3 entries depth slot = [] then pure progress
        else do
          let child ← buildLevel below (bucket blake3 entries depth slot) (depth + 1)
          addChild slot progress child) ⟨[], 0, 0, []⟩
      buildBranch blake3 depth progress

def nodeMap (inserted : Inserted) : SortedMap ContentHash Bytes :=
  inserted.foldl (fun nodes node => nodes.put node.1 (some node.2)) SortedMap.empty

def buildManifest (objects : List ManifestObject) : Except ManifestBuildError BuiltManifest := do
  let entries ← uniqueEntries objects
  let (summary, inserted) ← buildLevel blake3 manifestRouteLevels entries 0
  return {
    root := summary.hash
    nodes := nodeMap inserted
    objectCount := summary.objectCount
    decodedBytes := summary.decodedBytes }

end Build

inductive ManifestExpandError where
  | missingNode (hash : ContentHash)
  | decode (hash : ContentHash) (source : ManifestDecodeError)
  | depthExceeded (hash : ContentHash)
  deriving DecidableEq

structure Expansion where
  visited : List ContentHash
  objects : Finset ManifestObject

section Expand
variable (blake3 : Bytes → ContentHash) (source : NodeSource)

/-- `below` counts the levels that may still be entered. -/
def expandNode : Nat → ContentHash → Expansion → Except ManifestExpandError Expansion
  | 0, hash, _ => .error (.depthExceeded hash)
  | below + 1, hash, found =>
    if hash ∈ found.visited then .ok found
    else do
      let found := { found with visited := hash :: found.visited }
      let bytes ← (source hash).elim (.error (.missingNode hash)) .ok
      let node ← (ManifestNode.decodeAddressed blake3 bytes hash).mapError (.decode hash)
      match node with
      | .leaf leaf => return { found with objects := found.objects ∪ leaf.entries.toFinset }
      | .branch branch =>
        branch.children.foldlM (fun found child => expandNode below child.hash found) found

def expandManifest (root : ContentHash) : Except ManifestExpandError (List ManifestObject) := do
  let found ← expandNode blake3 source (manifestRouteLevels + 1) root ⟨[], ∅⟩
  return found.objects.sort (· ≤ ·)

end Expand

def Consistent (objects : List ManifestObject) : Prop :=
  ∀ a ∈ objects, ∀ b ∈ objects, a.key = b.key → a = b

def Names (unique : SortedMap ManifestKey ManifestObject) (objects : List ManifestObject) : Prop :=
  ∀ key object, unique.get key = some object ↔ object ∈ objects ∧ object.key = key

theorem names_empty : Names SortedMap.empty [] :=
  fun _ _ => ⟨nofun, fun h => nomatch h.1⟩

section
variable (h : Names unique objects)
include h

theorem Names.consistent : Consistent objects := by
  intro a ha b hb hkey
  have hget := (h b.key a).2 ⟨ha, hkey⟩
  rw [(h b.key b).2 ⟨hb, rfl⟩] at hget
  exact (Option.some.inj hget).symm

theorem insertUnique_ok_iff : insertUnique unique object = .ok unique' ↔
    (∀ a ∈ objects, a.key = object.key → a = object) ∧
      unique' = unique.put object.key (some object) := by
  unfold insertUnique
  cases hget : unique.get object.key with
  | none =>
    constructor
    · intro hinsert
      refine ⟨?_, (Except.ok.inj hinsert).symm⟩
      intro a ha hkey
      rw [(h object.key a).2 ⟨ha, hkey⟩] at hget
      cases hget
    · rintro ⟨_, rfl⟩
      rfl
  | some existing =>
    obtain ⟨hmem, hkey⟩ := (h _ _).1 hget
    simp only [bind_eq_ok, refuse_eq_ok, not_not, pure_eq_ok, Except.ok.injEq]
    constructor
    · rintro ⟨_, hsize, rfl⟩
      refine ⟨?_, rfl⟩
      intro a ha hkey'
      rw [h.consistent a ha existing hmem (hkey'.trans hkey.symm)]
      exact ManifestObject.ext_key hkey hsize
    · rintro ⟨hsame, rfl⟩
      exact ⟨(), congrArg ManifestObject.decodedSize (hsame existing hmem hkey), rfl⟩

theorem Names.put (hsame : ∀ a ∈ objects, a.key = object.key → a = object) :
    Names (unique.put object.key (some object)) (objects ++ [object]) := by
  intro key found
  rw [SortedMap.get_put, mem_append, mem_singleton]
  split
  · rename_i hkey
    constructor
    · rintro ⟨⟩
      exact ⟨.inr rfl, hkey.symm⟩
    · rintro ⟨hmem | rfl, hfound⟩
      · rw [hsame found hmem (hfound.trans hkey)]
      · rfl
  · rename_i hkey
    rw [h key found]
    constructor
    · intro ⟨hmem, hfound⟩
      exact ⟨.inl hmem, hfound⟩
    · rintro ⟨hmem | rfl, hfound⟩
      · exact ⟨hmem, hfound⟩
      · exact absurd hfound.symm hkey

theorem names_of_fold (hfold : rest.foldlM insertUnique unique = .ok unique') :
    Names unique' (objects ++ rest) := by
  induction rest generalizing unique objects with
  | nil =>
    cases hfold
    rwa [append_nil]
  | cons object rest ih =>
    rw [foldlM_cons] at hfold
    obtain ⟨middle, hinsert, hrest⟩ := bind_eq_ok.1 hfold
    obtain ⟨hsame, rfl⟩ := (insertUnique_ok_iff h).1 hinsert
    have hnames := ih (h.put hsame) hrest
    rwa [append_assoc] at hnames

theorem fold_of_consistent (hall : Consistent (objects ++ rest)) :
    ∃ unique', rest.foldlM insertUnique unique = .ok unique' := by
  induction rest generalizing unique objects with
  | nil => exact ⟨unique, rfl⟩
  | cons object rest ih =>
    have hsame : ∀ a ∈ objects, a.key = object.key → a = object := fun a ha hkey =>
      hall a (mem_append_left _ ha) object (mem_append_right _ mem_cons_self) hkey
    have hsplit : objects ++ object :: rest = objects ++ [object] ++ rest := by
      rw [append_assoc, singleton_append]
    obtain ⟨unique', hrest⟩ := ih (h.put hsame) (hsplit ▸ hall)
    refine ⟨unique', ?_⟩
    rw [foldlM_cons]
    exact bind_eq_ok.2 ⟨_, (insertUnique_ok_iff h).2 ⟨hsame, rfl⟩, hrest⟩

end

theorem uniqueEntries_ok_iff : uniqueEntries objects = .ok entries ↔
    Consistent objects ∧ SortedBy ManifestObject.key entries ∧ ∀ object, object ∈ entries ↔ object ∈ objects := by
  have hspec : ∀ unique, objects.foldlM insertUnique SortedMap.empty = .ok unique →
      SortedBy ManifestObject.key (unique.entries.map Prod.snd) ∧
        ∀ object, object ∈ unique.entries.map Prod.snd ↔ object ∈ objects := by
    intro unique hfold
    have hnames : Names unique objects := names_of_fold names_empty hfold
    have hkey : ∀ e ∈ unique.entries, e.2.key = e.1 :=
      fun e he => ((hnames e.1 e.2).1 (SortedMap.get_eq_some.2 he)).2
    refine ⟨?_, ?_⟩
    · refine pairwise_map.2 (List.Pairwise.imp_of_mem ?_ unique.sorted)
      intro a b ha hb hlt
      rwa [hkey a ha, hkey b hb]
    · intro object
      rw [mem_map]
      constructor
      · rintro ⟨e, he, rfl⟩
        exact ((hnames e.1 e.2).1 (SortedMap.get_eq_some.2 he)).1
      · intro hmem
        exact ⟨(object.key, object), SortedMap.get_eq_some.1 ((hnames _ _).2 ⟨hmem, rfl⟩), rfl⟩
  unfold uniqueEntries
  simp only [bind_eq_ok, pure_eq_ok, Except.ok.injEq]
  constructor
  · rintro ⟨unique, hfold, rfl⟩
    have hnames : Names unique objects := names_of_fold names_empty hfold
    exact ⟨hnames.consistent, hspec unique hfold⟩
  · rintro ⟨hall, hsorted, hmem⟩
    obtain ⟨unique, hfold⟩ : ∃ unique, objects.foldlM insertUnique SortedMap.empty = .ok unique :=
      fold_of_consistent names_empty hall
    obtain ⟨hsorted', hmem'⟩ := hspec unique hfold
    refine ⟨unique, hfold, sortedBy_ext_mem hsorted' hsorted ?_⟩
    intro object
    rw [hmem, hmem']

theorem uniqueEntries_congr (h : ∀ object, object ∈ objects ↔ object ∈ objects')
    (hunique : uniqueEntries objects = .ok entries) :
    uniqueEntries objects' = .ok entries := by
  obtain ⟨hall, hsorted, hmem⟩ := uniqueEntries_ok_iff.1 hunique
  refine uniqueEntries_ok_iff.2 ⟨?_, hsorted, fun object => (hmem object).trans (h object)⟩
  intro a ha b hb
  exact hall a ((h a).2 ha) b ((h b).2 hb)

end Heddle.Manifest
