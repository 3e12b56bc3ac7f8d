import Heddle.Merge.Content
import Mathlib.Data.List.AList

namespace Heddle.Merge
open Heddle.Lib List

inductive OpaqueLeaf where
  | gitlink (target : GitObjectId)
  | spoollink (spoolId : SpoolId) (stateId : StateId)
  deriving DecidableEq

structure FlatLeaf (H : Type) where
  hash : H
  entryType : EntryType
  executable : Bool
  opaqueLeaf : Option OpaqueLeaf
  deriving DecidableEq

namespace FlatLeaf

def blob (hash : H) (executable : Bool) : FlatLeaf H := ⟨hash, .blob, executable, none⟩

def symlink (hash : H) : FlatLeaf H := ⟨hash, .symlink, false, none⟩

def gitlink (env : MergeEnv H) (target : GitObjectId) : FlatLeaf H :=
  ⟨env.computeTyped "flat-gitlink" target.asBytes, .gitlink, false, some (.gitlink target)⟩

def spoollink (env : MergeEnv H) (spoolId : SpoolId) (stateId : StateId) : FlatLeaf H :=
  ⟨env.computeTyped "flat-spoollink" (utf8 spoolId.text ++ stateId.bytes.toList), .spoollink, false,
    some (.spoollink spoolId stateId)⟩

end FlatLeaf

/-- A map from paths to leaves; the order of its entries is the order in which it is iterated. -/
abbrev FlatTree (H : Type) := AList (fun _ : String => FlatLeaf H)

def joinPath (parent name : String) : String :=
  if parent.isEmpty then name else parent ++ "/" ++ name

def splitChars : List Char → Option (List Char × List Char)
  | [] => none
  | c :: cs => if c = '/' then some ([], cs) else (splitChars cs).map (fun p => (c :: p.1, p.2))

def splitOnce (path : String) : Option (String × String) :=
  (splitChars path.toList).map (fun p => (String.ofList p.1, String.ofList p.2))

theorem splitChars_eq_none : splitChars cs = none ↔ '/' ∉ cs := by
  induction cs with
  | nil => exact ⟨fun _ => not_mem_nil, fun _ => rfl⟩
  | cons c cs ih =>
    unfold splitChars
    split
    · rename_i hc
      simp [hc]
    · rename_i hc
      rw [Option.map_eq_none_iff, ih, mem_cons, not_or]
      exact ⟨fun h => ⟨Ne.symm hc, h⟩, fun h => h.2⟩

theorem splitChars_append (hd : '/' ∉ directory) (rest : List Char) :
    splitChars (directory ++ '/' :: rest) = some (directory, rest) := by
  induction directory with
  | nil => rfl
  | cons c cs ih =>
    obtain ⟨hc, hcs⟩ := not_or.1 (fun h => hd (mem_cons.2 h))
    rw [cons_append, splitChars, if_neg (Ne.symm hc), ih hcs]
    rfl

theorem splitChars_eq_some (h : splitChars cs = some (directory, rest)) :
    cs = directory ++ '/' :: rest ∧ '/' ∉ directory := by
  induction cs generalizing directory with
  | nil => cases h
  | cons c cs ih =>
    unfold splitChars at h
    split at h
    · rename_i hc
      cases h
      exact ⟨by rw [hc]; rfl, not_mem_nil⟩
    · rename_i hc
      rw [Option.map_eq_some_iff] at h
      obtain ⟨⟨d, r⟩, hsplit, heq⟩ := h
      obtain ⟨rfl, rfl⟩ := Prod.mk.inj heq
      obtain ⟨rfl, hd⟩ := ih hsplit
      refine ⟨rfl, fun hmem => ?_⟩
      rcases mem_cons.1 hmem with hslash | hmem
      · exact hc hslash.symm
      · exact hd hmem

theorem splitOnce_eq_none : splitOnce path = none ↔ '/' ∉ path.toList := by
  rw [splitOnce, Option.map_eq_none_iff, splitChars_eq_none]

theorem join_toList (directory rest : String) :
    (directory ++ "/" ++ rest).toList = directory.toList ++ '/' :: rest.toList := by
  have hsep : "/".toList = ['/'] := by decide
  rw [String.toList_append, String.toList_append, hsep, append_assoc, singleton_append]

theorem splitOnce_eq_some (h : splitOnce path = some (directory, rest)) :
    path = directory ++ "/" ++ rest ∧ '/' ∉ directory.toList := by
  rw [splitOnce, Option.map_eq_some_iff] at h
  obtain ⟨⟨d, r⟩, hsplit, heq⟩ := h
  obtain ⟨rfl, rfl⟩ := Prod.mk.inj heq
  obtain ⟨hpath, hd⟩ := splitChars_eq_some hsplit
  rw [← String.toList_inj, join_toList, String.toList_ofList, String.toList_ofList]
  exact ⟨hpath, hd⟩

theorem splitOnce_join (hd : '/' ∉ directory.toList) (rest : String) :
    splitOnce (directory ++ "/" ++ rest) = some (directory, rest) := by
  rw [splitOnce, join_toList, splitChars_append hd, Option.map_some, String.ofList_toList,
    String.ofList_toList]

section Flatten
variable (env : MergeEnv H)

def requireTree (hash : H) : Except Failure (Tree H) := do
  match ← env.getTree hash with
  | some tree => return tree
  | none => .error (.missingObject "tree" (env.hashText hash))

def extend (result added : FlatTree H) : FlatTree H :=
  added.entries.foldl (fun result entry => result.insert entry.1 entry.2) result

def flattenEntry (flattenSubtree : Tree H → String → Except Failure (FlatTree H)) (parent : String)
    (result : FlatTree H) (entry : TreeEntry H) : Except Failure (FlatTree H) :=
  let path := joinPath parent entry.name
  match entry.target with
  | .blob hash executable => .ok (result.insert path (.blob hash executable))
  | .symlink hash => .ok (result.insert path (.symlink hash))
  | .tree hash => do
    let subtree ← requireTree env hash
    let flat ← flattenSubtree subtree path
    return extend result flat
  | .gitlink target => .ok (result.insert path (.gitlink env target))
  | .spoollink spoolId stateId => .ok (result.insert path (.spoollink env spoolId stateId))

/-- The leaves below a tree. `fuel` bounds the nesting of the stored trees. -/
def flattenTree : Nat → Tree H → String → Except Failure (FlatTree H)
  | 0, _, _ => .error (.message "tree nesting is deeper than the recursion limit")
  | fuel + 1, tree, parent =>
    tree.entries.foldlM (flattenEntry env (flattenTree fuel) parent) ∅

inductive LeafOf : FlatLeaf H → Prop
  | blob (hash : H) (executable : Bool) : LeafOf (.blob hash executable)
  | symlink (hash : H) : LeafOf (.symlink hash)
  | gitlink (target : GitObjectId) : LeafOf (.gitlink env target)
  | spoollink (spoolId : SpoolId) (stateId : StateId) : LeafOf (.spoollink env spoolId stateId)

def FlatTree.Leaves (flat : FlatTree H) : Prop :=
  ∀ path leaf, flat.lookup path = some leaf → LeafOf env leaf

variable {env}

theorem FlatTree.Leaves.insert (h : FlatTree.Leaves env flat) (hleaf : LeafOf env leaf)
    (path : String) : FlatTree.Leaves env (AList.insert path leaf flat) := by
  intro path' leaf' hl
  by_cases hp : path' = path
  · subst hp
    rw [AList.lookup_insert] at hl
    exact Option.some.inj hl ▸ hleaf
  · rw [AList.lookup_insert_ne hp] at hl
    exact h path' leaf' hl

theorem FlatTree.Leaves.extend (h : FlatTree.Leaves env result) (ha : FlatTree.Leaves env added) :
    FlatTree.Leaves env (extend result added) := by
  have hmem : ∀ entry ∈ added.entries, LeafOf env entry.2 :=
    fun entry hentry => ha entry.1 entry.2 (AList.mem_lookup_iff.2 hentry)
  unfold Merge.extend
  generalize added.entries = entries at hmem
  induction entries generalizing result with
  | nil => exact h
  | cons entry entries ih =>
    exact ih (h.insert (hmem entry mem_cons_self) entry.1)
      fun e he => hmem e (mem_cons_of_mem _ he)

theorem flattenEntry_leaves
    (hsub : ∀ tree parent flat, flattenSubtree tree parent = .ok flat → FlatTree.Leaves env flat)
    (h : FlatTree.Leaves env result)
    (hr : flattenEntry env flattenSubtree parent result entry = .ok result') :
    FlatTree.Leaves env result' := by
  unfold flattenEntry at hr
  cases ht : entry.target with
  | blob hash executable =>
    rw [ht] at hr
    cases hr
    exact h.insert (.blob hash executable) _
  | symlink hash =>
    rw [ht] at hr
    cases hr
    exact h.insert (.symlink hash) _
  | gitlink target =>
    rw [ht] at hr
    cases hr
    exact h.insert (.gitlink target) _
  | spoollink spoolId stateId =>
    rw [ht] at hr
    cases hr
    exact h.insert (.spoollink spoolId stateId) _
  | tree hash =>
    rw [ht] at hr
    simp only [bind_eq_ok] at hr
    obtain ⟨subtree, _, flat, hflat, hr⟩ := hr
    cases hr
    exact h.extend (hsub _ _ _ hflat)

theorem flattenTree_leaves (h : flattenTree env fuel tree parent = .ok flat) :
    FlatTree.Leaves env flat := by
  induction fuel generalizing tree parent flat with
  | zero => cases h
  | succ fuel ih =>
    have hempty : FlatTree.Leaves env (∅ : FlatTree H) := by
      intro path leaf hl
      rw [AList.lookup_empty] at hl
      cases hl
    exact foldlM_except_inv
      (fun _ _ _ hstep hs => flattenEntry_leaves (fun _ _ _ hflat => ih hflat) hs hstep) h hempty

end Flatten

structure RenameMatch (H : Type) where
  fromPath : String
  toPath : String
  fromHash : H
  toHash : H
  fromExecutable : Bool
  toExecutable : Bool
  toEntryType : EntryType
  deriving DecidableEq

abbrev RenameMap (H : Type) := AList (fun _ : String => RenameMatch H)

structure MergeRenameMap (H : Type) where
  ourRenames : RenameMap H
  theirRenames : RenameMap H

def unionExecutable (left right : Bool) : Bool := left || right

def mergeExecutableValues (base our their : Bool) : Bool :=
  if our = their then our
  else if our = base then their
  else if their = base then our
  else unionExecutable our their

def mergeExecutable (base our their : FlatLeaf H) : Bool :=
  mergeExecutableValues base.executable our.executable their.executable

def mergeEntryType (base our their : FlatLeaf H) : Option EntryType :=
  if our.entryType = their.entryType then some our.entryType
  else if our.entryType = base.entryType then some their.entryType
  else if their.entryType = base.entryType then some our.entryType
  else none

def leafFromRename (rename : RenameMatch H) : FlatLeaf H :=
  ⟨rename.toHash, rename.toEntryType, rename.toExecutable, none⟩

def entryOr (entry : Except TreeError (TreeEntry H)) : Except Failure (TreeEntry H) :=
  entry.mapError .tree

def leafToTreeEntry (name : String) (leaf : FlatLeaf H) : Except Failure (TreeEntry H) :=
  match leaf.entryType with
  | .blob => entryOr (TreeEntry.file name leaf.hash leaf.executable)
  | .symlink => entryOr (TreeEntry.symlink name leaf.hash)
  | .gitlink =>
    match leaf.opaqueLeaf with
    | some (.gitlink target) => entryOr (TreeEntry.gitlink name target)
    | _ => .error (.message ("flat Gitlink leaf " ++ name.quote ++ " has no Git target"))
  | .spoollink =>
    match leaf.opaqueLeaf with
    | some (.spoollink spoolId stateId) => entryOr (TreeEntry.spoollink name spoolId stateId)
    | _ => .error (.message ("flat Spoollink leaf " ++ name.quote ++ " has no spool target"))
  | .tree => .error (.message ("flat merge leaf " ++ name.quote ++ " has tree entry type"))

def resolveMergedLeaf (hash : H) (our their : FlatLeaf H) (contentWasMerged : Bool) : FlatLeaf H :=
  if ¬ contentWasMerged ∧ our.entryType = their.entryType ∧ our.entryType = .symlink then
    .symlink hash
  else if ¬ contentWasMerged ∧ our.entryType = their.entryType ∧ our.entryType = .blob then
    .blob hash (unionExecutable our.executable their.executable)
  else
    .blob hash (unionExecutable (our.entryType = .blob && our.executable)
      (their.entryType = .blob && their.executable))

end Heddle.Merge
