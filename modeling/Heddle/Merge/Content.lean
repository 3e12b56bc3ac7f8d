import Heddle.Merge.Diff3
import Heddle.Lib.Fold

namespace Heddle.Merge
open Heddle.Lib

structure MergeError where
  error : String
  unsafeCondition : String
  wouldChange : String
  preserved : String
  deriving DecidableEq

inductive Failure where
  | repositoryIntegrity (refusal : MergeError)
  | tree (error : TreeError)
  | missingObject (objectType id : String)
  | message (text : String)
  | store (text : String)
  deriving DecidableEq

inductive MergeStrategy where
  | hunkOnly
  | semantic
  deriving DecidableEq

structure ConflictLabels where
  current : String
  incoming : String
  strategy : MergeStrategy

def ConflictLabels.default : ConflictLabels :=
  { current := "CURRENT", incoming := "INCOMING", strategy := .hunkOnly }

/-- What every function of a tree merge receives: the object store, the source of blob contents, the
labels and the optional semantic driver. `H` is the content hash. -/
structure MergeEnv (H : Type) where
  loadBlob : H → String → Except Failure Bytes
  putBlob : Bytes → Except Failure H
  getTree : H → Except Failure (Option (Tree H))
  putTree : Tree H → Except Failure H
  computeTyped : String → Bytes → H
  hashText : H → String
  gitObjectText : GitObjectId → String
  captureDiffSlices : List Line → List Line → List DiffOp
  semanticMerge : Option (Bytes → Bytes → Bytes → String → ConflictMarkers → MergeOutcome)
  labels : ConflictLabels

def blobEnv : MergeEnv Bytes where
  loadBlob hash _ := .ok hash
  putBlob bytes := .ok bytes
  getTree _ := .ok none
  putTree _ := .error (.store "trees are not stored")
  computeTyped typePrefix content := utf8 typePrefix ++ content
  hashText hash := hash.toString
  gitObjectText target := target.asBytes.toString
  captureDiffSlices old new := [.replace 0 old.length 0 new.length]
  semanticMerge := none
  labels := .default

def framed (bytes : Bytes) : Bytes := List.replicate bytes.length 1 ++ 0 :: bytes

def targetBytes : TreeEntryTarget Bytes → Bytes
  | .blob hash executable => (if executable then 1 else 0) :: framed hash
  | .tree hash => 2 :: framed hash
  | .symlink hash => 3 :: framed hash
  | .gitlink target => 4 :: framed target.asBytes
  | .spoollink spoolId stateId => 5 :: framed (utf8 spoolId.text) ++ stateId.bytes.toList

def encodeTree (tree : Tree Bytes) : Bytes :=
  tree.entries.flatMap (fun entry => framed (utf8 entry.name) ++ targetBytes entry.target)

def treeEnv (stored : List (Tree Bytes)) : MergeEnv Bytes :=
  { blobEnv with
    getTree hash := .ok (stored.find? (fun tree => encodeTree tree = hash))
    putTree tree := match tree.validate with
      | .ok () => .ok (encodeTree tree)
      | .error error => .error (.tree error) }

/-- The first scalar of a UTF-8 text, or its first maximal ill-formed part: its length in bytes and
whether it is well formed. -/
def utf8Chunk (b : UInt8) (rest : Bytes) : Nat × Bool :=
  let cont (c : UInt8) : Bool := 0x80 ≤ c && c ≤ 0xBF
  if b < 0x80 then (1, true)
  else if 0xC2 ≤ b && b ≤ 0xDF then
    match rest with
    | c :: _ => if cont c then (2, true) else (1, false)
    | [] => (1, false)
  else if 0xE0 ≤ b && b ≤ 0xEF then
    let second (c : UInt8) : Bool :=
      if b = 0xE0 then 0xA0 ≤ c && c ≤ 0xBF
      else if b = 0xED then 0x80 ≤ c && c ≤ 0x9F
      else cont c
    match rest with
    | c :: d :: _ => if second c then if cont d then (3, true) else (2, false) else (1, false)
    | [c] => if second c then (2, false) else (1, false)
    | [] => (1, false)
  else if 0xF0 ≤ b && b ≤ 0xF4 then
    let second (c : UInt8) : Bool :=
      if b = 0xF0 then 0x90 ≤ c && c ≤ 0xBF
      else if b = 0xF4 then 0x80 ≤ c && c ≤ 0x8F
      else cont c
    match rest with
    | c :: d :: e :: _ =>
      if second c then
        if cont d then if cont e then (4, true) else (3, false) else (2, false)
      else (1, false)
    | [c, d] => if second c then if cont d then (3, false) else (2, false) else (1, false)
    | [c] => if second c then (2, false) else (1, false)
    | [] => (1, false)
  else (1, false)

/-- Every ill-formed part becomes U+FFFD. Each round takes a byte at least, so the length of the
text is fuel enough. -/
def lossyLoop : Nat → Bytes → Bytes
  | 0, _ => []
  | _, [] => []
  | fuel + 1, b :: rest =>
    let (len, wellFormed) := utf8Chunk b rest
    let chunk := if wellFormed then (b :: rest).take len else [0xEF, 0xBF, 0xBD]
    chunk ++ lossyLoop fuel ((b :: rest).drop len)

def fromUtf8Lossy (bytes : Bytes) : Bytes := lossyLoop bytes.length bytes

def formatConflictContent (ourContent theirContent : Bytes) (labels : ConflictLabels) : Bytes :=
  let ourText := fromUtf8Lossy ourContent
  let theirText := fromUtf8Lossy theirContent
  let sep (text : Bytes) : Bytes :=
    if text.isEmpty ∨ text.getLast? = some newline then [] else [newline]
  utf8 "<<<<<<< " ++ utf8 labels.current ++ [newline] ++ ourText ++ sep ourText ++
    utf8 "=======\n" ++ theirText ++ sep theirText ++
    utf8 ">>>>>>> " ++ utf8 labels.incoming ++ [newline]

section Content
variable (env : MergeEnv H)

/-- The stored hash, with the conflict paths pushed on the way. -/
def contentConflictMerge (ourHash theirHash : H) (path : String) :
    Except Failure (H × List String) := do
  let ourContent ← env.loadBlob ourHash path
  let theirContent ← env.loadBlob theirHash path
  let hash ← env.putBlob (formatConflictContent ourContent theirContent env.labels)
  return (hash, [path])

def modifyDeleteConflictMerge (keptHash : H) (path : String) :
    Except Failure (H × List String) := do
  let keptContent ← env.loadBlob keptHash path
  let hash ← env.putBlob (formatConflictContent keptContent [] env.labels)
  return (hash, [path])

def textMergeOutcome (baseContent ourContent theirContent : Bytes) (path : String) :
    MergeOutcome :=
  let markers : ConflictMarkers := { ours := env.labels.current, theirs := env.labels.incoming }
  let hunks := textHunkMergeWithMarkers env.captureDiffSlices baseContent ourContent theirContent
    markers
  match env.labels.strategy with
  | .hunkOnly => hunks
  | .semantic =>
    match env.semanticMerge with
    | some merge => merge baseContent ourContent theirContent path markers
    | none => hunks

def textHunkMergeBlobs (baseHash ourHash theirHash : H) (path : String) :
    Except Failure (H × List String) := do
  let baseContent ← env.loadBlob baseHash path
  let ourContent ← env.loadBlob ourHash path
  let theirContent ← env.loadBlob theirHash path
  match textMergeOutcome env baseContent ourContent theirContent path with
  | .clean bytes => return (← env.putBlob bytes, [])
  | .conflicts mergedBytesWithMarkers _ => return (← env.putBlob mergedBytesWithMarkers, [path])
  | .binary => contentConflictMerge env ourHash theirHash path
  | .deleteVsModify => contentConflictMerge env ourHash theirHash path

def threeWayContentMerge [DecidableEq H] (baseHash ourHash theirHash : H) (path : String) :
    Except Failure (H × List String) :=
  if ourHash = theirHash then .ok (ourHash, [])
  else if ourHash = baseHash then .ok (theirHash, [])
  else if theirHash = baseHash then .ok (ourHash, [])
  else textHunkMergeBlobs env baseHash ourHash theirHash path

theorem contentConflictMerge_conflicts {hash : H}
    (h : contentConflictMerge env ourHash theirHash path = .ok (hash, conflicts)) :
    conflicts = [path] := by
  simp only [contentConflictMerge, bind_eq_ok] at h
  obtain ⟨_, _, _, _, _, _, h⟩ := h
  cases h
  rfl

theorem modifyDeleteConflictMerge_conflicts {hash : H}
    (h : modifyDeleteConflictMerge env keptHash path = .ok (hash, conflicts)) :
    conflicts = [path] := by
  simp only [modifyDeleteConflictMerge, bind_eq_ok] at h
  obtain ⟨_, _, _, _, h⟩ := h
  cases h
  rfl

end Content

end Heddle.Merge
