import Heddle.Object.LeanEncode
import Heddle.Lib.Numeral
import Mathlib.Data.List.TakeWhile

namespace Heddle
open Heddle.Lib List

namespace RawGitMode

section Digits
-- How the standard library prints lossily decoded bytes.
variable (debugLossy : Bytes → String)

def invalidMode (digits : Bytes) : TreeError :=
  .invalidStructure ("invalid git tree mode " ++ debugLossy digits)

def isOctalDigit (digit : UInt8) : Bool := 48 ≤ digit.toNat && digit.toNat ≤ 55

/-- The loop over the significant digits; the multiplication and the addition are checked. -/
def readValue (invalid : TreeError) (value : Nat) : Bytes → Except TreeError Nat
  | [] => .ok value
  | digit :: digits => do
    refuse (2 ^ 32 ≤ value * 8) invalid
    refuse (2 ^ 32 ≤ value * 8 + (digit.toNat - 48)) invalid
    readValue invalid (value * 8 + (digit.toNat - 48)) digits

def parse (digits : Bytes) : Except TreeError RawGitMode := do
  let leading := (digits.takeWhile (· = 48)).length
  let significant := digits.drop leading
  refuse (significant.isEmpty ∨ ¬digits.all isOctalDigit) (invalidMode debugLossy digits)
  let value ← readValue (invalidMode debugLossy digits) 0 significant
  if hvalue : UInt32.ofNat value ≠ 0 then
    refuse (255 < leading) (invalidMode debugLossy digits)
    return ⟨UInt32.ofNat value, UInt8.ofNat leading, hvalue⟩
  else .error (invalidMode debugLossy digits)

end Digits

def octal (mode : RawGitMode) : String := String.ofList (Nat.toDigits 8 mode.value.toNat)

def writeDigits (mode : RawGitMode) : Bytes :=
  List.replicate mode.leadingZeros.toNat 48 ++ digitBytes 8 mode.value.toNat

theorem isOctalDigit_iff : isOctalDigit digit = true ↔ IsDigitBelow 8 digit := by
  simp only [isOctalDigit, IsDigitBelow, Bool.and_eq_true, decide_eq_true_eq]
  omega

theorem readValue_ok {digits : Bytes} {value total : Nat} (hvalue : value < 2 ^ 32)
    (h : readValue invalid value digits = .ok total) :
    total = ofDigitBytes 8 value digits ∧ total < 2 ^ 32 := by
  induction digits generalizing value with
  | nil =>
    cases h
    exact ⟨rfl, hvalue⟩
  | cons digit digits ih =>
    simp only [readValue, bind_eq_ok, refuse_eq_ok, Nat.not_le] at h
    obtain ⟨_, _, _, hsum, hrest⟩ := h
    exact ih hsum hrest

theorem writeDigits_of_parse (h : parse debugLossy digits = .ok mode) :
    mode.writeDigits = digits := by
  simp only [parse, bind_eq_ok, refuse_eq_ok, not_or, not_not] at h
  obtain ⟨_, ⟨hne, hall⟩, value, hread, h⟩ := h
  split at h
  · simp only [bind_eq_ok, refuse_eq_ok, pure_eq_ok, Except.ok.injEq] at h
    obtain ⟨_, hleading, rfl⟩ := h
    have hdrop : digits.drop (digits.takeWhile (· = 48)).length = digits.dropWhile (· = 48) := by
      have hboth := takeWhile_append_dropWhile (p := (· = (48 : UInt8))) (l := digits)
      calc digits.drop (digits.takeWhile (· = 48)).length
          = (digits.takeWhile (· = 48) ++ digits.dropWhile (· = 48)).drop
              (digits.takeWhile (· = 48)).length := by rw [hboth]
        _ = digits.dropWhile (· = 48) := drop_left
    rw [hdrop] at hne hread
    have hzeros : digits.takeWhile (· = 48) =
        List.replicate (digits.takeWhile (· = 48)).length 48 := by
      apply eq_replicate_of_mem
      intro digit hmem
      have hzero := mem_takeWhile_imp (p := (· = (48 : UInt8))) hmem
      exact of_decide_eq_true hzero
    have hhead : (digits.dropWhile (· = 48)).head? ≠ some 48 := by
      intro hsome
      have hnot := head?_dropWhile_not (· = (48 : UInt8)) digits
      rw [hsome] at hnot
      simp at hnot
    have hbelow : ∀ digit ∈ digits.dropWhile (· = 48), IsDigitBelow 8 digit := by
      intro digit hmem
      have hin := (dropWhile_suffix (· = (48 : UInt8))).subset hmem
      exact isOctalDigit_iff.1 (all_eq_true.1 hall digit hin)
    obtain ⟨rfl, hlt⟩ := readValue_ok (by decide) hread
    have hnumeral := digitBytes_of_numeral (by decide : 1 < 8) (by decide)
      (by simpa using hne) hhead hbelow
    rw [writeDigits, UInt32.toNat_ofNat_of_lt' hlt,
      UInt8.toNat_ofNat_of_lt' (Nat.lt_succ_of_le (Nat.le_of_not_lt hleading)), hnumeral,
      ← hzeros, takeWhile_append_dropWhile]
  · cases h

end RawGitMode

namespace TreeEntry

def withRawGitMode (e : TreeEntry H) (mode : RawGitMode) : Except TreeError (TreeEntry H) := do
  if RawGitMode.canonical e.entryType e.isExecutable = some mode then
    return { e with gitMode := none }
  e.checkRawGitMode mode
  return { e with gitMode := some mode }

/-- The mode to write in a Git tree: the recorded one, else the canonical one. -/
def writtenGitMode (e : TreeEntry H) : Option RawGitMode :=
  e.gitMode.or (RawGitMode.canonical e.entryType e.isExecutable)

end TreeEntry

structure GitTreeEntryRef where
  mode : RawGitMode
  name : Bytes
  oid : GitObjectId
  deriving DecidableEq

section Parse
variable (debugLossy : Bytes → String) (format : GitObjectFormat)

def malformedGitTree (what : String) : TreeError :=
  .invalidStructure ("malformed git tree: " ++ what)

/-- One round of the loop: an entry off the front of the body and what is left. -/
def parseGitTreeEntry (rest : Bytes) : Except TreeError (GitTreeEntryRef × Bytes) := do
  let space ← orElseErr (malformedGitTree "unterminated mode") (rest.findIdx? (· = 32))
  let mode ← RawGitMode.parse debugLossy (rest.take space)
  let rest := rest.drop (space + 1)
  let nul ← orElseErr (malformedGitTree "unterminated name") (rest.findIdx? (· = 0))
  refuse (nul = 0) (malformedGitTree "empty name")
  let name := rest.take nul
  let rest := rest.drop (nul + 1)
  refuse (rest.length < format.rawLen) (malformedGitTree "truncated object id")
  let oid ← orElseErr (malformedGitTree "") (GitObjectId.fromRaw format (rest.take format.rawLen))
  return (⟨mode, name, oid⟩, rest.drop format.rawLen)

/-- The loop. Each round takes at least a byte, so the body's length bounds the rounds. -/
def parseGitTreeFrom : Nat → Bytes → Except TreeError (List GitTreeEntryRef)
  | 0, _ => .ok []
  | rounds + 1, rest =>
    if rest.isEmpty then .ok []
    else do
      let (entry, rest) ← parseGitTreeEntry debugLossy format rest
      let entries ← parseGitTreeFrom rounds rest
      return entry :: entries

def parseGitTree (body : Bytes) : Except TreeError (List GitTreeEntryRef) :=
  parseGitTreeFrom debugLossy format body.length body

def GitTreeEntryRef.encode (child : GitTreeEntryRef) : Bytes :=
  child.mode.writeDigits ++ 32 :: (child.name ++ 0 :: child.oid.asBytes)

theorem parseGitTreeEntry_ok {debugLossy : Bytes → String} {format : GitObjectFormat}
    (h : parseGitTreeEntry debugLossy format rest = .ok (child, rest')) :
    rest = child.encode ++ rest' ∧ child.oid.format = format ∧
      RawGitMode.parse debugLossy child.mode.writeDigits = .ok child.mode := by
  simp only [parseGitTreeEntry, bind_eq_ok, orElseErr_eq_ok, refuse_eq_ok,
    pure_eq_ok, Except.ok.injEq, Prod.mk.injEq] at h
  obtain ⟨space, hspace, mode, hmode, nul, hnul, _, _, _, hlen, oid, hoid, rfl, rfl⟩ := h
  obtain ⟨hformat, hbytes⟩ := GitObjectId.asBytes_of_fromRaw hoid
  have hdigits := RawGitMode.writeDigits_of_parse hmode
  have hmodeSplit := (split_of_findIdx? hspace).1
  have hnameSplit := (split_of_findIdx? hnul).1
  refine ⟨?_, hformat, hdigits ▸ hmode⟩
  rw [GitTreeEntryRef.encode, hdigits, hbytes, append_assoc, cons_append,
    append_assoc, cons_append, take_append_drop, ← hnameSplit, ← hmodeSplit]

theorem parseGitTreeFrom_ok {debugLossy : Bytes → String} {format : GitObjectFormat}
    {rest : Bytes} (hrounds : rest.length ≤ rounds)
    (h : parseGitTreeFrom debugLossy format rounds rest = .ok children) :
    rest = children.flatMap GitTreeEntryRef.encode ∧ ∀ child ∈ children,
      child.oid.format = format ∧
        RawGitMode.parse debugLossy child.mode.writeDigits = .ok child.mode := by
  induction rounds generalizing rest children with
  | zero =>
    cases h
    exact ⟨length_eq_zero_iff.1 (by omega), fun _ hmem => absurd hmem not_mem_nil⟩
  | succ rounds ih =>
    unfold parseGitTreeFrom at h
    split at h
    · rename_i hempty
      cases h
      exact ⟨isEmpty_iff.1 hempty, fun _ hmem => absurd hmem not_mem_nil⟩
    · simp only [bind_eq_ok, pure_eq_ok, Except.ok.injEq] at h
      obtain ⟨⟨child, rest'⟩, hentry, children', hrest, rfl⟩ := h
      obtain ⟨rfl, hchild⟩ := parseGitTreeEntry_ok hentry
      have hshorter : rest'.length ≤ rounds := by
        rw [length_append, GitTreeEntryRef.encode, length_append, length_cons]
          at hrounds
        omega
      obtain ⟨rfl, hchildren⟩ := ih hshorter hrest
      exact ⟨flatMap_cons.symm, forall_mem_cons.2 ⟨hchild, hchildren⟩⟩

end Parse

namespace Tree

def firstDuplicate : List (TreeEntry H × UInt32) → Option String
  | a :: b :: rest => if a.1.name = b.1.name then some a.1.name else firstDuplicate (b :: rest)
  | _ => none

def withPositions (entries : List (TreeEntry H)) : Except TreeError (List (TreeEntry H × UInt32)) := do
  refuse (2 ^ 32 < entries.length)
    (.invalidStructure "git tree has more than u32::MAX entries")
  return entries.zipIdx.map fun p => (p.1, UInt32.ofNat p.2)

def fromGitEntries (entries : List (TreeEntry H)) : Except TreeError (Tree H) := do
  let canonical := inCanonicalOrder entries
  let paired ← withPositions entries
  let paired := paired.insertionSort fun a b => nameLe a.1 b.1
  match firstDuplicate paired with
  | some name => .error (.invalidStructure ("duplicate entry name '" ++ name ++ "'"))
  | none =>
    let tree : Tree H :=
      { entries := paired.map Prod.fst
        sourcePositions := if canonical then [] else paired.map Prod.snd }
    tree.validate
    return tree

end Tree

section Import

inductive MappedKind where
  | tree
  | blob
  deriving DecidableEq

def TreeError.display : TreeError → String
  | .invalidName message => "invalid tree entry name: " ++ message
  | .invalidStructure message => "invalid tree structure: " ++ message

def GitObjectId.display (oid : GitObjectId) : String :=
  String.ofList (oid.asBytes.flatMap fun b =>
    [hexDigit (b.toNat / 16), hexDigit (b.toNat % 16)])

def missingMapping (kind : String) (oid : GitObjectId) (parent : String) : HeddleError :=
  .config ("Git-overlay " ++ kind ++ " " ++ oid.display ++ " referenced by tree " ++ parent ++
    " has no identity mapping")

-- The identity map that the import wrote.
variable (heddleForGit : GitObjectId → MappedKind → Except HeddleError (Option H))
  (gitSha : String)

def nativeEntry (child : GitTreeEntryRef) (name : String) :
    Except HeddleError (Except TreeError (TreeEntry H)) :=
  match child.mode.entryType with
  | some .tree => do
    let mapped ← heddleForGit child.oid .tree
    let mapped ← orElseErr (missingMapping "tree" child.oid gitSha) mapped
    return TreeEntry.directory name mapped
  | some .blob => do
    let mapped ← heddleForGit child.oid .blob
    let mapped ← orElseErr (missingMapping "blob" child.oid gitSha) mapped
    return TreeEntry.file name mapped child.mode.isExecutable
  | some .symlink => do
    let mapped ← heddleForGit child.oid .blob
    let mapped ← orElseErr (missingMapping "symlink blob" child.oid gitSha) mapped
    return TreeEntry.symlink name mapped
  | some .gitlink => .ok (TreeEntry.gitlink name child.oid)
  | some .spoollink | none =>
    .error (.config ("Git tree " ++ gitSha ++ " entry has unsupported mode " ++ child.mode.octal))

def importEntry (child : GitTreeEntryRef) : Except HeddleError (TreeEntry H) := do
  let name ← orElseErr (.config ("Git tree " ++ gitSha ++ " has a non-UTF-8 entry; run " ++
    "`heddle import local --lossy` to import it explicitly")) (fromUtf8 child.name)
  let entry ← nativeEntry heddleForGit gitSha child name
  mapErr (fun error => .invalidObject error.display) do
    let entry ← entry
    entry.withRawGitMode child.mode

def importGitTree (debugLossy : Bytes → String) (format : GitObjectFormat) (body : Bytes) :
    Except HeddleError (Tree H) := do
  let inTree (error : TreeError) : HeddleError :=
    .invalidObject ("Git tree " ++ gitSha ++ ": " ++ error.display)
  let children ← mapErr inTree (parseGitTree debugLossy format body)
  let entries ← children.mapM (importEntry heddleForGit gitSha)
  mapErr inTree (Tree.fromGitEntries entries)

end Import

section Serialize

inductive SerializeError where
  | invalidObject (message : String)
  deriving DecidableEq

def serializeEntries (format : GitObjectFormat)
    (resolve : TreeEntry H → Except SerializeError GitObjectId) :
    List (TreeEntry H) → Except SerializeError Bytes
  | [] => .ok []
  | e :: es =>
    match e.writtenGitMode with
    | none => serializeEntries format resolve es
    | some mode => do
      let id ← resolve e
      refuse (id.format ≠ format) (.invalidObject
        ("tree entry '" ++ e.name ++ "' uses a different Git object format"))
      let rest ← serializeEntries format resolve es
      return mode.writeDigits ++ 32 :: (utf8 e.name ++ 0 :: (id.asBytes ++ rest))

def serializeTree (t : Tree H) (format : GitObjectFormat)
    (resolve : TreeEntry H → Except SerializeError GitObjectId) : Except SerializeError Bytes :=
  serializeEntries format resolve t.gitOrderedEntries

def exportEntry (exported : MappedKind → H → Except SerializeError GitObjectId)
    (e : TreeEntry H) : Except SerializeError GitObjectId :=
  match e.target with
  | .tree hash => exported .tree hash
  | .blob hash _ => exported .blob hash
  | .symlink hash => exported .blob hash
  | .gitlink target => .ok target
  | .spoollink _ _ => .error (.invalidObject ("missing exported tree entry '" ++ e.name ++ "'"))

end Serialize

end Heddle
