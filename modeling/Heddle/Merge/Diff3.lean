import Heddle.Merge.Lines
import Mathlib.Algebra.GroupWithZero.Nat

namespace Heddle.Merge
open Heddle.Lib

abbrev ConflictLineRange := Range

structure TextConflictRegion where
  base : ConflictLineRange
  ours : ConflictLineRange
  theirs : ConflictLineRange
  merged : ConflictLineRange
  deriving DecidableEq

inductive MergeOutcome where
  | clean (bytes : Bytes)
  | conflicts (mergedBytesWithMarkers : Bytes) (conflictCount : Nat)
  | binary
  | deleteVsModify
  deriving DecidableEq

structure ConflictMarkers where
  ours : String
  theirs : String

def ConflictMarkers.default : ConflictMarkers := { ours := "CURRENT", theirs := "INCOMING" }

def emitLines (out : Bytes) (lines : List Line) : Bytes := out ++ lines.flatten

def ensureTrailingNewline (out : Bytes) : Bytes :=
  if out.getLast?.any (· ≠ newline) then out ++ [newline] else out

def emitConflict (out : Bytes) (ourSlice theirSlice : List Line) (markers : ConflictMarkers) :
    Bytes :=
  let out := out ++ utf8 "<<<<<<< " ++ utf8 markers.ours ++ [newline]
  let out := ensureTrailingNewline (emitLines out ourSlice)
  let out := out ++ utf8 "=======\n"
  let out := ensureTrailingNewline (emitLines out theirSlice)
  out ++ utf8 ">>>>>>> " ++ utf8 markers.theirs ++ [newline]

def stripSuffix (line suffix : Bytes) : Option Bytes :=
  if suffix.isSuffixOf line then some (line.take (line.length - suffix.length)) else none

def splitLineEnding (line : Line) : Bytes × Bytes :=
  match stripSuffix line [13, 10] with
  | some stripped => (stripped, [13, 10])
  | none =>
    match stripSuffix line [10] with
    | some stripped => (stripped, [10])
    | none => (line, [])

def isBlank (b : UInt8) : Bool := b = 32 || b = 9

def trailingWsKey (line : Line) : Bytes × Bytes :=
  let (body, ending) := splitLineEnding line
  ((body.reverse.dropWhile isBlank).reverse, ending)

def countTrailingWs (line : Line) : Nat :=
  ((splitLineEnding line).1.reverse.takeWhile isBlank).length

def compareTrailingWs (a b : List Line) : Option (List Line) :=
  if a.length ≠ b.length then none
  else if (a.zip b).any (fun p => trailingWsKey p.1 ≠ trailingWsKey p.2) then none
  else if (a.map countTrailingWs).sum ≤ (b.map countTrailingWs).sum then some a
  else some b

inductive LineAction where
  | keep
  | replace (lines : List Line)
  | delete
  deriving DecidableEq

def classifyOp (base side : List Line) (tables : List LineAction × List (List Line)) :
    DiffOp → List LineAction × List (List Line)
  | .equal .. => tables
  | .insert oldIndex newIndex newLen =>
    let slot := min oldIndex base.length
    (tables.1, tables.2.modify slot (· ++ (side.drop newIndex).take newLen))
  | .delete oldIndex oldLen _ =>
    ((List.range oldLen).foldl (fun actions k => actions.set (oldIndex + k) .delete) tables.1,
      tables.2)
  | .replace oldIndex oldLen newIndex newLen =>
    let actions := tables.1.set oldIndex (.replace ((side.drop newIndex).take newLen))
    ((List.range (oldLen - 1)).foldl (fun actions k => actions.set (oldIndex + (k + 1)) .delete)
      actions, tables.2)

/-- Two insertions in one gap: one side only, or the same lines on both. -/
def composeGap (out : Bytes) (ours theirs : List Line) : Option Bytes :=
  if ours.isEmpty && theirs.isEmpty then some out
  else if ours.isEmpty then some (emitLines out theirs)
  else if theirs.isEmpty then some (emitLines out ours)
  else if ours = theirs then some (emitLines out ours)
  else none

def composeAction (out : Bytes) (line : Line) : LineAction → LineAction → Option Bytes
  | .keep, .keep => some (out ++ line)
  | .keep, .replace repl => some (emitLines out repl)
  | .replace repl, .keep => some (emitLines out repl)
  | .keep, .delete => some out
  | .delete, .keep => some out
  | _, _ => none

def anyBinary (base ours theirs : Bytes) : Bool :=
  let isBinary (bytes : Bytes) : Bool := (bytes.take 8192).contains 0
  isBinary base || isBinary ours || isBinary theirs

structure Segment where
  stable : Bool
  base : ConflictLineRange
  ours : ConflictLineRange
  theirs : ConflictLineRange
  deriving DecidableEq

/-- The walk's locals. `trace` is ghost state: the segments visited so far. -/
structure WalkState where
  output : Bytes := []
  regions : List TextConflictRegion := []
  i : Nat := 0
  ourPos : Nat := 0
  theirPos : Nat := 0
  trace : List Segment := []

/-- The scan of an unstable hunk: the first base line aligned on both sides at or after the current
positions, or the end of the texts. `left` counts the base lines from `j` on. -/
def scanHunk (ourAlign theirAlign : List (Option Nat)) (ourLen theirLen ourPos theirPos : Nat) :
    Nat → Nat → Nat × Nat × Nat
  | 0, j => (j, ourLen, theirLen)
  | left + 1, j =>
    match ourAlign.getD j none, theirAlign.getD j none with
    | some o, some t =>
      if ourPos ≤ o ∧ theirPos ≤ t then (j, o, t)
      else scanHunk ourAlign theirAlign ourLen theirLen ourPos theirPos left (j + 1)
    | _, _ => scanHunk ourAlign theirAlign ourLen theirLen ourPos theirPos left (j + 1)

section Walk
variable (captureDiffSlices : List Line → List Line → List DiffOp)

def classifyAgainstBase (base side : List Line) : List LineAction × List (List Line) :=
  (captureDiffSlices base side).foldl (classifyOp base side)
    (List.replicate base.length .keep, List.replicate (base.length + 1) [])

/-- A pure insertion on one side and a pure edit on the other, when the patches commute. -/
def composeDisjoint (base ours theirs : List Line) : Option Bytes := do
  let (ourActions, ourInserts) := classifyAgainstBase captureDiffSlices base ours
  let (theirActions, theirInserts) := classifyAgainstBase captureDiffSlices base theirs
  let out ← (List.range base.length).foldlM (fun out i => do
    let out ← composeGap out (ourInserts.getD i []) (theirInserts.getD i [])
    composeAction out (base.getD i []) (ourActions.getD i .keep) (theirActions.getD i .keep)) []
  composeGap out (ourInserts.getD base.length []) (theirInserts.getD base.length [])

def emitHunk (out : Bytes) (regions : List TextConflictRegion)
    (baseSlice ourSlice theirSlice : List Line) (region : TextConflictRegion)
    (markers : ConflictMarkers) : Bytes × List TextConflictRegion :=
  if ourSlice = baseSlice then (emitLines out theirSlice, regions)
  else if theirSlice = baseSlice ∨ ourSlice = theirSlice then (emitLines out ourSlice, regions)
  else
    match compareTrailingWs ourSlice theirSlice with
    | some clean => (emitLines out clean, regions)
    | none =>
      match composeDisjoint captureDiffSlices baseSlice ourSlice theirSlice with
      | some composed => (out ++ composed, regions)
      | none =>
        if baseSlice.isEmpty ∧ ¬ ourSlice.isEmpty ∧ ¬ theirSlice.isEmpty then
          (emitLines (emitLines out ourSlice) theirSlice, regions)
        else
          let out' := emitConflict out ourSlice theirSlice markers
          (out', regions ++
            [{ region with merged := ⟨outputLineCount out, outputLineCount out'⟩ }])

variable (markers : ConflictMarkers) (base ours theirs : List Line)
variable (ourAlign theirAlign : List (Option Nat))

def isStable (st : WalkState) : Bool :=
  ourAlign.getD st.i none = some st.ourPos && theirAlign.getD st.i none = some st.theirPos

def stableStep (st : WalkState) : WalkState where
  output := st.output ++ base.getD st.i []
  regions := st.regions
  i := st.i + 1
  ourPos := st.ourPos + 1
  theirPos := st.theirPos + 1
  trace := st.trace ++ [{
    stable := true
    base := ⟨st.i, st.i + 1⟩
    ours := ⟨st.ourPos, st.ourPos + 1⟩
    theirs := ⟨st.theirPos, st.theirPos + 1⟩ }]

def hunkStep (st : WalkState) (j endOur endTheir : Nat) : WalkState :=
  let baseRange : ConflictLineRange := ⟨st.i, j⟩
  let ourRange : ConflictLineRange := ⟨st.ourPos, endOur⟩
  let theirRange : ConflictLineRange := ⟨st.theirPos, endTheir⟩
  let emitted := emitHunk captureDiffSlices st.output st.regions (baseRange.slice base)
    (ourRange.slice ours) (theirRange.slice theirs) ⟨baseRange, ourRange, theirRange, ⟨0, 0⟩⟩
    markers
  { output := emitted.1
    regions := emitted.2
    i := j
    ourPos := endOur
    theirPos := endTheir
    trace := st.trace ++ [⟨false, baseRange, ourRange, theirRange⟩] }

def hunkEnd (st : WalkState) : Nat × Nat × Nat :=
  scanHunk ourAlign theirAlign ours.length theirs.length st.ourPos st.theirPos
    (base.length - st.i) st.i

def walkStep (st : WalkState) : WalkState :=
  if isStable ourAlign theirAlign st then stableStep base st
  else
    let (j, endOur, endTheir) := hunkEnd base ours theirs ourAlign theirAlign st
    hunkStep captureDiffSlices markers base ours theirs st j endOur endTheir

def walkLoop : Nat → WalkState → Option WalkState
  | 0, _ => none
  | fuel + 1, st =>
    if st.i < base.length then
      walkLoop fuel (walkStep captureDiffSlices markers base ours theirs ourAlign theirAlign st)
    else some st

def finishWalk (st : WalkState) : WalkState :=
  if st.ourPos < ours.length ∨ st.theirPos < theirs.length then
    hunkStep captureDiffSlices markers base ours theirs st base.length ours.length theirs.length
  else st

theorem scanHunk_spec
    (h : scanHunk ourAlign theirAlign ourLen theirLen ourPos theirPos left j = (j', o, t)) :
    j ≤ j' ∧
      ((j' < j + left ∧ ourAlign.getD j' none = some o ∧ theirAlign.getD j' none = some t ∧
          ourPos ≤ o ∧ theirPos ≤ t) ∨
        (j' = j + left ∧ o = ourLen ∧ t = theirLen)) := by
  induction left generalizing j with
  | zero =>
    cases h
    exact ⟨le_rfl, .inr ⟨rfl, rfl, rfl⟩⟩
  | succ left ih =>
    have hskip : scanHunk ourAlign theirAlign ourLen theirLen ourPos theirPos left (j + 1) =
        (j', o, t) → j ≤ j' ∧
          ((j' < j + (left + 1) ∧ ourAlign.getD j' none = some o ∧
              theirAlign.getD j' none = some t ∧ ourPos ≤ o ∧ theirPos ≤ t) ∨
            (j' = j + (left + 1) ∧ o = ourLen ∧ t = theirLen)) := by
      intro hnext
      obtain ⟨hle, hcase⟩ := ih hnext
      rw [show j + 1 + left = j + (left + 1) by omega] at hcase
      exact ⟨by omega, hcase⟩
    unfold scanHunk at h
    split at h
    · rename_i o' t' ho ht
      split at h
      · rename_i hpos
        cases h
        exact ⟨le_rfl, .inl ⟨by omega, ho, ht, hpos⟩⟩
      · exact hskip h
    · exact hskip h

theorem hunkEnd_spec (hi : st.i ≤ base.length)
    (h : hunkEnd base ours theirs ourAlign theirAlign st = (j, o, t)) :
    st.i ≤ j ∧
      ((j < base.length ∧ ourAlign.getD j none = some o ∧ theirAlign.getD j none = some t ∧
          st.ourPos ≤ o ∧ st.theirPos ≤ t) ∨
        (j = base.length ∧ o = ours.length ∧ t = theirs.length)) := by
  have hspec := scanHunk_spec ourAlign theirAlign h
  rwa [Nat.add_sub_cancel' hi] at hspec

/-- The loop's variant: two for each base line left, and one for a hunk still to emit. -/
def walkMeasure (st : WalkState) : Nat :=
  2 * (base.length - st.i) + if isStable ourAlign theirAlign st then 0 else 1

theorem walkStep_measure (h : st.i < base.length) :
    walkMeasure base ourAlign theirAlign
      (walkStep captureDiffSlices markers base ours theirs ourAlign theirAlign st) <
        walkMeasure base ourAlign theirAlign st := by
  by_cases hs : isStable ourAlign theirAlign st = true
  · simp only [walkStep, if_pos hs, walkMeasure, stableStep]
    split <;> omega
  · obtain ⟨⟨j, o, t⟩, hend⟩ : ∃ e, hunkEnd base ours theirs ourAlign theirAlign st = e := ⟨_, rfl⟩
    have hspec := hunkEnd_spec base ours theirs ourAlign theirAlign h.le hend
    simp only [walkStep, if_neg hs, hend, hunkStep, walkMeasure]
    obtain ⟨hle, ⟨hlt, ho, ht, _, _⟩ | ⟨rfl, _, _⟩⟩ := hspec
    · rw [if_pos (by simp only [isStable, ho, ht, decide_true, Bool.and_true])]
      omega
    · split <;> omega

theorem walkLoop_isSome (fuel : Nat) (st : WalkState)
    (h : walkMeasure base ourAlign theirAlign st < fuel) :
    (walkLoop captureDiffSlices markers base ours theirs ourAlign theirAlign fuel st).isSome := by
  induction fuel generalizing st with
  | zero => omega
  | succ fuel ih =>
    unfold walkLoop
    split
    · rename_i hi
      have := walkStep_measure captureDiffSlices markers base ours theirs ourAlign theirAlign hi
      exact ih _ (by omega)
    · rfl

def walkFuel : Nat := 2 * base.length + 2

theorem walkLoop_start_isSome (hf : walkFuel base ≤ fuel) :
    (walkLoop captureDiffSlices markers base ours theirs ourAlign theirAlign fuel {}).isSome := by
  apply walkLoop_isSome
  have : walkMeasure base ourAlign theirAlign {} ≤ 2 * base.length + 1 := by
    unfold walkMeasure
    split <;> omega
  unfold walkFuel at hf
  omega

def walk : WalkState :=
  finishWalk captureDiffSlices markers base ours theirs
    ((walkLoop captureDiffSlices markers base ours theirs ourAlign theirAlign (walkFuel base) {}).get
      (walkLoop_start_isSome captureDiffSlices markers base ours theirs ourAlign theirAlign le_rfl))

def WalkState.outcome (st : WalkState) : MergeOutcome :=
  if st.regions.isEmpty then .clean st.output else .conflicts st.output st.regions.length

end Walk

section TextMerge
variable (captureDiffSlices : List Line → List Line → List DiffOp)

def walkTexts (base ours theirs : Bytes) (markers : ConflictMarkers) : WalkState :=
  let baseLines := splitLines base
  let ourLines := splitLines ours
  let theirLines := splitLines theirs
  walk captureDiffSlices markers baseLines ourLines theirLines
    (buildAlignment captureDiffSlices baseLines ourLines)
    (buildAlignment captureDiffSlices baseLines theirLines)

def Diff3.run (base ours theirs : Bytes) (markers : ConflictMarkers) : MergeOutcome :=
  if base = ours ∧ base = theirs then .clean base
  else if base = ours then .clean theirs
  else if base = theirs then .clean ours
  else if ours = theirs then .clean ours
  else (walkTexts captureDiffSlices base ours theirs markers).outcome

def Diff3.regions (base ours theirs : Bytes) : List TextConflictRegion :=
  if base = ours ∨ base = theirs ∨ ours = theirs then []
  else (walkTexts captureDiffSlices base ours theirs .default).regions

def textHunkMergeWithMarkers (base ours theirs : Bytes) (markers : ConflictMarkers) :
    MergeOutcome :=
  if anyBinary base ours theirs then .binary
  else Diff3.run captureDiffSlices base ours theirs markers

def textHunkMerge (base ours theirs : Bytes) : MergeOutcome :=
  textHunkMergeWithMarkers captureDiffSlices base ours theirs .default

def textConflictRegions (base ours theirs : Bytes) : List TextConflictRegion :=
  if anyBinary base ours theirs then []
  else Diff3.regions captureDiffSlices base ours theirs

end TextMerge

end Heddle.Merge
