import Heddle.LineDiff.Scan
import Heddle.Lib.WhileLoop

namespace Heddle.LineDiff
open Heddle.Lib

structure EqualRun where
  oldStart : Nat
  newStart : Nat
  len : Nat
  deriving DecidableEq

section Compact
variable (old new : LineView)

def sameLine (oldIndex newIndex : Nat) : Except (LineDiffError ε) Bool := do
  let oldLine ← old.line oldIndex
  let newLine ← new.line newIndex
  return oldLine == newLine

def slideFrom (run : EqualRun) (newCursor slide : Nat) : Nat → Except (LineDiffError ε) Nat
  | 0 => return slide
  | left + 1 => do
    if ← sameLine old new (run.oldStart + slide) (newCursor + slide) then
      slideFrom run newCursor (slide + 1) left
    else return slide

def slideEqualRun (run : EqualRun) (newCursor : Nat) :
    Except (LineDiffError ε) ((EqualRun × Option EqualRun) × Nat) := do
  let insertLen := run.newStart - newCursor
  let slide ← slideFrom old new run newCursor 0 (min insertLen run.len)
  let slid :=
    if slide = 0 then (run, none)
    else if slide = run.len then (⟨run.oldStart, newCursor, slide⟩, none)
    else (⟨run.oldStart, newCursor, slide⟩,
      some ⟨run.oldStart + slide, run.newStart + slide, run.len - slide⟩)
  return (slid, run.newStart + run.len)

def runMatchesFrom (run : EqualRun) (newStart offset : Nat) : Nat → Except (LineDiffError ε) Bool
  | 0 => return true
  | left + 1 => do
    if ← sameLine old new (run.oldStart + offset) (newStart + offset) then
      runMatchesFrom run newStart (offset + 1) left
    else return false

def runMatchesAt (run : EqualRun) (newStart : Nat) : Except (LineDiffError ε) Bool :=
  runMatchesFrom old new run newStart 0 run.len

def slideEqualRunRight (run : EqualRun) (gapStart gapEnd : Nat) (leftJustified : Bool) :
    Except (LineDiffError ε) EqualRun := do
  if leftJustified ∨ run.len = 0 ∨ gapEnd ≤ gapStart then return run
  if gapStart + run.len ≤ gapEnd then
    if ← runMatchesAt old new run gapStart then
      if ← runMatchesAt old new run (gapEnd - run.len) then
        return ⟨run.oldStart, gapStart, run.len⟩
  return run

def compactKeepsRightShift (run : EqualRun) (originalEnd : Nat) (leftJustified : Bool) :
    Except (LineDiffError ε) Bool := do
  if leftJustified ∨ run.len = 0 ∨ new.offs.length < originalEnd + run.len then return false
  if ← runMatchesAt old new run originalEnd then
    runMatchesAt old new run (new.offs.length - run.len)
  else return false

end Compact

section Emit
variable (old new : LineView)

def rightSlide (run : EqualRun) (originalEnd : Nat) (leftJustified : Bool) :
    Except (LineDiffError ε) EqualRun := do
  if ← compactKeepsRightShift old new run originalEnd leftJustified then
    slideEqualRunRight old new run originalEnd new.offs.length leftJustified
  else return run

variable (visit : σ → EqualRun → Except ε σ)

def callVisitor (s : σ) (run : EqualRun) : Except (LineDiffError ε) σ :=
  (visit s run).mapError .visitor

def visitAfterRightSlide (run : EqualRun) (originalEnd : Nat) (leftJustified : Bool) (s : σ) :
    Except (LineDiffError ε) σ := do
  let run ← rightSlide old new run originalEnd leftJustified
  callVisitor visit s run

structure EqualEmit (σ : Type) where
  newCursor : Nat
  visited : σ

def emitSlid (run : EqualRun) (emit : EqualEmit σ) : Except (LineDiffError ε) (EqualEmit σ) := do
  let originalEnd := run.newStart + run.len
  let cursorBefore := emit.newCursor
  let ((first, second), newCursor) ← slideEqualRun old new run emit.newCursor
  match second with
  | some second =>
    let visited ← callVisitor visit emit.visited first
    let visited ← visitAfterRightSlide old new visit second originalEnd
      (second.newStart ≤ cursorBefore) visited
    return ⟨newCursor, visited⟩
  | none =>
    let visited ← visitAfterRightSlide old new visit first originalEnd
      (first.newStart ≤ cursorBefore) emit.visited
    return ⟨newCursor, visited⟩

end Emit

section Conquer

inductive JobKind where
  | range
  | equal
  deriving DecidableEq

structure ConquerJob where
  oldLo : Nat
  oldHi : Nat
  newLo : Nat
  newHi : Nat
  kind : JobKind
  eqOld : Nat
  eqNew : Nat
  eqLen : Nat
  deriving DecidableEq

def asU32 (n : Nat) : Nat := n % 2 ^ 32

def rangeJob (oldLo oldHi newLo newHi : Nat) : ConquerJob :=
  ⟨asU32 oldLo, asU32 oldHi, asU32 newLo, asU32 newHi, .range, 0, 0, 0⟩

def equalJob (oldStart newStart len : Nat) : ConquerJob :=
  ⟨0, 0, 0, 0, .equal, asU32 oldStart, asU32 newStart, asU32 len⟩

def pushJob (capacity : Nat) (job : ConquerJob) (jobs : List ConquerJob) :
    Except (LineDiffError ε) (List ConquerJob) :=
  if capacity ≤ jobs.length then
    .error (.budgetExceeded ⟨.scratchBytes, capacity, min (jobs.length + 1) u64Max⟩)
  else .ok (job :: jobs)

variable (old new : LineView)
  (findSnake : Nat → Nat → Nat → Nat → S → Search ε (S × Option (Nat × Nat)))
  (capacity : Nat) (emitRun : EqualRun → σ → Except (LineDiffError ε) σ)

def emitPrefix (oldLo newLo pre : Nat) (emit : σ) : Except (LineDiffError ε) σ :=
  if 0 < pre then emitRun ⟨oldLo, newLo, pre⟩ emit else .ok emit

def pushSuffix (suffixOld suffixNew suffix : Nat) (jobs : List ConquerJob) :
    Except (LineDiffError ε) (List ConquerJob) :=
  if 0 < suffix then pushJob capacity (equalJob suffixOld suffixNew suffix) jobs else .ok jobs

/-- `emitRun` gets the runs in their order; `findSnake` is `findMiddleSnake`. -/
def conquerRange (job : ConquerJob) (jobs : List ConquerJob) (scratch : S) (emit : σ) :
    Search ε (List ConquerJob × S × σ) := do
  let pre ← commonPrefix old new job.oldLo job.oldHi job.newLo job.newHi
  let emit ← StateT.lift (emitPrefix emitRun job.oldLo job.newLo pre emit)
  let oldLo := job.oldLo + pre
  let newLo := job.newLo + pre
  let suffix ← commonSuffix old new oldLo job.oldHi newLo job.newHi
  let oldHi := job.oldHi - suffix
  let newHi := job.newHi - suffix
  if oldHi ≤ oldLo ∨ newHi ≤ newLo then
    let jobs ← StateT.lift (pushSuffix capacity oldHi newHi suffix jobs)
    return (jobs, scratch, emit)
  else
    let (scratch, found) ← findSnake oldLo oldHi newLo newHi scratch
    match found with
    | none =>
      let budget ← get
      throw (.budgetExceeded ⟨.work, budget.limit .work, min (budget.used.work + 1) u64Max⟩)
    | some (splitOld, splitNew) =>
      let jobs ← StateT.lift (pushSuffix capacity oldHi newHi suffix jobs)
      let jobs ← StateT.lift (pushJob capacity (rangeJob splitOld oldHi splitNew newHi) jobs)
      let jobs ← StateT.lift (pushJob capacity (rangeJob oldLo splitOld newLo splitNew) jobs)
      return (jobs, scratch, emit)

structure ConquerState (S σ : Type) where
  jobs : List ConquerJob
  scratch : S
  emit : σ
  budget : ResourceBudget

def conquerRound (s : ConquerState S σ) :
    Round (ConquerState S σ) (Except (LineDiffError ε) (σ × ResourceBudget)) :=
  match s.jobs with
  | [] => .done (.ok (s.emit, s.budget))
  | job :: jobs =>
    match job.kind with
    | .equal =>
      if job.eqLen = 0 then .next { s with jobs }
      else
        match emitRun ⟨job.eqOld, job.eqNew, job.eqLen⟩ s.emit with
        | .error error => .done (.error error)
        | .ok emit => .next { s with jobs, emit }
    | .range =>
      match (conquerRange old new findSnake capacity emitRun job jobs s.scratch s.emit).run s.budget with
      | .error error => .done (.error error)
      | .ok ((jobs, scratch, emit), budget) => .next ⟨jobs, scratch, emit, budget⟩

def conquer (fuel : Nat) (scratch : S) (emit : σ) (budget : ResourceBudget) :
    Option (Except (LineDiffError ε) (σ × ResourceBudget)) :=
  match pushJob capacity (rangeJob 0 old.offs.length 0 new.offs.length) [] with
  | .error error => some (.error error)
  | .ok jobs =>
    runLoop (conquerRound old new findSnake capacity emitRun) fuel ⟨jobs, scratch, emit, budget⟩

end Conquer

section Visit

def emitEqualRuns (fuel : Nat) (old new : LineView) (capacity : Nat) (scratch : Scratch)
    (budget : ResourceBudget) (visit : σ → EqualRun → Except ε σ) (s : σ) :
    Option (Except (LineDiffError ε) (EqualEmit σ × ResourceBudget)) :=
  if capacity = 0 then some (.ok (⟨0, s⟩, budget))
  else
    conquer old new (findMiddleSnake old new) capacity (emitSlid old new visit) fuel scratch ⟨0, s⟩
      budget

def maxD (oldLines newLines : Nat) : Nat := (oldLines + newLines + 1) / 2 + 1

def layoutSizes (oldLines newLines : Nat) : Nat :=
  16 * oldLines + 16 * newLines + 2 * (8 * (2 * maxD oldLines newLines + 1)) +
    32 * (oldLines + newLines + 8)

def zeroScratch : Scratch := ⟨fun _ => 0, fun _ => 0⟩

def requireBudget (budget : ResourceBudget) (kind : ResourceKind) (needed : Nat) :
    Except (LineDiffError ε) ResourceBudget :=
  (budget.require kind (needed % 2 ^ 64)).mapError .budgetExceeded

/-- `scratchLen` bytes of scratch start `pad` bytes before an aligned address. -/
def visitLcsEqualRuns (fuel : Nat) (oldBytes newBytes : Bytes) (scratchLen pad : Nat)
    (budget : ResourceBudget) (visit : σ → EqualRun → Except ε σ) (s : σ) :
    Option (Except (LineDiffError ε) (σ × ResourceBudget)) :=
  let prepared : Except (LineDiffError ε) (LineView × LineView × Nat × ResourceBudget) := do
    let oldLines ← countTextLines oldBytes
    let newLines ← countTextLines newBytes
    let budget ← requireBudget budget .lines oldLines
    let budget ← requireBudget budget .lines newLines
    if scratchLen < pad then .error (.budgetExceeded ⟨.scratchBytes, scratchLen, pad + 1⟩)
    let needed := layoutSizes oldLines newLines
    let budget ← requireBudget budget .scratchBytes (pad + needed)
    if scratchLen - pad < needed then
      .error (.budgetExceeded ⟨.scratchBytes, scratchLen - pad, needed⟩)
    let oldOffs ← fillLineOffsets oldBytes oldLines
    let newOffs ← fillLineOffsets newBytes newLines
    if oldOffs.length ≠ oldLines ∨ newOffs.length ≠ newLines then .error .invalidUtf8
    return (⟨oldBytes, oldOffs⟩, ⟨newBytes, newOffs⟩, oldLines + newLines + 8, budget)
  match prepared with
  | .error error => some (.error error)
  | .ok (old, new, capacity, budget) =>
    (emitEqualRuns fuel old new capacity zeroScratch budget visit s).map fun result =>
      result.map fun visited => (visited.1.visited, visited.2)

end Visit

end Heddle.LineDiff
