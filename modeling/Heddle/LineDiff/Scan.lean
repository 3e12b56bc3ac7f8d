import Heddle.Lib.Fold
import Heddle.Lib.ByteCodec
import Heddle.Merge.Lines
import Mathlib.Order.MinMax
import Mathlib.Logic.Function.Basic
import Mathlib.Algebra.Order.Group.Unbundled.Int

namespace Heddle.LineDiff
open Heddle.Lib List

def u64Max : Nat := 2 ^ 64 - 1

inductive ResourceKind where
  | scratchBytes
  | lines
  | work
  | states
  | decodedBytes
  deriving DecidableEq

structure BudgetExceeded where
  kind : ResourceKind
  limit : Nat
  needed : Nat
  deriving DecidableEq

structure ResourceUsage where
  scratchBytes : Nat
  lines : Nat
  work : Nat
  states : Nat
  decodedBytes : Nat
  deriving DecidableEq

def ResourceUsage.get (usage : ResourceUsage) : ResourceKind → Nat
  | .scratchBytes => usage.scratchBytes
  | .lines => usage.lines
  | .work => usage.work
  | .states => usage.states
  | .decodedBytes => usage.decodedBytes

structure ResourceBudget where
  limits : ResourceUsage
  used : ResourceUsage
  deriving DecidableEq

namespace ResourceBudget

def unlimited : ResourceBudget where
  limits := ⟨u64Max, u64Max, u64Max, u64Max, u64Max⟩
  used := ⟨0, 0, 0, 0, 0⟩

def limit (budget : ResourceBudget) (kind : ResourceKind) : Nat := budget.limits.get kind

def setUsed (budget : ResourceBudget) (kind : ResourceKind) (used : Nat) : ResourceBudget :=
  { budget with used :=
      match kind with
      | .scratchBytes => { budget.used with scratchBytes := used }
      | .lines => { budget.used with lines := used }
      | .work => { budget.used with work := used }
      | .states => { budget.used with states := used }
      | .decodedBytes => { budget.used with decodedBytes := used } }

def require (budget : ResourceBudget) (kind : ResourceKind) (needed : Nat) :
    Except BudgetExceeded ResourceBudget :=
  if budget.limit kind < needed then .error ⟨kind, budget.limit kind, needed⟩
  else if budget.used.get kind < needed then .ok (budget.setUsed kind needed)
  else .ok budget

def consume (budget : ResourceBudget) (kind : ResourceKind) (amount : Nat) :
    Except BudgetExceeded ResourceBudget :=
  budget.require kind (min (budget.used.get kind + amount) u64Max)

/-- Nothing but the scratch is limited. -/
def Unlimited (budget : ResourceBudget) : Prop :=
  ∀ kind, kind ≠ .scratchBytes → budget.limit kind = u64Max

theorem unlimited_unlimited : unlimited.Unlimited := by
  intro kind _
  cases kind <;> rfl

theorem require_eq_ok {budget : ResourceBudget} (h : needed ≤ budget.limit kind) :
    ∃ budget', budget.require kind needed = .ok budget' ∧ budget'.limits = budget.limits := by
  rw [ResourceBudget.require, if_neg (Nat.not_lt.2 h)]
  split
  · exact ⟨_, rfl, rfl⟩
  · exact ⟨budget, rfl, rfl⟩

theorem Unlimited.of_limits {budget budget' : ResourceBudget} (h : budget.Unlimited)
    (hlimits : budget'.limits = budget.limits) : budget'.Unlimited := by
  intro kind hkind
  rw [ResourceBudget.limit, hlimits]
  exact h kind hkind

theorem Unlimited.consume {budget : ResourceBudget} (h : budget.Unlimited)
    (hkind : kind ≠ .scratchBytes) (amount : Nat) :
    ∃ budget', budget.consume kind amount = .ok budget' ∧ budget'.Unlimited := by
  have hle : min (budget.used.get kind + amount) u64Max ≤ budget.limit kind := by
    rw [h kind hkind]
    exact min_le_right _ _
  obtain ⟨budget', hrequire, hlimits⟩ := require_eq_ok hle
  exact ⟨budget', hrequire, h.of_limits hlimits⟩

end ResourceBudget

inductive LineDiffError (ε : Type) where
  | invalidUtf8
  | budgetExceeded (error : BudgetExceeded)
  | visitor (error : ε)
  -- an index out of range
  | panicked
  deriving DecidableEq

abbrev Search (ε : Type) := StateT ResourceBudget (Except (LineDiffError ε))

/-- With an unlimited budget the work is done, with the result `a`. -/
def Yields (x : Search ε α) (a : α) : Prop :=
  ∀ budget : ResourceBudget, budget.Unlimited →
    ∃ budget', x.run budget = .ok (a, budget') ∧ budget'.Unlimited

theorem Yields.pure (a : α) : Yields (pure a : Search ε α) a := fun budget h => ⟨budget, rfl, h⟩

theorem Yields.bind (h : Yields x a) (h' : Yields (f a) b) :
    Yields (x >>= f) b := by
  intro budget hbudget
  obtain ⟨budget', hrun, hbudget'⟩ := h budget hbudget
  obtain ⟨budget'', hrun', hbudget''⟩ := h' budget' hbudget'
  refine ⟨budget'', ?_, hbudget''⟩
  rw [StateT.run_bind, hrun]
  exact hrun'

theorem Yields.map {x : Search ε α} (f : α → β) (h : Yields x a) : Yields (f <$> x) (f a) := by
  rw [map_eq_pure_bind]
  exact h.bind (.pure _)

theorem Yields.unique {x : Search ε α} (h : Yields x a) (h' : Yields x b) : a = b := by
  obtain ⟨_, hrun, _⟩ := h .unlimited ResourceBudget.unlimited_unlimited
  obtain ⟨_, hrun', _⟩ := h' .unlimited ResourceBudget.unlimited_unlimited
  exact congrArg Prod.fst (Except.ok.inj (hrun.symm.trans hrun'))

theorem Yields.lift (h : x = .ok a) :
    Yields (StateT.lift x) a := by
  intro budget hbudget
  subst h
  exact ⟨budget, rfl, hbudget⟩

def consumeWork (amount : Nat) : Search ε Unit := fun budget =>
  match budget.consume .work amount with
  | .ok budget => .ok ((), budget)
  | .error error => .error (.budgetExceeded error)

theorem consumeWork_yields (amount : Nat) : Yields (consumeWork amount : Search ε Unit) () := by
  intro budget hbudget
  have hwork : ResourceKind.work ≠ .scratchBytes := by decide
  obtain ⟨budget', hconsume, hbudget'⟩ := hbudget.consume hwork amount
  refine ⟨budget', ?_, hbudget'⟩
  change consumeWork amount budget = _
  rw [consumeWork, hconsume]

end Heddle.LineDiff

namespace Heddle.LineDiff
open Heddle.Lib Heddle.Merge List

def carriageReturn : UInt8 := 13

def lineContent (line : Line) : Bytes :=
  if line.getLast? = some newline then
    let body := line.dropLast
    if body.getLast? = some carriageReturn then body.dropLast else body
  else line

def strLines (bytes : Bytes) : List Bytes := (splitLines bytes).map lineContent

structure LineOff where
  start : Nat
  len : Nat
  deriving DecidableEq

def countTextLines (bytes : Bytes) : Except (LineDiffError ε) Nat :=
  if (fromUtf8 bytes).isSome then .ok (strLines bytes).length else .error .invalidUtf8

def nextLineStart (bytes : Bytes) (afterContent : Nat) : Nat :=
  let pos := if bytes[afterContent]? = some carriageReturn then afterContent + 1 else afterContent
  if bytes[pos]? = some newline then pos + 1 else pos

def fillFrom (bytes : Bytes) : Nat → List Bytes → List LineOff
  | _, [] => []
  | byteStart, line :: lines =>
    ⟨byteStart, line.length⟩ ::
      fillFrom bytes (nextLineStart bytes (byteStart + line.length)) lines

def fillLineOffsets (bytes : Bytes) (capacity : Nat) : Except (LineDiffError ε) (List LineOff) :=
  if (fromUtf8 bytes).isSome ∧ (strLines bytes).length ≤ capacity then
    .ok (fillFrom bytes 0 (strLines bytes))
  else .error .invalidUtf8

structure LineView where
  bytes : Bytes
  offs : List LineOff

def LineView.line (view : LineView) (i : Nat) : Except (LineDiffError ε) Bytes :=
  match view.offs[i]? with
  | none => .error .panicked
  | some off => (sliceAt view.bytes off.start off.len).elim (.error .panicked) .ok

structure LineView.Shows (view : LineView) (lines : List Bytes) : Prop where
  length : view.offs.length = lines.length
  line : ∀ {ε : Type} i c, lines[i]? = some c → view.line (ε := ε) i = .ok c

section Scan

theorem lineContent_terminated (h : Terminated line) :
    line = lineContent line ++ [newline] ∧ (lineContent line).getLast? ≠ some carriageReturn ∨
      line = lineContent line ++ [carriageReturn, newline] := by
  obtain ⟨body, rfl⟩ := h
  have hcontent : lineContent (body ++ [newline]) =
      if body.getLast? = some carriageReturn then body.dropLast else body := by
    rw [lineContent, if_pos getLast?_concat, dropLast_concat]
  rw [hcontent]
  split
  · rename_i hreturn
    obtain ⟨init, rfl⟩ := getLast?_eq_some_iff.1 hreturn
    rw [dropLast_concat, append_assoc]
    exact .inr rfl
  · exact .inl ⟨rfl, ‹_›⟩

theorem lineContent_prefix (line : Line) : lineContent line <+: line := by
  unfold lineContent
  dsimp only
  split
  · split
    · exact (List.dropLast_prefix _).trans (List.dropLast_prefix _)
    · exact dropLast_prefix _
  · exact prefix_refl _

theorem nextLineStart_terminated (h : Terminated line) (before after : Bytes) :
    nextLineStart (before ++ line ++ after) (before.length + (lineContent line).length) =
      before.length + line.length := by
  have hat : ∀ (xs ys : Bytes) (b : UInt8) (zs : Bytes),
      (xs ++ (ys ++ b :: zs))[xs.length + ys.length]? = some b := by
    intro xs ys b zs
    rw [← append_assoc, ← length_append, getElem?_append_right le_rfl, Nat.sub_self]
    rfl
  rcases lineContent_terminated h with ⟨hline, _⟩ | hline
  · have hbytes : before ++ line ++ after = before ++ (lineContent line ++ newline :: after) := by
      conv_lhs => rw [hline]
      rw [append_assoc, append_assoc]
      rfl
    have hnewline := hat before (lineContent line) newline after
    have hother : ¬ some newline = some carriageReturn := by decide
    rw [nextLineStart, hbytes, hnewline, if_neg hother, if_pos hnewline]
    have hlength := congrArg List.length hline
    rw [length_append, length_singleton] at hlength
    omega
  · have hbytes : before ++ line ++ after =
        before ++ (lineContent line ++ carriageReturn :: newline :: after) := by
      conv_lhs => rw [hline]
      rw [append_assoc, append_assoc]
      rfl
    have hreturn := hat before (lineContent line) carriageReturn (newline :: after)
    have hnewline := hat before (lineContent line ++ [carriageReturn]) newline after
    rw [append_assoc, length_append, length_singleton, ← Nat.add_assoc] at hnewline
    change (before ++ (lineContent line ++ carriageReturn :: newline :: after))[_]? = _ at hnewline
    rw [nextLineStart, hbytes, hreturn, if_pos rfl, if_pos hnewline]
    have hlength := congrArg List.length hline
    rw [length_append] at hlength
    change _ = (lineContent line).length + 2 at hlength
    omega

theorem fillFrom_length (bytes : Bytes) (start : Nat) (lines : List Bytes) :
    (fillFrom bytes start lines).length = lines.length := by
  induction lines generalizing start with
  | nil => rfl
  | cons line lines ih => rw [fillFrom, length_cons, ih, length_cons]

theorem fillFrom_slice (lines : List Line) (before : Bytes)
    (hlines : ∀ k l, lines[k]? = some l → k + 1 < lines.length → Terminated l) (i : Nat)
    (hc : (lines.map lineContent)[i]? = some c) :
    ∃ off, (fillFrom (before ++ lines.flatten) before.length (lines.map lineContent))[i]? = some off ∧
      sliceAt (before ++ lines.flatten) off.start off.len = some c := by
  induction lines generalizing before i with
  | nil => cases hc
  | cons line lines ih =>
    rw [map_cons, fillFrom, flatten_cons]
    cases i with
    | zero =>
      obtain rfl := Option.some.inj hc
      obtain ⟨rest, hrest⟩ := lineContent_prefix line
      refine ⟨_, rfl, ?_⟩
      rw [sliceAt_eq_some]
      refine ⟨before, rest ++ lines.flatten, ?_, rfl, rfl⟩
      rw [append_assoc before, ← append_assoc (lineContent line), hrest]
    | succ i =>
      rw [map_cons, getElem?_cons_succ] at hc
      have hlen : i < lines.length := by
        have hlt := (List.getElem?_eq_some_iff.1 hc).1
        rwa [length_map] at hlt
      have hline : Terminated line :=
        hlines 0 line rfl (Nat.succ_lt_succ (Nat.lt_of_le_of_lt (Nat.zero_le i) hlen))
      have hrest : ∀ k l, lines[k]? = some l → k + 1 < lines.length → Terminated l :=
        fun k l hk hlt => hlines (k + 1) l hk (Nat.succ_lt_succ hlt)
      have hnext := nextLineStart_terminated hline before lines.flatten
      have htail := ih (before ++ line) hrest i hc
      rw [getElem?_cons_succ]
      rw [append_assoc, length_append] at htail
      rw [append_assoc] at hnext
      rwa [hnext]

theorem countTextLines_eq (h : (fromUtf8 bytes).isSome) :
    countTextLines (ε := ε) bytes = .ok (strLines bytes).length := if_pos h

theorem fillLineOffsets_shows (h : (fromUtf8 bytes).isSome) :
    fillLineOffsets (ε := ε) bytes (strLines bytes).length =
      .ok (fillFrom bytes 0 (strLines bytes)) ∧
    LineView.Shows ⟨bytes, fillFrom bytes 0 (strLines bytes)⟩ (strLines bytes) := by
  refine ⟨if_pos ⟨h, le_rfl⟩, fillFrom_length _ _ _, fun i c hc => ?_⟩
  have hslice := fillFrom_slice (splitLines bytes) [] (fun _ _ => splitLines_terminated) i hc
  rw [nil_append, splitLines_flatten] at hslice
  obtain ⟨off, hoff, hbytes⟩ := hslice
  change (fillFrom bytes 0 (strLines bytes))[i]? = some off at hoff
  rw [LineView.line]
  dsimp only
  rw [hoff]
  dsimp only
  rw [hbytes, Option.elim_some]

end Scan

end Heddle.LineDiff

namespace Heddle.LineDiff
open Heddle.Lib List

section Lines
variable (old new : LineView)

def linesEq (oldIndex newIndex : Nat) : Search ε Bool := do
  consumeWork 1
  let oldLine ← StateT.lift (old.line oldIndex)
  let newLine ← StateT.lift (new.line newIndex)
  return oldLine == newLine

/-- Counts matches on from `matched`, up to `left` more. -/
def commonPrefixFrom (oldLo newLo matched : Nat) : Nat → Search ε Nat
  | 0 => return matched
  | left + 1 => do
    if ← linesEq old new (oldLo + matched) (newLo + matched) then
      commonPrefixFrom oldLo newLo (matched + 1) left
    else return matched

def commonPrefix (oldLo oldHi newLo newHi : Nat) : Search ε Nat :=
  commonPrefixFrom old new oldLo newLo 0 (min (oldHi - oldLo) (newHi - newLo))

def commonSuffixFrom (oldHi newHi matched : Nat) : Nat → Search ε Nat
  | 0 => return matched
  | left + 1 => do
    if ← linesEq old new (oldHi - 1 - matched) (newHi - 1 - matched) then
      commonSuffixFrom oldHi newHi (matched + 1) left
    else return matched

def commonSuffix (oldLo oldHi newLo newHi : Nat) : Search ε Nat :=
  commonSuffixFrom old new oldHi newHi 0 (min (oldHi - oldLo) (newHi - newLo))

end Lines

section Diagonals

def diagonals (d : Nat) : List Int := (List.range (d + 1)).map fun i : Nat => (d : Int) - 2 * (i : Int)

/-- Where the furthest way to the diagonal `k` starts along it, from the ends of the last round. -/
def searchStart (v : Int → Nat) (d : Nat) (k : Int) : Nat :=
  if k = -d ∨ (k ≠ d ∧ v (k - 1) < v (k + 1)) then v (k + 1) else v (k - 1) + 1

def advanceInside (n m : Nat) (advance : Nat → Nat → Search ε Nat) (x y : Nat) : Search ε Nat :=
  if x < n ∧ y < m then advance x y else pure 0

/-- One direction of a round: `advance` follows the matches from a point, `meets` says when the ways
of both directions meet on a diagonal, `split` is then the result. -/
def searchDiagonals (n m d : Nat) (advance : Nat → Nat → Search ε Nat) (meets : Int → Nat → Bool)
    (split : Nat → Nat → Nat → Nat × Nat) :
    List Int → (Int → Nat) → Search ε ((Int → Nat) × Option (Nat × Nat))
  | [], v => return (v, none)
  | k :: ks, v => do
    let x := searchStart v d k
    let y := (x - k).toNat
    let matched ← advanceInside n m advance x y
    let v := Function.update v k (x + matched)
    if meets k (x + matched) then return (v, some (split x y matched))
    else searchDiagonals n m d advance meets split ks v

variable {ε : Type} (old new : LineView) (oldLo oldHi newLo newHi : Nat)

def delta : Int := ((oldHi - oldLo : Nat) : Int) - (newHi - newLo : Nat)

def forwardDiagonals (d : Nat) (vf vb : Int → Nat) :
    Search ε ((Int → Nat) × Option (Nat × Nat)) :=
  let n := oldHi - oldLo
  let m := newHi - newLo
  let delta := delta oldLo oldHi newLo newHi
  searchDiagonals n m d
    (fun x y => commonPrefix old new (oldLo + x) oldHi (newLo + y) newHi)
    (fun k x => delta % 2 = 1 ∧ |k - delta| ≤ (d : Int) - 1 ∧ n ≤ x + vb (-(k - delta)))
    (fun x y _ => (x + oldLo, y + newLo)) (diagonals d) vf

def backwardDiagonals (d : Nat) (vf vb : Int → Nat) :
    Search ε ((Int → Nat) × Option (Nat × Nat)) :=
  let n := oldHi - oldLo
  let m := newHi - newLo
  let delta := delta oldLo oldHi newLo newHi
  searchDiagonals n m d
    (fun x y => commonSuffix old new oldLo (oldLo + n - x) newLo (newLo + m - y))
    (fun k x => ¬ delta % 2 = 1 ∧ |k - delta| ≤ (d : Int) ∧ n ≤ x + vf (-(k - delta)))
    (fun x y matched => (n - (x + matched) + oldLo, m - (y + matched) + newLo)) (diagonals d) vb

structure Scratch where
  vf : Int → Nat
  vb : Int → Nat

def searchRounds : List Nat → Scratch → Search ε (Scratch × Option (Nat × Nat))
  | [], scratch => return (scratch, none)
  | d :: ds, scratch => do
    let (vf, found) ← forwardDiagonals old new oldLo oldHi newLo newHi d scratch.vf scratch.vb
    if found.isSome then return (⟨vf, scratch.vb⟩, found)
    let (vb, found) ← backwardDiagonals old new oldLo oldHi newLo newHi d vf scratch.vb
    if found.isSome then return (⟨vf, vb⟩, found)
    searchRounds ds ⟨vf, vb⟩

def findMiddleSnake (scratch : Scratch) : Search ε (Scratch × Option (Nat × Nat)) :=
  let n := oldHi - oldLo
  let m := newHi - newLo
  if n = 0 ∨ m = 0 then return (scratch, some (oldLo, newLo))
  else
    searchRounds old new oldLo oldHi newLo newHi (List.range ((n + m + 1) / 2 + 1))
      ⟨Function.update scratch.vf 1 0, Function.update scratch.vb 1 0⟩

end Diagonals

end Heddle.LineDiff
