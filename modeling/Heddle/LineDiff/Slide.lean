import Heddle.LineDiff.Conquer
import Mathlib.Data.List.TakeWhile

namespace Heddle.LineDiff
open Heddle.Lib
open List hiding beq_eq_decide min tail

instance [DecidableEq α] (xs ys : List α) (x y : Nat) : Decidable (MatchAt xs ys x y) :=
  decidable_of_iff (xs[x]?.any fun c => ys[y]? = some c) <| by
    rw [MatchAt, Option.any_eq_true]
    exact exists_congr fun c => and_congr_right fun _ => decide_eq_true_iff

section Pieces
variable [DecidableEq α] (a b : List α)

def CopiedAt (run : EqualRun) (start : Nat) : Prop :=
  ∀ i < run.len, MatchAt a b (run.oldStart + i) (start + i)

instance (run : EqualRun) (start : Nat) : Decidable (CopiedAt a b run start) :=
  inferInstanceAs (Decidable (∀ i < run.len, MatchAt a b (run.oldStart + i) (start + i)))

def slideLength (run : EqualRun) (cursor : Nat) : Nat :=
  ((range (min (run.newStart - cursor) run.len)).takeWhile fun i =>
    MatchAt a b (run.oldStart + i) (cursor + i)).length

def slidTail (run : EqualRun) (cursor : Nat) : EqualRun :=
  let slide := slideLength a b run cursor
  ⟨run.oldStart + slide, run.newStart + slide, run.len - slide⟩

/-- What is left of the run stands right behind the run too, and once more at the end of the text. -/
def MovesRight (run : EqualRun) (cursor : Nat) : Prop :=
  let tail := slidTail a b run cursor
  cursor < run.newStart ∧ 0 < tail.len ∧ CopiedAt a b tail (run.newStart + run.len) ∧
    CopiedAt a b tail (b.length - tail.len)

instance (run : EqualRun) (cursor : Nat) : Decidable (MovesRight a b run cursor) :=
  inferInstanceAs (Decidable (_ ∧ _ ∧ _ ∧ _))

def tailStart (run : EqualRun) (cursor : Nat) : Nat :=
  if MovesRight a b run cursor then run.newStart + run.len else (slidTail a b run cursor).newStart

def emittedPieces (run : EqualRun) (cursor : Nat) : List EqualRun :=
  let tail := slidTail a b run cursor
  runOf run.oldStart cursor (slideLength a b run cursor) ++
    runOf tail.oldStart (tailStart a b run cursor) tail.len

def emittedRuns : Nat → List EqualRun → List EqualRun
  | _, [] => []
  | cursor, run :: runs => emittedPieces a b run cursor ++ emittedRuns (run.newStart + run.len) runs

end Pieces

section Slide
variable [DecidableEq α] {a b : List α} {run : EqualRun} {cursor : Nat}

theorem slideLength_le (a b : List α) (run : EqualRun) (cursor : Nat) :
    slideLength a b run cursor ≤ min (run.newStart - cursor) run.len := by
  have hle := (List.takeWhile_prefix (l := range (min (run.newStart - cursor) run.len))
    fun i => decide (MatchAt a b (run.oldStart + i) (cursor + i))).length_le
  rwa [length_range] at hle

theorem slideLength_matched : ∀ i < slideLength a b run cursor,
    MatchAt a b (run.oldStart + i) (cursor + i) := by
  intro i hi
  have hprefix := takeWhile_prefix (l := range (min (run.newStart - cursor) run.len))
    fun i => decide (MatchAt a b (run.oldStart + i) (cursor + i))
  have hget := hprefix.getElem hi
  rw [getElem_range] at hget
  have hmem := mem_takeWhile_imp (getElem_mem hi)
  rw [hget] at hmem
  exact of_decide_eq_true hmem

end Slide

section Code
variable {old new : LineView} {a b : List Bytes} {run : EqualRun} {cursor start : Nat}

section
variable (hold : old.Shows a) (hnew : new.Shows b)
include hold hnew

theorem sameLine_eq (hi : i < a.length)
    (hj : j < b.length) : sameLine (ε := ε) old new i j = .ok (decide (MatchAt a b i j)) := by
  have hi' := getElem?_eq_getElem hi
  have hj' := getElem?_eq_getElem hj
  have hmatch : MatchAt a b i j ↔ a[i] = b[j] := by
    rw [MatchAt, hi', hj']
    constructor
    · rintro ⟨c, hc, hc'⟩
      exact (Option.some.inj hc).trans (Option.some.inj hc').symm
    · exact fun heq => ⟨a[i], rfl, congrArg some heq.symm⟩
  rw [sameLine, hold.line i _ hi', hnew.line j _ hj']
  change Except.ok (a[i] == b[j]) = _
  rw [decide_eq_decide.2 hmatch, beq_eq_decide]

theorem slideFrom_eq (slide left : Nat)
    (holdIn : run.oldStart + (slide + left) ≤ a.length) (hnewIn : cursor + (slide + left) ≤ b.length) :
    slideFrom (ε := ε) old new run cursor slide left =
      .ok (slide + ((range' slide left).takeWhile fun i =>
        MatchAt a b (run.oldStart + i) (cursor + i)).length) := by
  induction left generalizing slide with
  | zero => rfl
  | succ left ih =>
    rw [slideFrom, sameLine_eq hold hnew (by omega) (by omega), range'_succ, takeWhile_cons]
    by_cases hmatch : MatchAt a b (run.oldStart + slide) (cursor + slide)
    · rw [decide_eq_true hmatch, if_pos rfl, length_cons]
      refine (ih (slide + 1) (by omega) (by omega)).trans ?_
      rw [Nat.add_assoc, Nat.add_comm 1]
    · rw [decide_eq_false hmatch, if_neg Bool.false_ne_true]
      rfl

theorem runMatchesFrom_eq (offset left : Nat)
    (holdIn : run.oldStart + (offset + left) ≤ a.length)
    (hnewIn : start + (offset + left) ≤ b.length) :
    runMatchesFrom (ε := ε) old new run start offset left =
      .ok (decide (∀ i < left, MatchAt a b (run.oldStart + (offset + i)) (start + (offset + i)))) := by
  induction left generalizing offset with
  | zero =>
    have hnone : ∀ i < 0, MatchAt a b (run.oldStart + (offset + i)) (start + (offset + i)) :=
      fun _ hi => absurd hi (Nat.not_lt_zero _)
    rw [decide_eq_true hnone]
    rfl
  | succ left ih =>
    rw [runMatchesFrom, sameLine_eq hold hnew (by omega) (by omega)]
    by_cases hmatch : MatchAt a b (run.oldStart + offset) (start + offset)
    · rw [decide_eq_true hmatch]
      refine (ih (offset + 1) (by omega) (by omega)).trans (congrArg Except.ok (decide_eq_decide.2 ?_))
      rw [Nat.forall_lt_succ_left]
      simp only [Nat.add_assoc, Nat.add_comm 1, Nat.add_zero, hmatch, true_and]
    · rw [decide_eq_false hmatch]
      have hfirst : ¬ ∀ i < left + 1,
          MatchAt a b (run.oldStart + (offset + i)) (start + (offset + i)) :=
        fun hall => hmatch (hall 0 (Nat.succ_pos left))
      rw [decide_eq_false hfirst]
      rfl

theorem runMatchesAt_eq
    (holdIn : run.oldStart + run.len ≤ a.length) (hnewIn : start + run.len ≤ b.length) :
    runMatchesAt (ε := ε) old new run start = .ok (decide (CopiedAt a b run start)) := by
  rw [runMatchesAt, runMatchesFrom_eq hold hnew 0 run.len (by omega) (by omega)]
  simp only [Nat.zero_add]
  rfl

end

theorem CopiedAt.le (h : CopiedAt a b run start) (hpos : 0 < run.len) :
    start + run.len ≤ b.length := by
  have hlast := (h (run.len - 1) (Nat.sub_one_lt (Nat.ne_of_gt hpos))).lt
  omega

section
variable (hold : old.Shows a) (hnew : new.Shows b) (hpos : 0 < run.len)
  (holdIn : run.oldStart + run.len ≤ a.length) (originalEnd : Nat) (leftJustified : Bool)
include hold hnew hpos holdIn

theorem compactKeepsRightShift_eq :
    compactKeepsRightShift (ε := ε) old new run originalEnd leftJustified =
      .ok (decide (leftJustified = false ∧ CopiedAt a b run originalEnd ∧
        CopiedAt a b run (b.length - run.len))) := by
  rw [compactKeepsRightShift, hnew.length]
  by_cases hskip : leftJustified = true ∨ run.len = 0 ∨ b.length < originalEnd + run.len
  · have hnone : ¬ (leftJustified = false ∧ CopiedAt a b run originalEnd ∧
        CopiedAt a b run (b.length - run.len)) := by
      rintro ⟨hmoves, hcopied, _⟩
      have hle := hcopied.le hpos
      rcases hskip with hjustified | hzero | hlt
      · exact Bool.noConfusion (hmoves.symm.trans hjustified)
      · omega
      · omega
    rw [if_pos hskip, decide_eq_false hnone]
    rfl
  · have hmoves : leftJustified = false := Bool.eq_false_iff.2 fun h => hskip (.inl h)
    rw [if_neg hskip, runMatchesAt_eq hold hnew holdIn (by omega),
      runMatchesAt_eq hold hnew holdIn (by omega)]
    by_cases hcopied : CopiedAt a b run originalEnd
    · simp only [hcopied, hmoves, true_and, decide_true]
      rfl
    · simp only [hcopied, false_and, and_false, decide_false]
      rfl

theorem rightSlide_eq :
    rightSlide (ε := ε) old new run originalEnd leftJustified =
      .ok (if leftJustified = false ∧ CopiedAt a b run originalEnd ∧
        CopiedAt a b run (b.length - run.len) then ⟨run.oldStart, originalEnd, run.len⟩ else run) := by
  rw [rightSlide, compactKeepsRightShift_eq hold hnew hpos holdIn]
  by_cases hmoves : leftJustified = false ∧ CopiedAt a b run originalEnd ∧
      CopiedAt a b run (b.length - run.len)
  · have hle := hmoves.2.1.le hpos
    have hshift : slideEqualRunRight (ε := ε) old new run originalEnd b.length leftJustified =
        .ok ⟨run.oldStart, originalEnd, run.len⟩ := by
      have hgo : ¬ (leftJustified = true ∨ run.len = 0 ∨ b.length ≤ originalEnd) := by
        rw [hmoves.1]
        rintro (hjustified | hzero | hgap)
        · exact Bool.noConfusion hjustified
        · omega
        · omega
      rw [slideEqualRunRight, if_neg hgo, if_pos hle, runMatchesAt_eq hold hnew holdIn hle,
        runMatchesAt_eq hold hnew holdIn (by omega), decide_eq_true hmoves.2.1,
        decide_eq_true hmoves.2.2]
      rfl
    rw [if_pos hmoves, decide_eq_true hmoves, hnew.length]
    exact hshift
  · rw [if_neg hmoves, decide_eq_false hmoves]
    rfl

end

theorem rightSlide_justified (run : EqualRun) (originalEnd : Nat) :
    rightSlide (ε := ε) old new run originalEnd true = .ok run := by
  rw [rightSlide, compactKeepsRightShift, if_pos (.inl rfl)]
  rfl

theorem slideEqualRun_eq (hold : old.Shows a) (hnew : new.Shows b) (hcursor : cursor ≤ run.newStart)
    (holdIn : run.oldStart + run.len ≤ a.length) (hnewIn : run.newStart + run.len ≤ b.length) :
    slideEqualRun (ε := ε) old new run cursor =
      .ok (if slideLength a b run cursor = 0 then (run, none)
        else if slideLength a b run cursor = run.len then
          (⟨run.oldStart, cursor, slideLength a b run cursor⟩, none)
        else (⟨run.oldStart, cursor, slideLength a b run cursor⟩, some (slidTail a b run cursor)),
        run.newStart + run.len) := by
  have hslide : slideFrom (ε := ε) old new run cursor 0 (min (run.newStart - cursor) run.len) = _ :=
    slideFrom_eq hold hnew 0 _ (by omega) (by omega)
  rw [Nat.zero_add, ← range_eq_range'] at hslide
  rw [slideEqualRun]
  dsimp only
  rw [hslide]
  rfl

end Code

section Emit
variable {old new : LineView} {a b : List Bytes} {run : EqualRun} {cursor : Nat}

theorem slideLength_of_le (h : run.newStart ≤ cursor) : slideLength a b run cursor = 0 := by
  have hle := slideLength_le a b run cursor
  omega

theorem tailStart_eq (htail : 0 < (slidTail a b run cursor).len) :
    tailStart a b run cursor =
      if decide ((slidTail a b run cursor).newStart ≤ cursor) = false ∧
        CopiedAt a b (slidTail a b run cursor) (run.newStart + run.len) ∧
        CopiedAt a b (slidTail a b run cursor) (b.length - (slidTail a b run cursor).len)
      then run.newStart + run.len else (slidTail a b run cursor).newStart := by
  have hjustified : (slidTail a b run cursor).newStart ≤ cursor ↔ ¬ cursor < run.newStart := by
    change run.newStart + slideLength a b run cursor ≤ cursor ↔ _
    constructor
    · omega
    · intro hle
      rw [slideLength_of_le (Nat.le_of_not_lt hle)]
      omega
  unfold tailStart MovesRight
  apply if_congr _ rfl rfl
  dsimp only
  rw [decide_eq_false_iff_not, hjustified, not_not]
  exact and_congr_right fun _ => and_iff_right htail

theorem rightSlide_slidTail (hold : old.Shows a) (hnew : new.Shows b)
    (htail : 0 < (slidTail a b run cursor).len) (holdIn : run.oldStart + run.len ≤ a.length) :
    rightSlide (ε := ε) old new (slidTail a b run cursor) (run.newStart + run.len)
        ((slidTail a b run cursor).newStart ≤ cursor) =
      .ok ⟨(slidTail a b run cursor).oldStart, tailStart a b run cursor,
        (slidTail a b run cursor).len⟩ := by
  have hle := slideLength_le a b run cursor
  have htailIn : (slidTail a b run cursor).oldStart + (slidTail a b run cursor).len ≤ a.length := by
    change run.oldStart + slideLength a b run cursor + (run.len - slideLength a b run cursor) ≤ _
    omega
  rw [rightSlide_eq hold hnew htail htailIn, tailStart_eq htail]
  split
  · rfl
  · rfl

theorem slidTail_zero (h : slideLength a b run cursor = 0) : slidTail a b run cursor = run := by
  rw [slidTail, h]
  rfl

variable (visit : σ → EqualRun → Except ε σ)

theorem visitAfterRightSlide_eq
    (h : rightSlide (ε := ε) old new run originalEnd leftJustified = .ok moved) (s : σ) :
    visitAfterRightSlide old new visit run originalEnd leftJustified s = callVisitor visit s moved := by
  rw [visitAfterRightSlide, h]
  rfl

theorem emitSlid_eq (hold : old.Shows a) (hnew : new.Shows b) (hpos : 0 < run.len)
    (hcursor : cursor ≤ run.newStart) (holdIn : run.oldStart + run.len ≤ a.length)
    (hnewIn : run.newStart + run.len ≤ b.length) (s : σ) :
    emitSlid old new visit run ⟨cursor, s⟩ = (do
      let visited ← foldlM (callVisitor visit) s (emittedPieces a b run cursor)
      return ⟨run.newStart + run.len, visited⟩) := by
  have hle := slideLength_le a b run cursor
  have htailLen : (slidTail a b run cursor).len = run.len - slideLength a b run cursor := rfl
  rw [emitSlid]
  dsimp only
  rw [slideEqualRun_eq hold hnew hcursor holdIn hnewIn, emittedPieces, foldlM_append]
  by_cases hzero : slideLength a b run cursor = 0
  · have htail : 0 < (slidTail a b run cursor).len := by omega
    have hright := rightSlide_slidTail (ε := ε) hold hnew htail holdIn
    rw [slidTail_zero hzero] at hright
    have hvisit := visitAfterRightSlide_eq visit hright s
    rw [if_pos hzero, hzero, runOf_zero, slidTail_zero hzero, runOf_pos hpos, foldlM_nil,
      pure_bind, foldlM_cons]
    simp only [foldlM_nil, bind_pure]
    change (visitAfterRightSlide old new visit run _ _ s >>= fun visited => _) = _
    rw [hvisit]
  · by_cases hall : slideLength a b run cursor = run.len
    · have hright : rightSlide (ε := ε) old new ⟨run.oldStart, cursor, run.len⟩
          (run.newStart + run.len) (cursor ≤ cursor) = .ok ⟨run.oldStart, cursor, run.len⟩ := by
        rw [decide_eq_true le_rfl]
        exact rightSlide_justified _ _
      have hvisit := visitAfterRightSlide_eq visit hright s
      have hnone : (slidTail a b run cursor).len = 0 := by omega
      rw [if_neg hzero, if_pos hall, hall, hnone, runOf_zero, runOf_pos hpos, foldlM_cons]
      simp only [foldlM_nil, bind_pure]
      change (visitAfterRightSlide old new visit ⟨run.oldStart, cursor, run.len⟩ _ _ s >>=
        fun visited => _) = _
      rw [hvisit]
    · have htail : 0 < (slidTail a b run cursor).len := by omega
      have hvisit := visitAfterRightSlide_eq visit (rightSlide_slidTail hold hnew htail holdIn)
      rw [if_neg hzero, if_neg hall, runOf_pos (Nat.pos_of_ne_zero hzero), runOf_pos htail,
        foldlM_cons]
      simp only [foldlM_cons, foldlM_nil, bind_pure, bind_assoc]
      change (callVisitor visit s _ >>= fun visited =>
        visitAfterRightSlide old new visit _ _ _ visited >>= fun visited => _) = _
      simp only [hvisit]

end Emit

end Heddle.LineDiff
