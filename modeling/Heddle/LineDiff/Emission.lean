import Heddle.LineDiff.Slide

namespace Heddle.LineDiff
open Heddle.Lib

section Alignment
variable {xs ys : List α} {x y x' y' : Nat}

theorem Aligns.of_append (h : Aligns xs ys x y (runs ++ runs') x' y') :
    ∃ x'' y'', Aligns xs ys x y runs x'' y'' ∧ Aligns xs ys x'' y'' runs' x' y' := by
  induction runs generalizing x y with
  | nil => exact ⟨x, y, .nil le_rfl le_rfl, h⟩
  | cons run runs ih =>
    cases h with
    | cons hx hy hpos hmatch hrest =>
      obtain ⟨x'', y'', hruns, hruns'⟩ := ih hrest
      exact ⟨x'', y'', .cons hx hy hpos hmatch hruns, hruns'⟩

theorem Aligns.runOf_bounds (h : Aligns xs ys x y (runOf oldStart newStart len) x' y')
    (hpos : 0 < len) : y ≤ newStart ∧ newStart + len ≤ y' := by
  rw [runOf_pos hpos] at h
  cases h with
  | cons _ hy _ _ hrest => exact ⟨hy, hrest.le.2⟩

theorem aligns_iff (runs : List EqualRun) :
    Aligns xs ys x y runs x' y' ↔ x ≤ x' ∧ y ≤ y' ∧
      (∀ run ∈ runs, x ≤ run.oldStart ∧ run.oldStart + run.len ≤ x' ∧ y ≤ run.newStart ∧
        run.newStart + run.len ≤ y' ∧ 0 < run.len ∧
        ∀ i < run.len, MatchAt xs ys (run.oldStart + i) (run.newStart + i)) ∧
      runs.Pairwise fun run next =>
        run.oldStart + run.len ≤ next.oldStart ∧ run.newStart + run.len ≤ next.newStart := by
  induction runs generalizing x y with
  | nil =>
    constructor
    · intro h
      exact ⟨h.le.1, h.le.2, fun _ hrun => absurd hrun List.not_mem_nil, .nil⟩
    · exact fun ⟨hx, hy, _⟩ => .nil hx hy
  | cons run runs ih =>
    rw [List.pairwise_cons, List.forall_mem_cons]
    constructor
    · intro h
      cases h with
      | cons hx hy hpos hmatch hrest =>
        obtain ⟨hx', hy', hall, hpairwise⟩ := ih.1 hrest
        refine ⟨by omega, by omega, ⟨⟨hx, hx', hy, hy', hpos, hmatch⟩, fun next hnext => ?_⟩,
          fun next hnext => ?_, hpairwise⟩
        · obtain ⟨hold, hold', hnew, hnew', hrun⟩ := hall next hnext
          exact ⟨by omega, hold', by omega, hnew', hrun⟩
        · obtain ⟨hold, _, hnew, _⟩ := hall next hnext
          exact ⟨hold, hnew⟩
    · rintro ⟨_, _, ⟨⟨hx, hx', hy, hy', hpos, hmatch⟩, hall⟩, hfirst, hpairwise⟩
      refine .cons hx hy hpos hmatch (ih.2 ⟨hx', hy', fun next hnext => ?_, hpairwise⟩)
      obtain ⟨_, hold', _, hnew', hrun⟩ := hall next hnext
      exact ⟨(hfirst next hnext).1, hold', (hfirst next hnext).2, hnew', hrun⟩

end Alignment

section Pieces
variable [DecidableEq α] (a b : List α)

def firstStart (run : EqualRun) (cursor : Nat) : Nat :=
  if 0 < slideLength a b run cursor then cursor else tailStart a b run cursor

def nextStart (cursor : Nat) : List EqualRun → Nat
  | [] => b.length
  | run :: _ => firstStart a b run cursor

def NoOverrun : Nat → List EqualRun → Prop
  | _, [] => True
  | cursor, run :: runs =>
    (MovesRight a b run cursor →
      run.newStart + run.len + (slidTail a b run cursor).len ≤
        nextStart a b (run.newStart + run.len) runs) ∧
    NoOverrun (run.newStart + run.len) runs

variable {a b} {run : EqualRun} {cursor : Nat}

theorem slidTail_len (a b : List α) (run : EqualRun) (cursor : Nat) :
    slideLength a b run cursor + (slidTail a b run cursor).len = run.len := by
  have hle := slideLength_le a b run cursor
  change slideLength a b run cursor + (run.len - slideLength a b run cursor) = _
  omega

theorem cursor_add_slideLength (h : cursor ≤ run.newStart) :
    cursor + slideLength a b run cursor ≤ run.newStart := by
  have hle := slideLength_le a b run cursor
  omega

theorem le_tailStart (a b : List α) (run : EqualRun) (cursor : Nat) :
    run.newStart + slideLength a b run cursor ≤ tailStart a b run cursor := by
  have hlen := slidTail_len a b run cursor
  unfold tailStart
  split
  · omega
  · exact le_rfl

theorem le_firstStart (h : cursor ≤ run.newStart) : cursor ≤ firstStart a b run cursor := by
  have htail := le_tailStart a b run cursor
  unfold firstStart
  split
  · exact le_rfl
  · omega

theorem tailStart_add :
    tailStart a b run cursor + (slidTail a b run cursor).len =
      if MovesRight a b run cursor then run.newStart + run.len + (slidTail a b run cursor).len
      else run.newStart + run.len := by
  have hlen := slidTail_len a b run cursor
  unfold tailStart
  split
  · rfl
  · rw [← hlen, ← Nat.add_assoc]
    rfl

theorem aligns_emittedPieces (hcursor : cursor ≤ run.newStart)
    (hmatched : ∀ i < run.len, MatchAt a b (run.oldStart + i) (run.newStart + i)) :
    Aligns a b run.oldStart (firstStart a b run cursor) (emittedPieces a b run cursor)
      (run.oldStart + run.len) (tailStart a b run cursor + (slidTail a b run cursor).len) := by
  have hlen := slidTail_len a b run cursor
  have htailMatched : ∀ i < (slidTail a b run cursor).len,
      MatchAt a b ((slidTail a b run cursor).oldStart + i) (tailStart a b run cursor + i) := by
    intro i hi
    unfold tailStart
    split
    · rename_i hmoves
      exact hmoves.2.2.1 i hi
    · change MatchAt a b (run.oldStart + slideLength a b run cursor + i)
        (run.newStart + slideLength a b run cursor + i)
      rw [Nat.add_assoc, Nat.add_assoc]
      exact hmatched _ (by omega)
  have htail := aligns_runOf htailMatched
  have hend : (slidTail a b run cursor).oldStart + (slidTail a b run cursor).len =
      run.oldStart + run.len := by
    change run.oldStart + slideLength a b run cursor + _ = _
    omega
  rw [hend] at htail
  unfold firstStart emittedPieces
  split
  · have hbefore := cursor_add_slideLength (a := a) (b := b) hcursor
    have hafter := le_tailStart a b run cursor
    exact (aligns_runOf slideLength_matched).append (htail.mono le_rfl (by omega))
  · rename_i hnone
    have hzero : slideLength a b run cursor = 0 := Nat.eq_zero_of_not_pos hnone
    dsimp only
    rw [hzero, runOf_zero, List.nil_append]
    exact htail.mono (Nat.le_add_right _ _) le_rfl

theorem pairedLines_emittedRuns (runs : List EqualRun) :
    pairedLines (emittedRuns a b cursor runs) = pairedLines runs := by
  induction runs generalizing cursor with
  | nil => rfl
  | cons run runs ih =>
    rw [emittedRuns, emittedPieces, pairedLines_append, pairedLines_append, pairedLines_runOf,
      pairedLines_runOf, slidTail_len, ih]
    rfl

theorem le_nextStart (h : Aligns a b x cursor runs x' y') (hy : y' ≤ b.length) :
    cursor ≤ nextStart a b cursor runs := by
  cases h with
  | nil _ hcursor => exact hcursor.trans hy
  | cons _ hcursor => exact le_firstStart hcursor

theorem aligns_emittedRuns (h : Aligns a b x cursor runs x' y') (hy : y' ≤ b.length)
    (hclear : NoOverrun a b cursor runs) :
    Aligns a b x (nextStart a b cursor runs) (emittedRuns a b cursor runs) x' b.length := by
  induction runs generalizing x cursor with
  | nil =>
    cases h with
    | nil hx _ => exact .nil hx le_rfl
  | cons run runs ih =>
    cases h with
    | cons hx hcursor hpos hmatched hrest =>
      have hnext : tailStart a b run cursor + (slidTail a b run cursor).len ≤
          nextStart a b (run.newStart + run.len) runs := by
        rw [tailStart_add]
        split
        · exact hclear.1 ‹_›
        · exact le_nextStart hrest hy
      have hpieces := (aligns_emittedPieces hcursor hmatched).mono hx le_rfl
      exact hpieces.append ((ih hrest hclear.2).mono le_rfl hnext)

theorem Aligns.le_firstStart (h : Aligns a b x y (emittedPieces a b run cursor) x' y')
    (hpos : 0 < run.len) : y ≤ firstStart a b run cursor := by
  have hlen := slidTail_len a b run cursor
  obtain ⟨x'', y'', hfirst, htail⟩ := h.of_append
  unfold firstStart
  split
  · exact (hfirst.runOf_bounds ‹_›).1
  · exact hfirst.le.2.trans (htail.runOf_bounds (by omega)).1

section
variable (h : Aligns a b x y (emittedRuns a b cursor runs) x' b.length)
  (hpos : ∀ run ∈ runs, 0 < run.len)
include h hpos

theorem Aligns.le_nextStart : y ≤ nextStart a b cursor runs := by
  cases runs with
  | nil => exact h.le.2
  | cons run runs =>
    obtain ⟨x'', y'', hpieces, _⟩ := h.of_append
    exact hpieces.le_firstStart (hpos run List.mem_cons_self)

theorem noOverrun_of_aligns : NoOverrun a b cursor runs := by
  induction runs generalizing x y cursor with
  | nil => trivial
  | cons run runs ih =>
    have hrestPos : ∀ next ∈ runs, 0 < next.len := fun next hnext => hpos next (.tail run hnext)
    obtain ⟨x'', y'', hpieces, hrest⟩ := h.of_append
    refine ⟨fun hmoves => ?_, ih hrest hrestPos⟩
    obtain ⟨_, _, _, htail⟩ := hpieces.of_append
    have hend := (htail.runOf_bounds hmoves.2.1).2
    rw [tailStart_add, if_pos hmoves] at hend
    exact hend.trans (hrest.le_nextStart hrestPos)

end

end Pieces

section Visitor
variable {old new : LineView} {a b : List Bytes}

theorem foldlM_emitSlid (visit : σ → EqualRun → Except ε σ) (hold : old.Shows a) (hnew : new.Shows b)
    (h : Aligns a b x cursor runs x' y') (hx : x' ≤ a.length) (hy : y' ≤ b.length) :
    ∃ cursor', ∀ s, runs.foldlM (fun emit run => emitSlid old new visit run emit) ⟨cursor, s⟩ = (do
      let visited ← List.foldlM (callVisitor visit) s (emittedRuns a b cursor runs)
      return ⟨cursor', visited⟩) := by
  induction runs generalizing x cursor with
  | nil => exact ⟨cursor, fun s => rfl⟩
  | cons run runs ih =>
    cases h with
    | cons _ hcursor hpos _ hrest =>
      obtain ⟨cursor', hfold⟩ := ih hrest
      have hle := hrest.le
      refine ⟨cursor', fun s => ?_⟩
      rw [List.foldlM_cons, emitSlid_eq visit hold hnew hpos hcursor (by omega) (by omega), emittedRuns,
        List.foldlM_append]
      simp only [bind_assoc, pure_bind, hfold]

end Visitor

end Heddle.LineDiff
