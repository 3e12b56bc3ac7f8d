import Heddle.LineDiff.Align
import Heddle.LineDiff.MiddleSnake

namespace Heddle.LineDiff
open Heddle.Lib List

section Subsequence
variable {xs ys : List α} {n : Nat}

theorem lcsLength_prefix (h : ∀ i < n, MatchAt xs ys i i) (hx : n ≤ xs.length) (hy : n ≤ ys.length) :
    lcsLength xs ys = n + lcsLength (xs.drop n) (ys.drop n) := by
  have hmatched : ∀ i < n, MatchAt xs ys (0 + i) (0 + i) := by simpa only [Nat.zero_add] using h
  have hcost : editCost xs ys n n = 0 := by
    have hsame := editCost_of_matched hmatched
    rwa [Nat.zero_add, editCost_zero_left] at hsame
  have hrest : restCost xs ys n n = editDistance xs ys := by
    have hsame := restCost_of_matched hmatched
    rw [Nat.zero_add] at hsame
    rw [hsame, ← editDistance_reverse, editDistance, length_reverse, length_reverse]
    rfl
  have hsplit := lcsLength_split hx hy (by rw [hcost, hrest, Nat.zero_add])
  have hadd := editCost_add xs ys n n
  omega

theorem lcsLength_suffix (h : ∀ i < n, MatchAt xs.reverse ys.reverse i i) (hx : n ≤ xs.length)
    (hy : n ≤ ys.length) :
    lcsLength xs ys = lcsLength (xs.take (xs.length - n)) (ys.take (ys.length - n)) + n := by
  have hback := lcsLength_prefix h (by rwa [length_reverse]) (by rwa [length_reverse])
  rw [lcsLength_reverse, drop_reverse, drop_reverse, lcsLength_reverse] at hback
  rw [hback, Nat.add_comm]

theorem two_le_editDistance (hx : 0 < xs.length) (hy : 0 < ys.length) (hfirst : ¬ MatchAt xs ys 0 0)
    (hlast : ¬ MatchAt xs.reverse ys.reverse 0 0) : 2 ≤ editDistance xs ys := by
  by_contra hlt
  have hlast' : ¬ MatchAt xs ys (xs.length - 1) (ys.length - 1) := by
    have hback : MatchAt xs.reverse ys.reverse _ _ ↔ MatchAt xs ys (xs.length - 1) (ys.length - 1) :=
      matchAt_reverse (by omega) (by omega)
    have hx' : xs.length - (xs.length - 1 + 1) = 0 := by omega
    have hy' : ys.length - (ys.length - 1 + 1) = 0 := by omega
    rw [hx', hy'] at hback
    exact fun hmatch => hlast (hback.2 hmatch)
  have hcorner : 0 < editCost xs ys 1 1 := by
    have hmismatch := editCost_mismatch hfirst
    change _ < editCost xs ys 1 1 ∨ _ < editCost xs ys 1 1 at hmismatch
    omega
  have hdiagonal : ∀ n, 0 < editCost xs ys (n + 1) (n + 1) := by
    intro n
    have hmono := editCost_diagonal_add xs ys 1 1 n
    rw [Nat.add_comm n 1]
    omega
  have hmismatch := editCost_mismatch hlast'
  have hx' : xs.length - 1 + 1 = xs.length := by omega
  have hy' : ys.length - 1 + 1 = ys.length := by omega
  rw [hx', hy', ← editDistance] at hmismatch
  rcases hmismatch with hzero | hzero
  · have hnear := le_add_editCost xs ys (xs.length - 1) ys.length
    have hnear' := le_add_editCost' xs ys (xs.length - 1) ys.length
    have heq : xs.length - 1 = ys.length - 1 + 1 := by omega
    have hpos := hdiagonal (ys.length - 1)
    rw [← heq] at hpos
    have hy'' : xs.length - 1 = ys.length := by omega
    rw [hy''] at hpos hzero
    omega
  · have hnear := le_add_editCost xs ys xs.length (ys.length - 1)
    have hnear' := le_add_editCost' xs ys xs.length (ys.length - 1)
    have hpos := hdiagonal (xs.length - 1)
    have hy'' : ys.length - 1 = xs.length := by omega
    rw [hx'] at hpos
    rw [hy''] at hzero
    omega

end Subsequence

section Alignment

inductive Aligns (xs ys : List α) : Nat → Nat → List EqualRun → Nat → Nat → Prop where
  | nil : x ≤ x' → y ≤ y' → Aligns xs ys x y [] x' y'
  | cons : x ≤ run.oldStart → y ≤ run.newStart → 0 < run.len →
      (∀ i < run.len, MatchAt xs ys (run.oldStart + i) (run.newStart + i)) →
      Aligns xs ys (run.oldStart + run.len) (run.newStart + run.len) runs x' y' →
      Aligns xs ys x y (run :: runs) x' y'

variable {xs ys : List α} {x y x' y' n : Nat}

section
variable (h : Aligns xs ys x y runs x' y')
include h

theorem Aligns.le : x ≤ x' ∧ y ≤ y' := by
  induction h with
  | nil hx hy => exact ⟨hx, hy⟩
  | cons hx hy _ _ _ ih => exact ⟨by omega, by omega⟩

theorem Aligns.mono (hx : w ≤ x) (hy : z ≤ y) :
    Aligns xs ys w z runs x' y' := by
  cases h with
  | nil hx' hy' => exact .nil (hx.trans hx') (hy.trans hy')
  | cons hx' hy' hpos hmatch hrest => exact .cons (hx.trans hx') (hy.trans hy') hpos hmatch hrest

theorem Aligns.append (h' : Aligns xs ys x' y' runs' x'' y'') :
    Aligns xs ys x y (runs ++ runs') x'' y'' := by
  induction h with
  | nil hx hy => exact h'.mono hx hy
  | cons hx hy hpos hmatch _ ih => exact .cons hx hy hpos hmatch (ih h')

end

def pairedLines (runs : List EqualRun) : Nat := (runs.map EqualRun.len).sum

theorem pairedLines_append (runs runs' : List EqualRun) :
    pairedLines (runs ++ runs') = pairedLines runs + pairedLines runs' := by
  rw [pairedLines, map_append, sum_append]
  rfl

def runOf (oldStart newStart len : Nat) : List EqualRun :=
  if 0 < len then [⟨oldStart, newStart, len⟩] else []

theorem runOf_zero (oldStart newStart : Nat) : runOf oldStart newStart 0 = [] := rfl

theorem runOf_pos (h : 0 < len) : runOf oldStart newStart len = [⟨oldStart, newStart, len⟩] := if_pos h

theorem pairedLines_runOf (oldStart newStart len : Nat) :
    pairedLines (runOf oldStart newStart len) = len := by
  unfold runOf
  split
  · rfl
  · rename_i hzero
    rw [Nat.eq_zero_of_not_pos hzero]
    rfl

theorem aligns_runOf (h : ∀ i < n, MatchAt xs ys (x + i) (y + i)) :
    Aligns xs ys x y (runOf x y n) (x + n) (y + n) := by
  unfold runOf
  split
  · exact .cons le_rfl le_rfl ‹_› h (.nil le_rfl le_rfl)
  · exact .nil (Nat.le_add_right x n) (Nat.le_add_right y n)

end Alignment

section Jobs
variable {old new : LineView} {capacity : Nat}

/-- With room for `weight` jobs, the jobs on top of the stack give these runs to the visitor. -/
def Conquers (ε : Type) (old new : LineView) (capacity : Nat) (jobs : List ConquerJob) (weight : Nat)
    (scratch : Scratch) (runs : List EqualRun) (scratch' : Scratch) : Prop :=
  ∀ ⦃σ : Type⦄ (emitRun : EqualRun → σ → Except (LineDiffError ε) σ) (rest : List ConquerJob)
    (emit emit' : σ) (budget : ResourceBudget), rest.length + weight ≤ capacity →
    budget.Unlimited → runs.foldlM (fun s run => emitRun run s) emit = .ok emit' →
    ∃ budget' : ResourceBudget, budget'.Unlimited ∧
      Rounds (conquerRound old new (findMiddleSnake old new) capacity emitRun)
        ⟨jobs ++ rest, scratch, emit, budget⟩
        ⟨rest, scratch', emit', budget'⟩

theorem conquers_nil (weight : Nat) (scratch : Scratch) :
    Conquers ε old new capacity [] weight scratch [] scratch := by
  intro σ emitRun rest emit emit' budget _ hbudget hfold
  obtain rfl := Except.ok.inj hfold
  exact ⟨budget, hbudget, .refl⟩

section
variable (h : Conquers ε old new capacity jobs weight scratch runs scratch')
include h

theorem Conquers.append (h' : Conquers ε old new capacity jobs' weight' scratch' runs' scratch'')
    (hle : jobs'.length + weight ≤ total) (hle' : weight' ≤ total) :
    Conquers ε old new capacity (jobs ++ jobs') total scratch (runs ++ runs') scratch'' := by
  intro σ emitRun rest emit emit' budget hcapacity hbudget hfold
  rw [foldlM_append, bind_eq_ok] at hfold
  obtain ⟨between, hfirst, hsecond⟩ := hfold
  have hroom : (jobs' ++ rest).length + weight ≤ capacity := by
    rw [length_append]
    omega
  obtain ⟨budget', hbudget', hrounds⟩ := h emitRun (jobs' ++ rest) emit between budget hroom hbudget
    hfirst
  obtain ⟨budget'', hbudget'', hrounds'⟩ := h' emitRun rest between emit' budget' (by omega) hbudget'
    hsecond
  rw [append_assoc]
  exact ⟨budget'', hbudget'', hrounds.trans hrounds'⟩

theorem Conquers.weaken
    (hle : weight ≤ weight') : Conquers ε old new capacity jobs weight' scratch runs scratch' :=
  fun _ emitRun rest emit emit' budget hcapacity => h emitRun rest emit emit' budget (by omega)

end

theorem asU32_eq (h : n < 2 ^ 32) : asU32 n = n := Nat.mod_eq_of_lt h

def equalJobs (oldStart newStart len : Nat) : List ConquerJob :=
  if 0 < len then [equalJob oldStart newStart len] else []

theorem equalJobs_length_le (oldStart newStart len : Nat) :
    (equalJobs oldStart newStart len).length ≤ len := by
  unfold equalJobs
  split
  · assumption
  · exact Nat.zero_le len

theorem conquers_equalJobs (hold : x + n < 2 ^ 32) (hnew : y + n < 2 ^ 32) (scratch : Scratch) :
    Conquers ε old new capacity (equalJobs x y n) 0 scratch (runOf x y n) scratch := by
  unfold equalJobs runOf
  split
  · rename_i hpos
    intro σ emitRun rest emit emit' budget _ hbudget hfold
    refine ⟨budget, hbudget, .single ?_⟩
    rw [foldlM_cons, bind_eq_ok] at hfold
    obtain ⟨_, hemit, hfold⟩ := hfold
    obtain rfl := Except.ok.inj hfold
    rw [singleton_append, conquerRound]
    dsimp only [equalJob]
    rw [asU32_eq (by omega), asU32_eq (by omega), asU32_eq (by omega), if_neg (by omega), hemit]
  · exact conquers_nil 0 scratch

theorem pushJob_eq (h : jobs.length < capacity) (job : ConquerJob) :
    pushJob (ε := ε) capacity job jobs = .ok (job :: jobs) := if_neg (Nat.not_le_of_lt h)

theorem pushSuffix_eq (h : jobs.length + (equalJobs x y n).length ≤ capacity) :
    pushSuffix (ε := ε) capacity x y n jobs = .ok (equalJobs x y n ++ jobs) := by
  unfold equalJobs at h ⊢
  unfold pushSuffix
  by_cases hpos : 0 < n
  · rw [if_pos hpos, length_singleton] at h
    rw [if_pos hpos, if_pos hpos]
    exact pushJob_eq (Nat.lt_of_succ_le h) _
  · rw [if_neg hpos, if_neg hpos]
    rfl

theorem emitPrefix_eq (emitRun : EqualRun → σ → Except (LineDiffError ε) σ) (emit : σ) :
    emitPrefix emitRun x y n emit = (runOf x y n).foldlM (fun s run => emitRun run s) emit := by
  unfold emitPrefix runOf
  split
  · rw [foldlM_cons]
    cases emitRun ⟨x, y, n⟩ emit with
    | error _ => rfl
    | ok _ => rfl
  · rfl

theorem conquers_range (hyields : ∀ {σ : Type} (emitRun : EqualRun → σ → Except (LineDiffError ε) σ)
      (rest : List ConquerJob) (emit emit' : σ), rest.length + weight ≤ capacity →
      emitPrefix emitRun oldLo newLo pre emit = .ok emit' →
      Yields (conquerRange old new (findMiddleSnake old new) capacity emitRun
        ⟨oldLo, oldHi, newLo, newHi, .range, 0, 0, 0⟩ rest scratch emit) (jobs ++ rest, scratch', emit'))
    (hjobs : Conquers ε old new capacity jobs weight scratch' runs scratch'')
    (hold : oldLo ≤ oldHi) (hnew : newLo ≤ newHi) (hold' : oldHi < 2 ^ 32) (hnew' : newHi < 2 ^ 32) :
    Conquers ε old new capacity [rangeJob oldLo oldHi newLo newHi] weight scratch
      (runOf oldLo newLo pre ++ runs) scratch'' := by
  intro σ emitRun rest emit emit' budget hcapacity hbudget hfold
  rw [foldlM_append, bind_eq_ok] at hfold
  obtain ⟨between, hfirst, hsecond⟩ := hfold
  rw [← emitPrefix_eq] at hfirst
  obtain ⟨budget', hrun, hbudget'⟩ := hyields emitRun rest emit between hcapacity hfirst budget hbudget
  obtain ⟨budget'', hbudget'', hrounds⟩ := hjobs emitRun rest between emit' budget' hcapacity hbudget'
    hsecond
  refine ⟨budget'', hbudget'', .head ?_ hrounds⟩
  rw [singleton_append, conquerRound]
  dsimp only [rangeJob]
  rw [asU32_eq (by omega), asU32_eq (by omega), asU32_eq (by omega), asU32_eq (by omega), hrun]

end Jobs

section Ranges
variable {old new : LineView} {a b : List Bytes} {oldLo oldHi newLo newHi capacity : Nat}

theorem le_of_matched (h : ∀ i < n, MatchAt xs ys (0 + i) (0 + i)) :
    n ≤ xs.length ∧ n ≤ ys.length := by
  cases n with
  | zero => exact ⟨Nat.zero_le _, Nat.zero_le _⟩
  | succ n =>
    have hlast := (h n (Nat.lt_succ_self n)).lt
    omega

structure Edges (ε : Type) (old new : LineView) (a b : List Bytes)
    (oldLo oldHi newLo newHi pre suffix : Nat) : Prop where
  preYields : Yields (commonPrefix old new oldLo oldHi newLo newHi : Search ε Nat) pre
  suffixYields : Yields (commonSuffix old new (oldLo + pre) oldHi (newLo + pre) newHi : Search ε Nat) suffix
  preAligns : Aligns a b oldLo newLo (runOf oldLo newLo pre) (oldLo + pre) (newLo + pre)
  suffixAligns : Aligns a b (oldHi - suffix) (newHi - suffix)
    (runOf (oldHi - suffix) (newHi - suffix) suffix) oldHi newHi
  inner : Frame old new a b (oldLo + pre) (oldHi - suffix) (newLo + pre) (newHi - suffix)
  oldRoom : oldLo + pre + suffix ≤ oldHi
  newRoom : newLo + pre + suffix ≤ newHi
  total : lcsLength (segment a oldLo oldHi) (segment b newLo newHi) =
    pre + lcsLength (segment a (oldLo + pre) (oldHi - suffix))
      (segment b (newLo + pre) (newHi - suffix)) + suffix
  -- the parts between differ in their first and last lines
  first : ¬ MatchAt a b (oldLo + pre) (newLo + pre) ∨ oldHi = oldLo + pre ∨ newHi = newLo + pre
  last : ¬ MatchAt a b (oldHi - suffix - 1) (newHi - suffix - 1) ∨ oldHi = oldLo + pre + suffix ∨
    newHi = newLo + pre + suffix

theorem Frame.exists_edges (h : Frame old new a b oldLo oldHi newLo newHi) :
    ∃ pre suffix, Edges ε old new a b oldLo oldHi newLo newHi pre suffix := by
  obtain ⟨pre, hpre, hsnake⟩ := h.commonPrefix_yields (ε := ε) 0 0
  have hpreLe := le_of_matched hsnake.matched
  have hold := h.oldLength
  have hnew := h.newLength
  have holdLe := h.oldLe
  have hnewLe := h.newLe
  have hrest : Frame old new a b (oldLo + pre) oldHi (newLo + pre) newHi :=
    ⟨h.oldShows, h.newShows, by omega, by omega, h.oldIn, h.newIn⟩
  obtain ⟨suffix, hsuffix, hsnake'⟩ := hrest.commonSuffix_yields (ε := ε) 0 0
  have hsuffixLe := le_of_matched hsnake'.matched
  rw [length_reverse, length_reverse, hrest.oldLength, hrest.newLength] at hsuffixLe
  have holdIn := h.oldIn
  have hnewIn := h.newIn
  refine ⟨pre, suffix, hpre, hsuffix, ?_, ?_, ⟨h.oldShows, h.newShows, by omega, by omega, by omega,
    by omega⟩, by omega, by omega, ?_, ?_, ?_⟩
  · apply aligns_runOf
    intro i hi
    have hmatch := (matchAt_segment (by omega) (by omega)).1 (hsnake.matched i hi)
    rwa [Nat.zero_add] at hmatch
  · have hmatched : ∀ i < suffix, MatchAt a b (oldHi - suffix + i) (newHi - suffix + i) := by
      intro i hi
      have hmatch := (hrest.matchAt_reverse (by omega) (by omega)).1
        (hsnake'.matched (suffix - 1 - i) (by omega))
      have hx : oldHi - 1 - (0 + (suffix - 1 - i)) = oldHi - suffix + i := by omega
      have hy : newHi - 1 - (0 + (suffix - 1 - i)) = newHi - suffix + i := by omega
      rwa [hx, hy] at hmatch
    have haligns := aligns_runOf hmatched
    have hx : oldHi - suffix + suffix = oldHi := by omega
    have hy : newHi - suffix + suffix = newHi := by omega
    rwa [hx, hy] at haligns
  · have hsplit := lcsLength_prefix (by simpa only [Nat.zero_add] using hsnake.matched) hpreLe.1 hpreLe.2
    rw [segment_drop, segment_drop] at hsplit
    have hsplit' := lcsLength_suffix (by simpa only [Nat.zero_add] using hsnake'.matched)
      (by rw [hrest.oldLength]; omega) (by rw [hrest.newLength]; omega)
    rw [hrest.oldLength, hrest.newLength, segment_take (by omega), segment_take (by omega)] at hsplit'
    have hx : oldLo + pre + (oldHi - (oldLo + pre) - suffix) = oldHi - suffix := by omega
    have hy : newLo + pre + (newHi - (newLo + pre) - suffix) = newHi - suffix := by omega
    rw [hx, hy] at hsplit'
    omega
  · by_cases hempty : oldHi = oldLo + pre ∨ newHi = newLo + pre
    · exact .inr hempty
    · refine .inl fun hmatch => hsnake.stops ((matchAt_segment (by omega) (by omega)).2 ?_)
      rwa [Nat.zero_add]
  · by_cases hempty : oldHi = oldLo + pre + suffix ∨ newHi = newLo + pre + suffix
    · exact .inr hempty
    · refine .inl fun hmatch => hsnake'.stops ((hrest.matchAt_reverse (by omega) (by omega)).2 ?_)
      have hx : oldHi - 1 - (0 + suffix) = oldHi - suffix - 1 := by omega
      have hy : newHi - 1 - (0 + suffix) = newHi - suffix - 1 := by omega
      rwa [hx, hy]

namespace Edges
variable {pre suffix : Nat} {scratch scratch' : Scratch}

theorem conquers_ended (e : Edges ε old new a b oldLo oldHi newLo newHi pre suffix)
    (hended : oldHi - suffix ≤ oldLo + pre ∨ newHi - suffix ≤ newLo + pre) (hold : oldHi < 2 ^ 32)
    (hnew : newHi < 2 ^ 32) (scratch : Scratch) :
    Conquers ε old new capacity [rangeJob oldLo oldHi newLo newHi]
      ((oldHi - oldLo) + (newHi - newLo)) scratch
      (runOf oldLo newLo pre ++ runOf (oldHi - suffix) (newHi - suffix) suffix) scratch := by
  have holdRoom := e.oldRoom
  have hnewRoom := e.newRoom
  have hequal := equalJobs_length_le (oldHi - suffix) (newHi - suffix) suffix
  have hjobs : Conquers ε old new capacity (equalJobs (oldHi - suffix) (newHi - suffix) suffix) 0
      scratch _ scratch := conquers_equalJobs (by omega) (by omega) scratch
  apply conquers_range _ (hjobs.weaken (Nat.zero_le _)) (by omega) (by omega) hold hnew
  intro σ emitRun rest emit emit' hcapacity hemit
  have hpush : pushSuffix (ε := ε) capacity (oldHi - suffix) (newHi - suffix) suffix rest = .ok _ :=
    pushSuffix_eq (by omega)
  refine e.preYields.bind ((Yields.lift hemit).bind (e.suffixYields.bind ?_))
  rw [if_pos hended]
  exact (Yields.lift hpush).bind (.pure _)

theorem conquers_split (e : Edges ε old new a b oldLo oldHi newLo newHi pre suffix)
    (hfound : Yields (findMiddleSnake (ε := ε) old new (oldLo + pre) (oldHi - suffix) (newLo + pre)
      (newHi - suffix) scratch) (scratch', some (splitOld, splitNew)))
    (hinner : oldLo + pre < oldHi - suffix ∧ newLo + pre < newHi - suffix)
    (hleft : 0 < (splitOld - (oldLo + pre)) + (splitNew - (newLo + pre)))
    (hright : 0 < (oldHi - suffix - splitOld) + (newHi - suffix - splitNew))
    (hx : oldLo + pre ≤ splitOld ∧ splitOld ≤ oldHi - suffix)
    (hy : newLo + pre ≤ splitNew ∧ splitNew ≤ newHi - suffix)
    (hconquersLeft : Conquers ε old new capacity [rangeJob (oldLo + pre) splitOld (newLo + pre) splitNew]
      ((splitOld - (oldLo + pre)) + (splitNew - (newLo + pre))) scratch' runs scratch'')
    (hconquersRight : Conquers ε old new capacity
      [rangeJob splitOld (oldHi - suffix) splitNew (newHi - suffix)]
      ((oldHi - suffix - splitOld) + (newHi - suffix - splitNew)) scratch'' runs' scratch''')
    (hold : oldHi < 2 ^ 32) (hnew : newHi < 2 ^ 32) :
    Conquers ε old new capacity [rangeJob oldLo oldHi newLo newHi]
      ((oldHi - oldLo) + (newHi - newLo)) scratch
      (runOf oldLo newLo pre ++ (runs ++ (runs' ++
        runOf (oldHi - suffix) (newHi - suffix) suffix))) scratch''' := by
  have holdRoom := e.oldRoom
  have hnewRoom := e.newRoom
  have hequal := equalJobs_length_le (oldHi - suffix) (newHi - suffix) suffix
  have hopen : ¬ (oldHi - suffix ≤ oldLo + pre ∨ newHi - suffix ≤ newLo + pre) := by omega
  have hlast : Conquers ε old new capacity (equalJobs (oldHi - suffix) (newHi - suffix) suffix) 0
      scratch''' _ scratch''' := conquers_equalJobs (by omega) (by omega) scratch'''
  have hroom : (rangeJob splitOld (oldHi - suffix) splitNew (newHi - suffix) ::
      equalJobs (oldHi - suffix) (newHi - suffix) suffix).length +
        ((splitOld - (oldLo + pre)) + (splitNew - (newLo + pre))) ≤
      (oldHi - oldLo) + (newHi - newLo) := by
    rw [length_cons]
    omega
  have hjobs := hconquersLeft.append (hconquersRight.append hlast le_rfl (Nat.zero_le _)) hroom
    (by omega)
  apply conquers_range _ hjobs (by omega) (by omega) hold hnew
  intro σ emitRun rest emit emit' hcapacity hemit
  have hpush : pushSuffix (ε := ε) capacity (oldHi - suffix) (newHi - suffix) suffix rest = .ok _ :=
    pushSuffix_eq (by omega)
  refine e.preYields.bind ((Yields.lift hemit).bind (e.suffixYields.bind ?_))
  rw [if_neg hopen]
  refine hfound.bind ((Yields.lift hpush).bind
    ((Yields.lift (pushJob_eq ?_ _)).bind ((Yields.lift (pushJob_eq ?_ _)).bind (.pure _))))
  · rw [length_append]
    omega
  · rw [length_cons, length_append]
    omega

theorem two_le (e : Edges ε old new a b oldLo oldHi newLo newHi pre suffix)
    (hinner : oldLo + pre < oldHi - suffix ∧ newLo + pre < newHi - suffix) :
    2 ≤ editDistance (segment a (oldLo + pre) (oldHi - suffix))
      (segment b (newLo + pre) (newHi - suffix)) := by
  have hold := e.inner.oldLength
  have hnew := e.inner.newLength
  apply two_le_editDistance (by omega) (by omega)
  · intro hmatch
    have hfirst := (matchAt_segment (by omega) (by omega)).1 hmatch
    exact e.first.elim (fun hne => hne hfirst) (by omega)
  · intro hmatch
    have hlast := (e.inner.matchAt_reverse (by omega) (by omega)).1 hmatch
    exact e.last.elim (fun hne => hne hlast) (by omega)

end Edges

theorem MiddlePoint.inside (h : MiddlePoint xs ys x y) (hfar : 2 ≤ editDistance xs ys) :
    0 < x + y ∧ x + y < xs.length + ys.length := by
  have hmiddle := h.middle
  have hx := h.oldIn
  have hy := h.newIn
  by_contra hcorner
  by_cases hzero : x + y = 0
  · obtain ⟨rfl, rfl⟩ : x = 0 ∧ y = 0 := by omega
    rw [editCost_zero_left] at hmiddle
    omega
  · obtain ⟨rfl, rfl⟩ : x = xs.length ∧ y = ys.length := by omega
    rw [← editDistance] at hmiddle
    omega

/-- The runs of a range pair a longest common subsequence of its parts. -/
theorem Frame.conquers (h : Frame old new a b oldLo oldHi newLo newHi) (hold : oldHi < 2 ^ 32)
    (hnew : newHi < 2 ^ 32) (scratch : Scratch) :
    ∃ runs scratch', Aligns a b oldLo newLo runs oldHi newHi ∧
      pairedLines runs = lcsLength (segment a oldLo oldHi) (segment b newLo newHi) ∧
      Conquers ε old new capacity [rangeJob oldLo oldHi newLo newHi]
        ((oldHi - oldLo) + (newHi - newLo)) scratch runs scratch' := by
  induction hsize : (oldHi - oldLo) + (newHi - newLo) using Nat.strong_induction_on
    generalizing oldLo oldHi newLo newHi scratch with
  | h size ih =>
    subst hsize
    obtain ⟨pre, suffix, e⟩ := h.exists_edges (ε := ε)
    have holdRoom := e.oldRoom
    have hnewRoom := e.newRoom
    have htotal := e.total
    have hlengths := e.inner.oldLength
    have hlengths' := e.inner.newLength
    by_cases hended : oldHi - suffix ≤ oldLo + pre ∨ newHi - suffix ≤ newLo + pre
    · refine ⟨_, scratch, e.preAligns.append (e.suffixAligns.mono (by omega) (by omega)), ?_,
        e.conquers_ended hended hold hnew scratch⟩
      have hnone := lcsLength_le_left (segment a (oldLo + pre) (oldHi - suffix))
        (segment b (newLo + pre) (newHi - suffix))
      have hnone' := lcsLength_le_right (segment a (oldLo + pre) (oldHi - suffix))
        (segment b (newLo + pre) (newHi - suffix))
      rw [pairedLines_append, pairedLines_runOf, pairedLines_runOf]
      omega
    · obtain ⟨scratch', x, y, hfound, hmiddle⟩ := e.inner.findMiddleSnake_yields (ε := ε)
        (by omega) (by omega) scratch
      have hx := hmiddle.oldIn
      have hy := hmiddle.newIn
      have hcorners := hmiddle.inside (e.two_le (by omega))
      have hxle : x ≤ oldHi - suffix - (oldLo + pre) := by omega
      have hyle : y ≤ newHi - suffix - (newLo + pre) := by omega
      have hframeLeft : Frame old new a b (oldLo + pre) (x + (oldLo + pre)) (newLo + pre)
          (y + (newLo + pre)) :=
        ⟨h.oldShows, h.newShows, by omega, by omega, by have := h.oldIn; omega,
          by have := h.newIn; omega⟩
      have hframeRight : Frame old new a b (x + (oldLo + pre)) (oldHi - suffix) (y + (newLo + pre))
          (newHi - suffix) :=
        ⟨h.oldShows, h.newShows, by omega, by omega, by have := h.oldIn; omega,
          by have := h.newIn; omega⟩
      obtain ⟨runs, scratch'', haligns, hpaired, hconquers⟩ := ih _ (by omega) hframeLeft (by omega)
        (by omega) scratch' rfl
      obtain ⟨runs', scratch''', haligns', hpaired', hconquers'⟩ := ih _ (by omega) hframeRight
        (by omega) (by omega) scratch'' rfl
      refine ⟨_, scratch''', e.preAligns.append (haligns.append (haligns'.append e.suffixAligns)), ?_,
        e.conquers_split hfound (by omega) (by omega) (by omega) (by omega) (by omega) hconquers
          hconquers' hold hnew⟩
      have hsplit := lcsLength_split hx hy hmiddle.path
      rw [segment_take (by omega), segment_take (by omega), segment_drop, segment_drop] at hsplit
      rw [Nat.add_comm x, Nat.add_comm y] at hpaired hpaired'
      simp only [pairedLines_append, pairedLines_runOf]
      omega

end Ranges

end Heddle.LineDiff
