import Heddle.LineDiff.Scan
import Heddle.Lib.EditGraph

namespace Heddle.LineDiff
open Heddle.Lib List

def segment (xs : List α) (lo hi : Nat) : List α := (xs.take hi).drop lo

section Segment
variable {xs : List α}

theorem segment_length (h : hi ≤ xs.length) : (segment xs lo hi).length = hi - lo := by
  rw [segment, length_drop, length_take, Nat.min_eq_left h]

theorem segment_getElem? (h : lo + i < hi) : (segment xs lo hi)[i]? = xs[lo + i]? := by
  rw [segment, getElem?_drop, getElem?_take_of_lt h]

theorem segment_take (h : lo + n ≤ hi) : (segment xs lo hi).take n = segment xs lo (lo + n) := by
  rw [segment, segment, take_drop, take_take, Nat.min_eq_left h]

theorem segment_drop : (segment xs lo hi).drop n = segment xs (lo + n) hi := by
  rw [segment, segment, drop_drop]

theorem matchAt_segment (hx : x < hi - lo) (hy : y < hi' - lo') :
    MatchAt (segment xs lo hi) (segment ys lo' hi') x y ↔ MatchAt xs ys (lo + x) (lo' + y) := by
  rw [MatchAt, MatchAt, segment_getElem? (by omega), segment_getElem? (by omega)]

end Segment

structure Frame (old new : LineView) (a b : List Bytes) (oldLo oldHi newLo newHi : Nat) : Prop where
  oldShows : old.Shows a
  newShows : new.Shows b
  oldLe : oldLo ≤ oldHi
  newLe : newLo ≤ newHi
  oldIn : oldHi ≤ a.length
  newIn : newHi ≤ b.length

section Lines
variable {old new : LineView} {a b : List Bytes} {oldLo oldHi newLo newHi : Nat}

theorem linesEq_yields (hold : old.Shows a) (hnew : new.Shows b) (hi : a[i]? = some x)
    (hj : b[j]? = some y) : Yields (linesEq (ε := ε) old new i j) (x == y) :=
  (consumeWork_yields 1).bind ((Yields.lift (hold.line i x hi)).bind
    ((Yields.lift (hnew.line j y hj)).bind (.pure _)))

theorem linesEq_match (hold : old.Shows a) (hnew : new.Shows b) (hi : i < a.length)
    (hj : j < b.length) : ∃ same, Yields (linesEq (ε := ε) old new i j) same ∧
      (same = true ↔ MatchAt a b i j) := by
  refine ⟨_, linesEq_yields hold hnew (getElem?_eq_getElem hi) (getElem?_eq_getElem hj), ?_⟩
  rw [beq_iff_eq]
  constructor
  · intro heq
    exact ⟨a[i], getElem?_eq_getElem hi, heq ▸ getElem?_eq_getElem hj⟩
  · rintro ⟨c, hc, hc'⟩
    rw [getElem?_eq_getElem hi] at hc
    rw [getElem?_eq_getElem hj] at hc'
    exact (Option.some.inj hc).trans (Option.some.inj hc').symm

namespace Frame

section
variable (h : Frame old new a b oldLo oldHi newLo newHi)
include h

theorem oldLength :
    (segment a oldLo oldHi).length = oldHi - oldLo := segment_length h.oldIn

theorem newLength :
    (segment b newLo newHi).length = newHi - newLo := segment_length h.newIn

theorem matchAt_reverse (hx : x < oldHi - oldLo)
    (hy : y < newHi - newLo) :
    MatchAt (segment a oldLo oldHi).reverse (segment b newLo newHi).reverse x y ↔
      MatchAt a b (oldHi - 1 - x) (newHi - 1 - y) := by
  have hback : MatchAt (segment a oldLo oldHi).reverse (segment b newLo newHi).reverse _ _ ↔
      MatchAt (segment a oldLo oldHi) (segment b newLo newHi) (oldHi - oldLo - 1 - x)
        (newHi - newLo - 1 - y) :=
    Lib.matchAt_reverse (by rw [h.oldLength]; omega) (by rw [h.newLength]; omega)
  rw [h.oldLength, h.newLength] at hback
  have hx' : oldHi - oldLo - (oldHi - oldLo - 1 - x + 1) = x := by omega
  have hy' : newHi - newLo - (newHi - newLo - 1 - y + 1) = y := by omega
  have hx'' : oldLo + (oldHi - oldLo - 1 - x) = oldHi - 1 - x := by omega
  have hy'' : newLo + (newHi - newLo - 1 - y) = newHi - 1 - y := by omega
  rw [hx', hy'] at hback
  rw [hback, matchAt_segment (by omega) (by omega), hx'', hy'']

omit h in
theorem yields_oneMatch {head : Search ε Bool} {rest : Search ε Nat} (hsame : Yields head same)
    (hiff : same = true ↔ MatchAt xs ys (x + matched) (y + matched))
    (hmatched : ∀ i < matched, MatchAt xs ys (x + i) (y + i))
    (hrest : (∀ i < matched + 1, MatchAt xs ys (x + i) (y + i)) →
      ∃ n, Yields rest n ∧ IsSnake xs ys x y n) :
    ∃ n, Yields (do if ← head then rest else return matched) n ∧ IsSnake xs ys x y n := by
  cases same with
  | true =>
    obtain ⟨n, hyields, hsnake⟩ := hrest (Nat.forall_lt_succ_right.2 ⟨hmatched, hiff.1 rfl⟩)
    exact ⟨n, hsame.bind hyields, hsnake⟩
  | false =>
    exact ⟨matched, hsame.bind (.pure _), hmatched, fun hmatch => Bool.noConfusion (hiff.2 hmatch)⟩

theorem commonPrefixFrom_yields (left matched : Nat)
    (hmatched : ∀ i < matched, MatchAt (segment a oldLo oldHi) (segment b newLo newHi) (x + i) (y + i))
    (hleft : left + matched = min (oldHi - (oldLo + x)) (newHi - (newLo + y))) :
    ∃ n, Yields (commonPrefixFrom (ε := ε) old new (oldLo + x) (newLo + y) matched left) n ∧
      IsSnake (segment a oldLo oldHi) (segment b newLo newHi) x y n := by
  induction left generalizing matched with
  | zero =>
    refine ⟨matched, .pure _, hmatched, fun hmatch => ?_⟩
    obtain ⟨hx, hy⟩ := hmatch.lt
    rw [h.oldLength] at hx
    rw [h.newLength] at hy
    omega
  | succ left ih =>
    have hx : x + matched < oldHi - oldLo := by omega
    have hy : y + matched < newHi - newLo := by omega
    have hold : oldLo + x + matched < a.length := by have := h.oldIn; omega
    have hnew : newLo + y + matched < b.length := by have := h.newIn; omega
    obtain ⟨same, hsame, hiff⟩ := linesEq_match (ε := ε) h.oldShows h.newShows hold hnew
    rw [Nat.add_assoc, Nat.add_assoc, ← matchAt_segment hx hy] at hiff
    exact yields_oneMatch hsame hiff hmatched fun hmatched' => ih (matched + 1) hmatched' (by omega)

theorem commonPrefix_yields (x y : Nat) :
    ∃ n, Yields (commonPrefix (ε := ε) old new (oldLo + x) oldHi (newLo + y) newHi) n ∧
      IsSnake (segment a oldLo oldHi) (segment b newLo newHi) x y n :=
  h.commonPrefixFrom_yields _ 0 (fun _ hi => absurd hi (Nat.not_lt_zero _)) rfl

theorem commonSuffixFrom_yields (left matched : Nat)
    (hmatched : ∀ i < matched, MatchAt (segment a oldLo oldHi).reverse (segment b newLo newHi).reverse
      (x + i) (y + i))
    (hleft : left + matched = min (oldHi - oldLo - x) (newHi - newLo - y)) :
    ∃ n, Yields (commonSuffixFrom (ε := ε) old new (oldHi - x) (newHi - y) matched left) n ∧
      IsSnake (segment a oldLo oldHi).reverse (segment b newLo newHi).reverse x y n := by
  induction left generalizing matched with
  | zero =>
    refine ⟨matched, .pure _, hmatched, fun hmatch => ?_⟩
    obtain ⟨hx, hy⟩ := hmatch.lt
    rw [length_reverse, h.oldLength] at hx
    rw [length_reverse, h.newLength] at hy
    omega
  | succ left ih =>
    have hx : x + matched < oldHi - oldLo := by omega
    have hy : y + matched < newHi - newLo := by omega
    have hold : oldHi - x - 1 - matched < a.length := by have := h.oldIn; omega
    have hnew : newHi - y - 1 - matched < b.length := by have := h.newIn; omega
    obtain ⟨same, hsame, hiff⟩ := linesEq_match (ε := ε) h.oldShows h.newShows hold hnew
    have hx' : oldHi - x - 1 - matched = oldHi - 1 - (x + matched) := by omega
    have hy' : newHi - y - 1 - matched = newHi - 1 - (y + matched) := by omega
    rw [hx', hy', ← h.matchAt_reverse hx hy] at hiff
    exact yields_oneMatch hsame hiff hmatched fun hmatched' => ih (matched + 1) hmatched' (by omega)

theorem commonSuffix_yields (x y : Nat) :
    ∃ n, Yields (commonSuffix (ε := ε) old new oldLo (oldHi - x) newLo (newHi - y)) n ∧
      IsSnake (segment a oldLo oldHi).reverse (segment b newLo newHi).reverse x y n := by
  apply h.commonSuffixFrom_yields _ 0 fun _ hi => absurd hi (Nat.not_lt_zero _)
  omega

end

end Frame

end Lines

end Heddle.LineDiff
