import Heddle.LineDiff.Segment
import Mathlib.Algebra.Order.Group.Abs

namespace Heddle.LineDiff
open Heddle.Lib List

section Diagonals

theorem mem_diagonals :
    k ∈ diagonals d ↔ -(d : Int) ≤ k ∧ k ≤ d ∧ (d - k) % 2 = 0 := by
  rw [diagonals, mem_map]
  constructor
  · rintro ⟨i, hi, rfl⟩
    have hlt := mem_range.1 hi
    omega
  · rintro ⟨hlow, hhigh, hparity⟩
    exact ⟨((d - k) / 2).toNat, mem_range.2 (by omega), by omega⟩

theorem diagonals_nodup (d : Nat) : (diagonals d).Nodup := by
  rw [diagonals]
  apply nodup_range.map
  intro i j hij
  dsimp only at hij
  omega

/-- The array has the last point of the diagonal `k` that `d` steps reach. -/
def FurthestOn (xs ys : List α) (d : Nat) (v : Int → Nat) (k : Int) : Prop :=
  ∃ y : Nat, (v k : Int) = y + k ∧ Furthest xs ys d (v k) y

/-- The array before the round `d`: it has the ends of the last round. -/
def Level (xs ys : List α) : Nat → (Int → Nat) → Prop
  | 0, v => v 1 = 0
  | d + 1, v => ∀ k ∈ diagonals d, FurthestOn xs ys d v k

variable {xs ys : List α} {v : Int → Nat} {d : Nat} {k : Int}

theorem FurthestOn.le {x y : Nat} (h : FurthestOn xs ys d v k) (hx : (x : Int) = y + k)
    (hreach : editCost xs ys x y ≤ d) : x ≤ v k := by
  obtain ⟨y', hy', hfurthest⟩ := h
  exact hfurthest.le hreach (by omega)

/-- The start of the way to `k` is reached, and nothing cheaper is beside the diagonal behind it. -/
structure StartsAt (xs ys : List α) (d x y : Nat) : Prop where
  reach : editCost xs ys x y ≤ d
  down : ∀ i, ¬ editCost xs ys (x + i) (y + i + 1) < d
  right : ∀ i, ¬ editCost xs ys (x + i + 1) (y + i) < d

theorem startsAt_down (h : FurthestOn xs ys d v (k + 1)) (hlow : -((d : Int) + 1) ≤ k)
    (hbelow : k = -((d : Int) + 1) ∨ FurthestOn xs ys d v (k - 1) ∧ v (k - 1) < v (k + 1)) :
    ∃ y : Nat, (v (k + 1) : Int) = y + k ∧ StartsAt xs ys (d + 1) (v (k + 1)) y := by
  obtain ⟨y, hy, hfurthest⟩ := h
  refine ⟨y + 1, by omega, ?_, fun i hlt => ?_, fun i hlt => ?_⟩
  · have hstep : editCost xs ys (v (k + 1)) (y + 1) ≤ _ := editCost_down_le
    exact hstep.trans (Nat.succ_le_succ hfurthest.reach)
  · rcases hbelow with rfl | ⟨hbelow, hless⟩
    · have hfar := le_add_editCost' xs ys (v (-((d : Int) + 1) + 1) + i) (y + 1 + i + 1)
      omega
    · have hle := hbelow.le (by omega) (Nat.le_of_lt_succ hlt)
      omega
  · have hle := hfurthest.le (Nat.le_of_lt_succ hlt) (by omega)
    omega

theorem startsAt_right (h : FurthestOn xs ys d v (k - 1)) (hhigh : k ≤ (d : Int) + 1)
    (habove : k = (d : Int) + 1 ∨ FurthestOn xs ys d v (k + 1) ∧ v (k + 1) ≤ v (k - 1)) :
    ∃ y : Nat, ((v (k - 1) + 1 : Nat) : Int) = y + k ∧ StartsAt xs ys (d + 1) (v (k - 1) + 1) y := by
  obtain ⟨y, hy, hfurthest⟩ := h
  refine ⟨y, by omega, ?_, fun i hlt => ?_, fun i hlt => ?_⟩
  · have hstep : editCost xs ys (v (k - 1) + 1) y ≤ _ := editCost_right_le
    exact hstep.trans (Nat.succ_le_succ hfurthest.reach)
  · have hle := hfurthest.le (Nat.le_of_lt_succ hlt) (by omega)
    omega
  · rcases habove with rfl | ⟨habove, hless⟩
    · have hfar := le_add_editCost xs ys (v ((d : Int) + 1 - 1) + 1 + i + 1) (y + i)
      omega
    · have hle := habove.le (by omega) (Nat.le_of_lt_succ hlt)
      omega

theorem Level.startsAt (h : Level xs ys d v) (hk : k ∈ diagonals d) :
    ∃ y : Nat, (searchStart v d k : Int) = y + k ∧ StartsAt xs ys d (searchStart v d k) y := by
  obtain ⟨hlow, hhigh, hparity⟩ := mem_diagonals.1 hk
  cases d with
  | zero =>
    obtain rfl : k = 0 := by omega
    have hstart : searchStart v 0 0 = 0 := by
      rw [searchStart, if_pos (.inl rfl)]
      exact h
    rw [hstart]
    exact ⟨0, rfl, (editCost_zero_left 0).le, fun i => Nat.not_lt_zero _, fun i => Nat.not_lt_zero _⟩
  | succ d =>
    have hbelow : k ≠ -((d : Int) + 1) → FurthestOn xs ys d v (k - 1) :=
      fun hne => h (k - 1) (mem_diagonals.2 (by omega))
    have habove : k ≠ (d : Int) + 1 → FurthestOn xs ys d v (k + 1) :=
      fun hne => h (k + 1) (mem_diagonals.2 (by omega))
    rw [searchStart]
    split
    · rename_i hdown
      have hne : k ≠ (d : Int) + 1 := by omega
      apply startsAt_down (habove hne) (by omega)
      rcases hdown with hfirst | ⟨_, hless⟩
      · exact .inl (by omega)
      · by_cases hfirst : k = -((d : Int) + 1)
        · exact .inl hfirst
        · exact .inr ⟨hbelow hfirst, hless⟩
    · rename_i hright
      rw [not_or, not_and_or, not_not, Nat.not_lt] at hright
      apply startsAt_right (hbelow (by omega)) (by omega)
      by_cases hlast : k = (d : Int) + 1
      · exact .inl hlast
      · exact .inr ⟨habove hlast, hright.2.resolve_left (by omega)⟩

theorem StartsAt.furthest (h : StartsAt xs ys d x y) (hsnake : IsSnake xs ys x y n) :
    Furthest xs ys d (x + n) (y + n) := hsnake.furthest h.reach h.down h.right

end Diagonals

section Row
variable {xs ys : List α} {d : Nat} {advance : Nat → Nat → Search ε Nat} {meets : Int → Nat → Bool}
  {split : Nat → Nat → Nat → Nat × Nat}

/-- Where the ways meet on the diagonal `k`: a snake of length `n` from `(x, y)`. -/
structure MeetsAt (xs ys : List α) (d : Nat) (meets : Int → Nat → Bool) (k : Int) (x y n : Nat) :
    Prop where
  mem : k ∈ diagonals d
  diagonal : (x : Int) = y + k
  reach : editCost xs ys x y ≤ d
  snake : IsSnake xs ys x y n
  meets : meets k (x + n) = true

/-- How a direction of a round ends: the ways met, or the array has the ends of the round. -/
inductive RowEnds (xs ys : List α) (d : Nat) (meets : Int → Nat → Bool)
    (split : Nat → Nat → Nat → Nat × Nat) (ks : List Int) (v : Int → Nat) :
    (Int → Nat) × Option (Nat × Nat) → Prop where
  | met : MeetsAt xs ys d meets k x y n → RowEnds xs ys d meets split ks v (v', some (split x y n))
  | passed : (∀ k, k ∉ ks → v' k = v k) →
      (∀ k ∈ ks, FurthestOn xs ys d v' k ∧ meets k (v' k) = false) →
      RowEnds xs ys d meets split ks v (v', none)

theorem searchDiagonals_yields (hadvance : ∀ x y, x < xs.length → y < ys.length →
      ∃ n, Yields (advance x y) n ∧ IsSnake xs ys x y n) (hlevel : Level xs ys d v₀)
    (ks : List Int) (hks : ∀ k ∈ ks, k ∈ diagonals d) (hnodup : ks.Nodup) (v : Int → Nat)
    (hsame : ∀ k, k ∉ diagonals d → v k = v₀ k) :
    ∃ result, Yields (searchDiagonals xs.length ys.length d advance meets split ks v) result ∧
      RowEnds xs ys d meets split ks v result := by
  induction ks generalizing v with
  | nil => exact ⟨(v, none), .pure _, .passed (fun _ _ => rfl) fun _ hk => absurd hk not_mem_nil⟩
  | cons k ks ih =>
    have hk := hks k mem_cons_self
    obtain ⟨hlow, hhigh, hparity⟩ := mem_diagonals.1 hk
    have hstart : searchStart v d k = searchStart v₀ d k := by
      have hother : ∀ j : Int, (d - j) % 2 = 1 → v j = v₀ j := by
        intro j hj
        refine hsame j fun hmem => ?_
        have heven := (mem_diagonals.1 hmem).2.2
        omega
      rw [searchStart, searchStart, hother (k - 1) (by omega), hother (k + 1) (by omega)]
    obtain ⟨y, hy, hstarts⟩ := hlevel.startsAt hk
    rw [← hstart] at hy hstarts
    have hyk : ((searchStart v d k : Int) - k).toNat = y := by omega
    obtain ⟨n, hyields, hsnake⟩ : ∃ n,
        Yields (advanceInside xs.length ys.length advance (searchStart v d k) y) n ∧
          IsSnake xs ys (searchStart v d k) y n := by
      unfold advanceInside
      split
      · rename_i hin
        exact hadvance _ _ hin.1 hin.2
      · rename_i hout
        exact ⟨0, .pure 0, fun i hi => absurd hi (Nat.not_lt_zero i), fun h => hout h.lt⟩
    have hfurthest := hstarts.furthest hsnake
    obtain ⟨hnew, hnodup⟩ := nodup_cons.1 hnodup
    unfold searchDiagonals
    dsimp only
    rw [hyk]
    by_cases hmeets : meets k (searchStart v d k + n) = true
    · let reached := Function.update v k (searchStart v d k + n)
      refine ⟨(reached, some (split (searchStart v d k) y n)), hyields.bind ?_,
        .met ⟨hk, hy, hstarts.reach, hsnake, hmeets⟩⟩
      rw [if_pos hmeets]
      exact .pure _
    · have hsame' : ∀ j, j ∉ diagonals d → Function.update v k (searchStart v d k + n) j = v₀ j := by
        intro j hj
        have hne : j ≠ k := by
          rintro rfl
          exact hj hk
        rw [Function.update_of_ne hne]
        exact hsame j hj
      obtain ⟨result, hrest, hends⟩ := ih (fun j hj => hks j (mem_cons_of_mem k hj)) hnodup _ hsame'
      refine ⟨result, hyields.bind ?_, ?_⟩
      · rw [if_neg hmeets]
        exact hrest
      · cases hends with
        | met h => exact .met h
        | passed hkeeps hends =>
          refine .passed (fun j hj => ?_) fun j hj => ?_
          · rw [hkeeps j fun h => hj (mem_cons_of_mem k h)]
            have hne : j ≠ k := by
              rintro rfl
              exact hj mem_cons_self
            exact Function.update_of_ne hne _ _
          · rcases mem_cons.1 hj with rfl | hj
            · have hvalue := (hkeeps j hnew).trans (Function.update_self _ _ _)
              rw [FurthestOn, hvalue]
              exact ⟨⟨y + n, by omega, hfurthest⟩, Bool.eq_false_of_not_eq_true hmeets⟩
            · exact hends j hj

end Row

section Meet
variable {xs ys : List α} {d : Nat} {k : Int}

/-- A cheapest way goes through the point in its middle. -/
structure MiddlePoint (xs ys : List α) (x y : Nat) : Prop where
  oldIn : x ≤ xs.length
  newIn : y ≤ ys.length
  path : editCost xs ys x y + restCost xs ys x y ≤ editDistance xs ys
  middle : 2 * editCost xs ys x y = editDistance xs ys ∨
    2 * editCost xs ys x y = editDistance xs ys + 1

theorem middlePoint_of_le (hx : x ≤ xs.length) (hy : y ≤ ys.length)
    (hcost : editCost xs ys x y ≤ e) (hrest : restCost xs ys x y ≤ f)
    (hfar : e + f ≤ editDistance xs ys) (hef : e = f ∨ e = f + 1) : MiddlePoint xs ys x y := by
  have hthrough := editDistance_le hx hy
  exact ⟨hx, hy, by omega, by omega⟩

/-- The forward way to the start of the snake goes on to the backward one. -/
theorem MeetsAt.middlePoint_forward {meets : Int → Nat → Bool}
    (h : MeetsAt xs ys (d + 1) meets k x y n)
    (hback : FurthestOn xs.reverse ys.reverse d vb (xs.length - ys.length - k))
    (hclose : |k - (xs.length - ys.length)| ≤ (d : Int))
    (hmeet : xs.length ≤ x + n + vb (xs.length - ys.length - k))
    (hfar : d + 1 + d ≤ editDistance xs ys) : MiddlePoint xs ys x y := by
  obtain ⟨hlow, hhigh, _⟩ := mem_diagonals.1 h.mem
  have hdiagonal := h.diagonal
  obtain ⟨hclose, hclose'⟩ := abs_le.1 hclose
  obtain ⟨y', hy', hfurthest⟩ := hback
  obtain ⟨hx, hy⟩ := inside_of_editCost h.reach hfar (by omega) (by omega)
  have hfar' : d + (d + 1) ≤ editDistance xs.reverse ys.reverse := by
    rw [editDistance_reverse]
    omega
  obtain ⟨hx', hy''⟩ := inside_of_editCost hfurthest.reach hfar'
    (by rw [length_reverse, length_reverse]; omega)
    (by rw [length_reverse, length_reverse]; omega)
  rw [length_reverse] at hx' hy''
  refine middlePoint_of_le hx hy h.reach ?_ hfar (.inr rfl)
  rcases le_total (xs.length - x) (vb (xs.length - ys.length - k)) with hle | hle
  · obtain ⟨j, hj⟩ := Nat.exists_eq_add_of_le hle
    have hmono := editCost_diagonal_add xs.reverse ys.reverse (xs.length - x) (ys.length - y) j
    have hend : ys.length - y + j = y' := by omega
    rw [← hj, hend] at hmono
    exact hmono.trans hfurthest.reach
  · obtain ⟨j, hj⟩ := Nat.exists_eq_add_of_le hle
    have hmatched := restCost_of_matched fun i (hi : i < j) => h.snake.matched i (by omega)
    have hend : xs.length - (x + j) = vb (xs.length - ys.length - k) := by omega
    have hend' : ys.length - (y + j) = y' := by omega
    rw [← hmatched, restCost, hend, hend']
    exact hfurthest.reach

theorem MeetsAt.middlePoint_backward {meets : Int → Nat → Bool}
    (h : MeetsAt xs.reverse ys.reverse d meets k x y n)
    (hforward : FurthestOn xs ys d vf (xs.length - ys.length - k))
    (hclose : |k - (xs.length - ys.length)| ≤ (d : Int))
    (hmeet : xs.length ≤ x + n + vf (xs.length - ys.length - k))
    (hfar : d + d ≤ editDistance xs ys) :
    MiddlePoint xs ys (xs.length - (x + n)) (ys.length - (y + n)) := by
  have hdiagonal := h.diagonal
  obtain ⟨hclose, hclose'⟩ := abs_le.1 hclose
  obtain ⟨y', hy', hfurthest⟩ := hforward
  have hreach : editCost xs.reverse ys.reverse (x + n) (y + n) ≤ d :=
    (editCost_of_matched h.snake.matched).trans_le h.reach
  have hfar' : d + d ≤ editDistance xs.reverse ys.reverse := by rwa [editDistance_reverse]
  obtain ⟨hx, hy⟩ := inside_of_editCost hreach hfar'
    (by rw [length_reverse, length_reverse]; omega)
    (by rw [length_reverse, length_reverse]; omega)
  rw [length_reverse] at hx hy
  refine middlePoint_of_le (Nat.sub_le _ _) (Nat.sub_le _ _) ?_ ?_ hfar (.inl rfl)
  · obtain ⟨j, hj⟩ : ∃ j, vf (xs.length - ys.length - k) = xs.length - (x + n) + j :=
      Nat.exists_eq_add_of_le (by omega)
    have hmono := editCost_diagonal_add xs ys (xs.length - (x + n)) (ys.length - (y + n)) j
    have hend : ys.length - (y + n) + j = y' := by omega
    rw [← hj, hend] at hmono
    exact hmono.trans hfurthest.reach
  · rw [restCost, Nat.sub_sub_self hx, Nat.sub_sub_self hy]
    exact hreach

theorem exists_meeting (hef : e + f = editDistance xs ys)
    (hforward : ∀ k ∈ diagonals e, FurthestOn xs ys e vf k)
    (hbackward : ∀ k ∈ diagonals f, FurthestOn xs.reverse ys.reverse f vb k) :
    ∃ k ∈ diagonals e, xs.length - ys.length - k ∈ diagonals f ∧
      xs.length ≤ vf k + vb (xs.length - ys.length - k) := by
  have hle : e ≤ editDistance xs ys := by omega
  obtain ⟨x, hx, y, hy, hcost, hrest⟩ := exists_editCost hle
  have hadd := editCost_add xs ys x y
  have hrestAdd := restCost_add xs ys x y
  have hnear := le_add_editCost xs ys x y
  have hnear' := le_add_editCost' xs ys x y
  have hrestNear := le_add_editCost xs.reverse ys.reverse (xs.length - x) (ys.length - y)
  have hrestNear' := le_add_editCost' xs.reverse ys.reverse (xs.length - x) (ys.length - y)
  rw [← restCost] at hrestNear hrestNear'
  have hk : (x : Int) - y ∈ diagonals e := mem_diagonals.2 (by omega)
  have hk' : (xs.length : Int) - ys.length - (x - y) ∈ diagonals f := mem_diagonals.2 (by omega)
  refine ⟨x - y, hk, hk', ?_⟩
  have hle := (hforward _ hk).le (x := x) (y := y) (by omega) hcost.le
  have hle' := (hbackward _ hk').le (x := xs.length - x) (y := ys.length - y) (by omega)
    (by rw [← restCost]; omega)
  omega

end Meet

/-- No way of fewer than `2 * d` steps was overlooked before the round `d`: the distance has the
parity of the sum of the lengths. -/
def Far (xs ys : List α) (d : Nat) : Prop :=
  2 * d ≤ editDistance xs ys + (xs.length + ys.length) % 2

/-- How a direction of a round ends on the parts of the texts. -/
inductive DirectionEnds (xs ys : List α) (oldLo newLo : Nat) (passes : (Int → Nat) → Prop) :
    (Int → Nat) × Option (Nat × Nat) → Prop where
  | met : MiddlePoint xs ys x y →
      DirectionEnds xs ys oldLo newLo passes (v, some (x + oldLo, y + newLo))
  | passed : passes v → DirectionEnds xs ys oldLo newLo passes (v, none)

namespace Frame
variable {old new : LineView} {a b : List Bytes} {oldLo oldHi newLo newHi d : Nat}
  {vf vb : Int → Nat}

section
variable (h : Frame old new a b oldLo oldHi newLo newHi)
include h

theorem forward_yields (hvf : Level (segment a oldLo oldHi) (segment b newLo newHi) d vf)
    (hvb : Level (segment a oldLo oldHi).reverse (segment b newLo newHi).reverse d vb)
    (hfar : Far (segment a oldLo oldHi) (segment b newLo newHi) d) :
    ∃ result, Yields (forwardDiagonals (ε := ε) old new oldLo oldHi newLo newHi d vf vb) result ∧
      DirectionEnds (segment a oldLo oldHi) (segment b newLo newHi) oldLo newLo
        (fun v => Level (segment a oldLo oldHi) (segment b newLo newHi) (d + 1) v ∧
          (((segment a oldLo oldHi).length + (segment b newLo newHi).length) % 2 = 1 →
            Far (segment a oldLo oldHi) (segment b newLo newHi) (d + 1))) result := by
  have hold := h.oldLength
  have hnew := h.newLength
  have hadd := editDistance_add (segment a oldLo oldHi) (segment b newLo newHi)
  have hadvance := fun x y (_ : x < (segment a oldLo oldHi).length)
    (_ : y < (segment b newLo newHi).length) => h.commonPrefix_yields (ε := ε) x y
  unfold forwardDiagonals delta
  rw [← hold, ← hnew]
  generalize segment a oldLo oldHi = xs at *
  generalize segment b newLo newHi = ys at *
  dsimp only
  unfold Far at *
  obtain ⟨result, hyields, hends⟩ := searchDiagonals_yields hadvance hvf (diagonals d)
    (fun _ h => h) (diagonals_nodup d) vf fun _ _ => rfl
  refine ⟨result, hyields, ?_⟩
  cases hends with
  | @met k x y n v hmeets =>
    refine .met ?_
    obtain ⟨hodd, hclose, hmeet⟩ := of_decide_eq_true hmeets.meets
    rw [neg_sub] at hmeet
    cases d with
    | zero =>
      have habs := abs_nonneg (k - ((xs.length : Int) - ys.length))
      omega
    | succ d =>
      have hk := mem_diagonals.1 hmeets.mem
      have hclose' : |k - ((xs.length : Int) - ys.length)| ≤ (d : Int) := by omega
      have hwithin := abs_le.1 hclose'
      have hmem : (xs.length : Int) - ys.length - k ∈ diagonals d := mem_diagonals.2 (by omega)
      exact hmeets.middlePoint_forward (hvb _ hmem) hclose' hmeet (by omega)
  | passed _ hpassed =>
    refine .passed ⟨fun k hk => (hpassed k hk).1, fun hodd => ?_⟩
    by_contra hnear
    cases d with
    | zero => omega
    | succ d =>
      obtain ⟨k, hk, hk', hmeet⟩ := exists_meeting (e := d + 1) (f := d) (by omega)
        (fun k hk => (hpassed k hk).1) hvb
      have hwithin := mem_diagonals.1 hk'
      refine of_decide_eq_false (hpassed k hk).2 ⟨by omega, ?_, ?_⟩
      · have hclose : |k - ((xs.length : Int) - ys.length)| ≤ (d : Int) := abs_le.2 (by omega)
        omega
      · rwa [neg_sub]

theorem backward_yields (hvf : Level (segment a oldLo oldHi) (segment b newLo newHi) (d + 1) vf)
    (hvb : Level (segment a oldLo oldHi).reverse (segment b newLo newHi).reverse d vb)
    (hfar : Far (segment a oldLo oldHi) (segment b newLo newHi) d) :
    ∃ result, Yields (backwardDiagonals (ε := ε) old new oldLo oldHi newLo newHi d vf vb) result ∧
      DirectionEnds (segment a oldLo oldHi) (segment b newLo newHi) oldLo newLo
        (fun v => Level (segment a oldLo oldHi).reverse (segment b newLo newHi).reverse (d + 1) v ∧
          (((segment a oldLo oldHi).length + (segment b newLo newHi).length) % 2 = 0 →
            Far (segment a oldLo oldHi) (segment b newLo newHi) (d + 1))) result := by
  have hold := h.oldLength
  have hnew := h.newLength
  have holdLe := h.oldLe
  have hnewLe := h.newLe
  have hadd := editDistance_add (segment a oldLo oldHi) (segment b newLo newHi)
  have hadvance : ∀ x y, x < (segment a oldLo oldHi).reverse.length →
      y < (segment b newLo newHi).reverse.length → ∃ n,
        Yields (commonSuffix (ε := ε) old new oldLo (oldLo + (segment a oldLo oldHi).length - x) newLo
          (newLo + (segment b newLo newHi).length - y)) n ∧
        IsSnake (segment a oldLo oldHi).reverse (segment b newLo newHi).reverse x y n := by
    intro x y _ _
    have hx : oldLo + (segment a oldLo oldHi).length - x = oldHi - x := by omega
    have hy : newLo + (segment b newLo newHi).length - y = newHi - y := by omega
    rw [hx, hy]
    exact h.commonSuffix_yields x y
  unfold backwardDiagonals delta
  rw [← hold, ← hnew]
  generalize segment a oldLo oldHi = xs at *
  generalize segment b newLo newHi = ys at *
  dsimp only
  unfold Far at *
  obtain ⟨result, hyields, hends⟩ := searchDiagonals_yields hadvance hvb (diagonals d)
    (fun _ h => h) (diagonals_nodup d) vb fun _ _ => rfl
  rw [length_reverse, length_reverse] at hyields
  refine ⟨result, hyields, ?_⟩
  cases hends with
  | @met k x y n v hmeets =>
    refine .met ?_
    obtain ⟨heven, hclose, hmeet⟩ := of_decide_eq_true hmeets.meets
    rw [neg_sub] at hmeet
    have hwithin := abs_le.1 hclose
    have hk := mem_diagonals.1 hmeets.mem
    have hmem : (xs.length : Int) - ys.length - k ∈ diagonals d := mem_diagonals.2 (by omega)
    exact hmeets.middlePoint_backward (hvf _ hmem) hclose hmeet (by omega)
  | passed _ hpassed =>
    refine .passed ⟨fun k hk => (hpassed k hk).1, fun heven => ?_⟩
    by_contra hnear
    obtain ⟨k, hk, hk', hmeet⟩ := exists_meeting (e := d) (f := d) (by omega) hvf
      fun k hk => (hpassed k hk).1
    have hwithin := mem_diagonals.1 hk
    have hback : (xs.length : Int) - ys.length - (xs.length - ys.length - k) = k := by omega
    refine of_decide_eq_false (hpassed _ hk').2 ⟨by omega, abs_le.2 (by omega), ?_⟩
    rw [neg_sub, hback]
    omega

theorem searchRounds_yields (left : Nat)
    (hleft : d + left = ((oldHi - oldLo) + (newHi - newLo) + 1) / 2 + 1) (scratch : Scratch)
    (hvf : Level (segment a oldLo oldHi) (segment b newLo newHi) d scratch.vf)
    (hvb : Level (segment a oldLo oldHi).reverse (segment b newLo newHi).reverse d scratch.vb)
    (hfar : Far (segment a oldLo oldHi) (segment b newLo newHi) d) :
    ∃ scratch' x y, Yields (searchRounds (ε := ε) old new oldLo oldHi newLo newHi
        (List.range' d left) scratch) (scratch', some (x + oldLo, y + newLo)) ∧
      MiddlePoint (segment a oldLo oldHi) (segment b newLo newHi) x y := by
  induction left generalizing d scratch with
  | zero =>
    have hadd := editDistance_add (segment a oldLo oldHi) (segment b newLo newHi)
    have hold := h.oldLength
    have hnew := h.newLength
    rw [Far] at hfar
    omega
  | succ left ih =>
    rw [range'_succ, searchRounds]
    obtain ⟨_, hforward, hends⟩ := h.forward_yields (ε := ε) hvf hvb hfar
    cases hends with
    | met hmiddle => exact ⟨_, _, _, hforward.bind (.pure _), hmiddle⟩
    | passed hpassed =>
      obtain ⟨hvf', hodd⟩ := hpassed
      obtain ⟨_, hbackward, hends⟩ := h.backward_yields (ε := ε) hvf' hvb hfar
      cases hends with
      | met hmiddle => exact ⟨_, _, _, hforward.bind (hbackward.bind (.pure _)), hmiddle⟩
      | passed hpassed =>
        obtain ⟨hvb', heven⟩ := hpassed
        have hfar' : Far (segment a oldLo oldHi) (segment b newLo newHi) (d + 1) :=
          (Nat.mod_two_eq_zero_or_one _).elim heven hodd
        obtain ⟨scratch', x, y, hrest, hmiddle⟩ := ih (by omega) ⟨_, _⟩ hvf' hvb' hfar'
        exact ⟨scratch', x, y, hforward.bind (hbackward.bind hrest), hmiddle⟩

theorem findMiddleSnake_yields (hold : oldLo < oldHi)
    (hnew : newLo < newHi) (scratch : Scratch) :
    ∃ scratch' x y, Yields (findMiddleSnake (ε := ε) old new oldLo oldHi newLo newHi scratch)
        (scratch', some (x + oldLo, y + newLo)) ∧
      MiddlePoint (segment a oldLo oldHi) (segment b newLo newHi) x y := by
  have hsome : ¬ (oldHi - oldLo = 0 ∨ newHi - newLo = 0) := by omega
  rw [findMiddleSnake, if_neg hsome, range_eq_range']
  have hvf : Level (segment a oldLo oldHi) (segment b newLo newHi) 0
      (Function.update scratch.vf 1 0) := Function.update_self _ _ _
  have hvb : Level (segment a oldLo oldHi).reverse (segment b newLo newHi).reverse 0
      (Function.update scratch.vb 1 0) := Function.update_self _ _ _
  exact h.searchRounds_yields _ (Nat.zero_add _) _ hvf hvb (Nat.zero_le _)

end

end Frame

end Heddle.LineDiff
