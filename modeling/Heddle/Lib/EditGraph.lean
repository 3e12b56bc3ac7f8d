import Mathlib.Data.List.Sublists
import Mathlib.Data.Nat.Find
import Mathlib.Order.MinMax

namespace Heddle.Lib
open List

variable {xs ys zs : List α}

def HasCommon (xs ys : List α) (n : Nat) : Prop :=
  ∃ common : List α, common.Sublist xs ∧ common.Sublist ys ∧ common.length = n

theorem HasCommon.le_left (h : HasCommon xs ys n) : n ≤ xs.length := by
  obtain ⟨common, hx, _, rfl⟩ := h
  exact hx.length_le

open Classical in
noncomputable def lcsLength (xs ys : List α) : Nat := Nat.findGreatest (HasCommon xs ys) xs.length

theorem hasCommon_lcsLength (xs ys : List α) : HasCommon xs ys (lcsLength xs ys) := by
  classical
  have hzero : HasCommon xs ys 0 := ⟨[], nil_sublist _, nil_sublist _, rfl⟩
  exact Nat.findGreatest_spec (Nat.zero_le xs.length) hzero

theorem HasCommon.le_lcsLength (h : HasCommon xs ys n) : n ≤ lcsLength xs ys := by
  classical
  exact Nat.le_findGreatest h.le_left h

theorem lcsLength_le (h : ∀ n, HasCommon xs ys n → n ≤ bound) : lcsLength xs ys ≤ bound :=
  h _ (hasCommon_lcsLength xs ys)

theorem lcsLength_comm (xs ys : List α) : lcsLength xs ys = lcsLength ys xs := by
  apply Nat.le_antisymm
  · exact lcsLength_le fun n ⟨common, hx, hy, hlen⟩ => HasCommon.le_lcsLength ⟨common, hy, hx, hlen⟩
  · exact lcsLength_le fun n ⟨common, hy, hx, hlen⟩ => HasCommon.le_lcsLength ⟨common, hx, hy, hlen⟩

theorem lcsLength_le_left (xs ys : List α) : lcsLength xs ys ≤ xs.length :=
  (hasCommon_lcsLength xs ys).le_left

theorem lcsLength_le_right (xs ys : List α) : lcsLength xs ys ≤ ys.length :=
  lcsLength_comm xs ys ▸ lcsLength_le_left ys xs

theorem lcsLength_mono (hx : xs.Sublist xs') (hy : ys.Sublist ys') :
    lcsLength xs ys ≤ lcsLength xs' ys' := by
  apply lcsLength_le
  rintro n ⟨common, hcx, hcy, hlen⟩
  exact HasCommon.le_lcsLength ⟨common, hcx.trans hx, hcy.trans hy, hlen⟩

theorem lcsLength_reverse (xs ys : List α) : lcsLength xs.reverse ys.reverse = lcsLength xs ys := by
  have hle : ∀ xs ys : List α, lcsLength xs ys ≤ lcsLength xs.reverse ys.reverse := by
    intro xs ys
    apply lcsLength_le
    rintro n ⟨common, hx, hy, rfl⟩
    exact HasCommon.le_lcsLength ⟨common.reverse, hx.reverse, hy.reverse, length_reverse⟩
  apply Nat.le_antisymm _ (hle xs ys)
  have hback := hle xs.reverse ys.reverse
  rwa [reverse_reverse, reverse_reverse] at hback

theorem lcsLength_append (xs ys xs' ys' : List α) :
    lcsLength xs ys + lcsLength xs' ys' ≤ lcsLength (xs ++ xs') (ys ++ ys') := by
  obtain ⟨common, hx, hy, hlen⟩ := hasCommon_lcsLength xs ys
  obtain ⟨common', hx', hy', hlen'⟩ := hasCommon_lcsLength xs' ys'
  apply HasCommon.le_lcsLength
  exact ⟨common ++ common', hx.append hx', hy.append hy', by rw [length_append, hlen, hlen']⟩

theorem lcsLength_self (xs : List α) : lcsLength xs xs = xs.length :=
  Nat.le_antisymm (lcsLength_le_left xs xs) (HasCommon.le_lcsLength ⟨xs, .refl xs, .refl xs, rfl⟩)

section Concat

theorem sublist_concat_cases (h : common.Sublist (xs ++ [x])) :
    common.Sublist xs ∨ ∃ init, common = init ++ [x] ∧ init.Sublist xs := by
  obtain ⟨init, last, rfl, hinit, hlast⟩ := sublist_append_iff.1 h
  rcases sublist_singleton.1 hlast with rfl | rfl
  · exact .inl (by rwa [append_nil])
  · exact .inr ⟨init, rfl, hinit⟩

theorem lcsLength_concat_le (xs ys : List α) (x y : α) :
    lcsLength (xs ++ [x]) (ys ++ [y]) ≤ lcsLength xs ys + 1 := by
  apply lcsLength_le
  rintro n ⟨common, hx, hy, rfl⟩
  have hdrop : ∀ {zs : List α} {z}, common.Sublist (zs ++ [z]) → common.dropLast.Sublist zs := by
    intro zs z h
    rcases sublist_concat_cases h with h | ⟨init, rfl, h⟩
    · exact (dropLast_sublist common).trans h
    · rwa [dropLast_concat]
  have hle := HasCommon.le_lcsLength ⟨common.dropLast, hdrop hx, hdrop hy, rfl⟩
  rw [length_dropLast] at hle
  omega

theorem lcsLength_concat_left_le (xs ys : List α) (x : α) :
    lcsLength (xs ++ [x]) ys ≤ lcsLength xs ys + 1 := by
  apply lcsLength_le
  rintro n ⟨common, hx, hy, rfl⟩
  rcases sublist_concat_cases hx with hx | ⟨init, rfl, hsub⟩
  · exact (HasCommon.le_lcsLength ⟨common, hx, hy, rfl⟩).trans (Nat.le_succ _)
  · have hinit := (sublist_append_left init [x]).trans hy
    rw [length_append, length_singleton]
    exact Nat.succ_le_succ (HasCommon.le_lcsLength ⟨init, hsub, hinit, rfl⟩)

theorem lcsLength_concat_same (xs ys : List α) (x : α) :
    lcsLength (xs ++ [x]) (ys ++ [x]) = lcsLength xs ys + 1 := by
  apply Nat.le_antisymm (lcsLength_concat_le xs ys x x)
  have happend := lcsLength_append xs ys [x] [x]
  rwa [lcsLength_self, length_singleton] at happend

theorem lcsLength_concat_ne (xs ys : List α) (hne : x ≠ y) :
    lcsLength (xs ++ [x]) (ys ++ [y]) =
      max (lcsLength xs (ys ++ [y])) (lcsLength (xs ++ [x]) ys) := by
  apply Nat.le_antisymm
  · apply lcsLength_le
    rintro n ⟨common, hx, hy, rfl⟩
    rcases sublist_concat_cases hx with hx' | ⟨init, rfl, _⟩
    · exact le_max_of_le_left (HasCommon.le_lcsLength ⟨common, hx', hy, rfl⟩)
    · rcases sublist_concat_cases hy with hy' | ⟨init', heq, _⟩
      · exact le_max_of_le_right (HasCommon.le_lcsLength ⟨_, hx, hy', rfl⟩)
      · exact absurd (append_inj_right' heq rfl) (by simpa using hne)
  · exact max_le (lcsLength_mono (sublist_append_left xs [x]) (.refl _))
      (lcsLength_mono (.refl _) (sublist_append_left ys [y]))

end Concat

end Heddle.Lib

namespace Heddle.Lib
open List

section Cost
variable (xs ys : List α)

/-- The fewest insertions and deletions between the prefixes of these lengths. Past the end of a
list every step costs one. -/
noncomputable def editCost (x y : Nat) : Nat := x + y - 2 * lcsLength (xs.take x) (ys.take y)

/-- The next elements after the prefixes are the same. -/
def MatchAt (x y : Nat) : Prop := ∃ c, xs[x]? = some c ∧ ys[y]? = some c

theorem editCost_add (x y : Nat) :
    editCost xs ys x y + 2 * lcsLength (xs.take x) (ys.take y) = x + y := by
  have hleft := lcsLength_le_left (xs.take x) (ys.take y)
  have hright := lcsLength_le_right (xs.take x) (ys.take y)
  rw [length_take] at hleft hright
  rw [editCost]
  omega

theorem editCost_comm (x y : Nat) : editCost xs ys x y = editCost ys xs y x := by
  rw [editCost, editCost, lcsLength_comm, Nat.add_comm]

theorem le_add_editCost (x y : Nat) : x ≤ y + editCost xs ys x y := by
  have hright := lcsLength_le_right (xs.take x) (ys.take y)
  have hadd := editCost_add xs ys x y
  rw [length_take] at hright
  omega

theorem le_add_editCost' (x y : Nat) : y ≤ x + editCost xs ys x y :=
  editCost_comm xs ys x y ▸ le_add_editCost ys xs y x

variable {xs ys} {x y : Nat}

theorem take_succ_none (h : xs[x]? = none) : xs.take (x + 1) = xs.take x := by
  rw [take_add_one, h, Option.toList_none, append_nil]

theorem take_succ_some (h : xs[x]? = some c) : xs.take (x + 1) = xs.take x ++ [c] := by
  rw [take_add_one, h, Option.toList_some]

theorem MatchAt.editCost (h : MatchAt xs ys x y) :
    editCost xs ys (x + 1) (y + 1) = editCost xs ys x y := by
  obtain ⟨c, hx, hy⟩ := h
  have hadd := editCost_add xs ys x y
  have hadd' := editCost_add xs ys (x + 1) (y + 1)
  rw [take_succ_some hx, take_succ_some hy, lcsLength_concat_same] at hadd'
  omega

theorem lcsLength_take_succ_le : lcsLength (xs.take (x + 1)) (ys.take y) ≤
    lcsLength (xs.take x) (ys.take y) + 1 := by
  cases hx : xs[x]? with
  | none =>
    rw [take_succ_none hx]
    exact Nat.le_succ _
  | some c =>
    rw [take_succ_some hx]
    exact lcsLength_concat_left_le _ _ c

theorem lcsLength_le_take_succ : lcsLength (xs.take x) (ys.take y) ≤
    lcsLength (xs.take (x + 1)) (ys.take y) :=
  lcsLength_mono (take_sublist_take_left (Nat.le_succ x)) (.refl _)

theorem editCost_right_le : editCost xs ys (x + 1) y ≤ editCost xs ys x y + 1 := by
  have hadd := editCost_add xs ys x y
  have hadd' := editCost_add xs ys (x + 1) y
  have hle : lcsLength (xs.take x) (ys.take y) ≤ _ := lcsLength_le_take_succ
  omega

theorem le_editCost_right : editCost xs ys x y ≤ editCost xs ys (x + 1) y + 1 := by
  have hadd := editCost_add xs ys x y
  have hadd' := editCost_add xs ys (x + 1) y
  have hle : lcsLength (xs.take (x + 1)) (ys.take y) ≤ _ := lcsLength_take_succ_le
  omega

theorem editCost_down_le : editCost xs ys x (y + 1) ≤ editCost xs ys x y + 1 := by
  rw [editCost_comm xs ys x (y + 1), editCost_comm xs ys x y]
  exact editCost_right_le

theorem le_editCost_down : editCost xs ys x y ≤ editCost xs ys x (y + 1) + 1 := by
  rw [editCost_comm xs ys x (y + 1), editCost_comm xs ys x y]
  exact le_editCost_right

theorem editCost_mismatch (h : ¬ MatchAt xs ys x y) :
    editCost xs ys x (y + 1) < editCost xs ys (x + 1) (y + 1) ∨
    editCost xs ys (x + 1) y < editCost xs ys (x + 1) (y + 1) := by
  have hadd := editCost_add xs ys (x + 1) (y + 1)
  have hleft := editCost_add xs ys x (y + 1)
  have hright := editCost_add xs ys (x + 1) y
  cases hx : xs[x]? with
  | none =>
    rw [take_succ_none hx] at hadd
    exact .inl (by omega)
  | some c =>
    cases hy : ys[y]? with
    | none =>
      rw [take_succ_none hy] at hadd
      exact .inr (by omega)
    | some d =>
      have hne : c ≠ d := by
        rintro rfl
        exact h ⟨c, hx, hy⟩
      rw [take_succ_some hx, take_succ_some hy, lcsLength_concat_ne _ _ hne] at hadd
      rw [take_succ_some hy] at hleft
      rw [take_succ_some hx] at hright
      rcases le_total (lcsLength (xs.take x ++ [c]) (ys.take y))
        (lcsLength (xs.take x) (ys.take y ++ [d])) with hle | hle
      · rw [max_eq_left hle] at hadd
        exact .inl (by omega)
      · rw [max_eq_right hle] at hadd
        exact .inr (by omega)

theorem editCost_diagonal (x y : Nat) : editCost xs ys x y ≤ editCost xs ys (x + 1) (y + 1) := by
  by_cases h : MatchAt xs ys x y
  · exact h.editCost.ge
  · have hdown : editCost xs ys x y ≤ editCost xs ys x (y + 1) + 1 := le_editCost_down
    have hright : editCost xs ys x y ≤ editCost xs ys (x + 1) y + 1 := le_editCost_right
    have hmismatch := editCost_mismatch h
    omega

theorem editCost_diagonal_add (xs ys : List α) (x y n : Nat) :
    editCost xs ys x y ≤ editCost xs ys (x + n) (y + n) := by
  induction n with
  | zero => exact le_rfl
  | succ n ih => exact ih.trans (editCost_diagonal (x + n) (y + n))

theorem editCost_beyond (h : xs.length ≤ x) (y : Nat) :
    editCost xs ys x y = editCost xs ys xs.length y + (x - xs.length) := by
  have hadd := editCost_add xs ys x y
  have hadd' := editCost_add xs ys xs.length y
  rw [take_of_length_le h] at hadd
  rw [take_length] at hadd'
  omega

theorem editCost_beyond' (x : Nat) (h : ys.length ≤ y) :
    editCost xs ys x y = editCost xs ys x ys.length + (y - ys.length) := by
  rw [editCost_comm xs ys x y, editCost_comm xs ys x ys.length]
  exact editCost_beyond h x

theorem editCost_zero_left (y : Nat) : editCost xs ys 0 y = y := by
  have hadd := editCost_add xs ys 0 y
  have hle := lcsLength_le_left (xs.take 0) (ys.take y)
  rw [take_zero, length_nil] at hle
  rw [take_zero] at hadd
  omega

theorem editCost_zero_right (x : Nat) : editCost xs ys x 0 = x :=
  editCost_comm xs ys x 0 ▸ editCost_zero_left x

end Cost

section Furthest
variable {xs ys : List α} {x y : Nat}

/-- The last point of its diagonal that is reached with `d` insertions and deletions. -/
structure Furthest (xs ys : List α) (d x y : Nat) : Prop where
  reach : editCost xs ys x y ≤ d
  last : d < editCost xs ys (x + 1) (y + 1)

theorem Furthest.le (h : Furthest xs ys d x y) (hreach : editCost xs ys x' y' ≤ d)
    (hdiagonal : x' + y = x + y') : x' ≤ x := by
  by_contra hlt
  obtain ⟨n, rfl⟩ := Nat.exists_eq_add_of_lt (Nat.lt_of_not_le hlt)
  obtain rfl : y' = y + 1 + n := by omega
  have hle := editCost_diagonal_add xs ys (x + 1) (y + 1) n
  rw [Nat.add_right_comm] at hle
  exact absurd (hle.trans hreach) (Nat.not_le_of_lt h.last)

/-- There are exactly `n` matches from the point on. -/
structure IsSnake (xs ys : List α) (x y n : Nat) : Prop where
  matched : ∀ i < n, MatchAt xs ys (x + i) (y + i)
  stops : ¬ MatchAt xs ys (x + n) (y + n)

theorem editCost_of_matched (h : ∀ i < n, MatchAt xs ys (x + i) (y + i)) :
    editCost xs ys (x + n) (y + n) = editCost xs ys x y := by
  induction n with
  | zero => rfl
  | succ n ih =>
    have hlast := (h n (Nat.lt_succ_self n)).editCost
    exact hlast.trans (ih fun i hi => h i (Nat.lt_succ_of_lt hi))

/-- A snake ends at the furthest point when no cheaper point is next to the diagonal behind its
start. -/
theorem IsSnake.furthest (h : IsSnake xs ys x y n) (hreach : editCost xs ys x y ≤ d)
    (hdown : ∀ i, ¬ editCost xs ys (x + i) (y + i + 1) < d)
    (hright : ∀ i, ¬ editCost xs ys (x + i + 1) (y + i) < d) :
    Furthest xs ys d (x + n) (y + n) := by
  refine ⟨(editCost_of_matched h.matched).trans_le hreach, Nat.lt_of_not_le fun hle => ?_⟩
  rcases editCost_mismatch h.stops with hlt | hlt
  · exact hdown n (hlt.trans_le hle)
  · exact hright n (hlt.trans_le hle)

end Furthest

section Meet
variable {xs ys : List α} {x y : Nat}

noncomputable def restCost (xs ys : List α) (x y : Nat) : Nat :=
  editCost xs.reverse ys.reverse (xs.length - x) (ys.length - y)

noncomputable def editDistance (xs ys : List α) : Nat := editCost xs ys xs.length ys.length

theorem editDistance_add (xs ys : List α) :
    editDistance xs ys + 2 * lcsLength xs ys = xs.length + ys.length := by
  have hadd := editCost_add xs ys xs.length ys.length
  rwa [take_length, take_length] at hadd

theorem editDistance_reverse (xs ys : List α) :
    editDistance xs.reverse ys.reverse = editDistance xs ys := by
  have hadd := editDistance_add xs ys
  have hadd' := editDistance_add xs.reverse ys.reverse
  rw [lcsLength_reverse, length_reverse, length_reverse] at hadd'
  omega

theorem restCost_add (xs ys : List α) (x y : Nat) :
    restCost xs ys x y + 2 * lcsLength (xs.drop x) (ys.drop y) =
      (xs.length - x) + (ys.length - y) := by
  have hadd := editCost_add xs.reverse ys.reverse (xs.length - x) (ys.length - y)
  rwa [← reverse_drop, ← reverse_drop, lcsLength_reverse] at hadd

theorem editDistance_le (hx : x ≤ xs.length) (hy : y ≤ ys.length) :
    editDistance xs ys ≤ editCost xs ys x y + restCost xs ys x y := by
  have hadd := editDistance_add xs ys
  have hcost := editCost_add xs ys x y
  have hrest := restCost_add xs ys x y
  have hsplit := lcsLength_append (xs.take x) (ys.take y) (xs.drop x) (ys.drop y)
  rw [take_append_drop, take_append_drop] at hsplit
  omega

theorem lcsLength_split (hx : x ≤ xs.length) (hy : y ≤ ys.length)
    (h : editCost xs ys x y + restCost xs ys x y ≤ editDistance xs ys) :
    lcsLength (xs.take x) (ys.take y) + lcsLength (xs.drop x) (ys.drop y) = lcsLength xs ys := by
  have hadd := editDistance_add xs ys
  have hcost := editCost_add xs ys x y
  have hrest := restCost_add xs ys x y
  have hsplit := lcsLength_append (xs.take x) (ys.take y) (xs.drop x) (ys.drop y)
  rw [take_append_drop, take_append_drop] at hsplit
  omega

theorem MatchAt.lt (h : MatchAt xs ys x y) : x < xs.length ∧ y < ys.length := by
  obtain ⟨c, hx, hy⟩ := h
  exact ⟨(List.getElem?_eq_some_iff.1 hx).1, (List.getElem?_eq_some_iff.1 hy).1⟩

theorem matchAt_reverse (hx : x < xs.length) (hy : y < ys.length) :
    MatchAt xs.reverse ys.reverse (xs.length - (x + 1)) (ys.length - (y + 1)) ↔
      MatchAt xs ys x y := by
  have hx' : xs.length - 1 - (xs.length - (x + 1)) = x := by omega
  have hy' : ys.length - 1 - (ys.length - (y + 1)) = y := by omega
  rw [MatchAt, MatchAt, getElem?_reverse (by omega), getElem?_reverse (by omega), hx', hy']

theorem restCost_succ (hx : x < xs.length) (hy : y < ys.length) :
    restCost xs ys x y = editCost xs.reverse ys.reverse (xs.length - (x + 1) + 1)
      (ys.length - (y + 1) + 1) := by
  have hx' : xs.length - (x + 1) + 1 = xs.length - x := by omega
  have hy' : ys.length - (y + 1) + 1 = ys.length - y := by omega
  rw [restCost, hx', hy']

theorem MatchAt.restCost (h : MatchAt xs ys x y) :
    restCost xs ys x y = restCost xs ys (x + 1) (y + 1) := by
  obtain ⟨hx, hy⟩ := h.lt
  rw [restCost_succ hx hy]
  exact ((matchAt_reverse hx hy).2 h).editCost

theorem restCost_of_matched (h : ∀ i < n, MatchAt xs ys (x + i) (y + i)) :
    restCost xs ys (x + n) (y + n) = restCost xs ys x y := by
  induction n with
  | zero => rfl
  | succ n ih =>
    have hlast := (h n (Nat.lt_succ_self n)).restCost
    exact hlast.symm.trans (ih fun i hi => h i (Nat.lt_succ_of_lt hi))

theorem restCost_step (hx : x ≤ xs.length) (hy : y ≤ ys.length) (hend : x < xs.length ∨ y < ys.length)
    (h : ¬ MatchAt xs ys x y) :
    x < xs.length ∧ restCost xs ys (x + 1) y < restCost xs ys x y ∨
    y < ys.length ∧ restCost xs ys x (y + 1) < restCost xs ys x y := by
  rcases hx.lt_or_eq with hx | rfl
  · rcases hy.lt_or_eq with hy | rfl
    · have hmismatch := editCost_mismatch fun hmatch => h ((matchAt_reverse hx hy).1 hmatch)
      rw [← restCost_succ hx hy] at hmismatch
      have hx' : xs.length - (x + 1) + 1 = xs.length - x := by omega
      have hy' : ys.length - (y + 1) + 1 = ys.length - y := by omega
      rw [hx', hy'] at hmismatch
      exact hmismatch.imp (⟨hx, ·⟩) (⟨hy, ·⟩)
    · refine .inl ⟨hx, ?_⟩
      rw [restCost, restCost, Nat.sub_self, editCost_zero_right, editCost_zero_right]
      omega
  · have hy := hend.resolve_left (Nat.lt_irrefl _)
    refine .inr ⟨hy, ?_⟩
    rw [restCost, restCost, Nat.sub_self, editCost_zero_left, editCost_zero_left]
    omega

theorem exists_editCost_from (he : e ≤ editDistance xs ys) (left : Nat) :
    ∀ x y, (xs.length - x) + (ys.length - y) = left → x ≤ xs.length → y ≤ ys.length →
      editCost xs ys x y ≤ e →
      editCost xs ys x y + restCost xs ys x y ≤ editDistance xs ys →
      ∃ x' ≤ xs.length, ∃ y' ≤ ys.length, editCost xs ys x' y' = e ∧
        editCost xs ys x' y' + restCost xs ys x' y' ≤ editDistance xs ys := by
  induction left using Nat.strong_induction_on with
  | _ left ih =>
    intro x y hleft hx hy hcost hpath
    rcases hcost.lt_or_eq with hlt | heq
    · by_cases hmatch : MatchAt xs ys x y
      · obtain ⟨hx', hy'⟩ := hmatch.lt
        refine ih _ ?_ (x + 1) (y + 1) rfl hx' hy' ?_ ?_
        · omega
        · exact hmatch.editCost.trans_le hcost
        · rw [hmatch.editCost, ← hmatch.restCost]
          exact hpath
      · have hend : x < xs.length ∨ y < ys.length := by
          by_contra hnot
          rw [not_or, Nat.not_lt, Nat.not_lt] at hnot
          obtain rfl := Nat.le_antisymm hx hnot.1
          obtain rfl := Nat.le_antisymm hy hnot.2
          exact absurd (he.trans_lt' hlt) (Nat.lt_irrefl _)
        rcases restCost_step hx hy hend hmatch with ⟨hx', hrest⟩ | ⟨hy', hrest⟩
        · have hstep : editCost xs ys (x + 1) y ≤ editCost xs ys x y + 1 := editCost_right_le
          exact ih _ (by omega) (x + 1) y rfl hx' hy (by omega) (by omega)
        · have hstep : editCost xs ys x (y + 1) ≤ editCost xs ys x y + 1 := editCost_down_le
          exact ih _ (by omega) x (y + 1) rfl hx hy' (by omega) (by omega)
    · exact ⟨x, hx, y, hy, heq, hpath⟩

theorem exists_editCost (he : e ≤ editDistance xs ys) :
    ∃ x ≤ xs.length, ∃ y ≤ ys.length, editCost xs ys x y = e ∧
      restCost xs ys x y = editDistance xs ys - e := by
  have hrest : restCost xs ys 0 0 = editDistance xs ys := by
    rw [← editDistance_reverse, editDistance, length_reverse, length_reverse]
    rfl
  have hzero : editCost xs ys 0 0 = 0 := editCost_zero_left 0
  obtain ⟨x, hx, y, hy, hcost, hpath⟩ := exists_editCost_from he _ 0 0 rfl (Nat.zero_le _)
    (Nat.zero_le _) (hzero.trans_le (Nat.zero_le e)) (by rw [hzero, hrest, Nat.zero_add])
  have hthrough := editDistance_le hx hy
  exact ⟨x, hx, y, hy, hcost, by omega⟩

theorem inside_of_editCost (h : editCost xs ys x y ≤ e) (hfar : e + f ≤ editDistance xs ys)
    (hlow : x + ys.length ≤ y + xs.length + f) (hhigh : y + xs.length ≤ x + ys.length + f) :
    x ≤ xs.length ∧ y ≤ ys.length := by
  have hle : ∀ {xs ys : List α} {x y : Nat}, editCost xs ys x y ≤ e → e + f ≤ editDistance xs ys →
      x + ys.length ≤ y + xs.length + f → y + xs.length ≤ x + ys.length + f → x ≤ xs.length := by
    intro xs ys x y h hfar hlow hhigh
    by_contra hlt
    have hbeyond : editCost xs ys x y = _ := editCost_beyond (Nat.le_of_not_le hlt) y
    rcases le_total ys.length y with hy | hy
    · have hbeyond' : editCost xs ys xs.length y = _ := editCost_beyond' xs.length hy
      rw [editDistance] at hfar
      omega
    · obtain ⟨n, hn⟩ := Nat.exists_eq_add_of_le hy
      have hrest : ∀ n, editCost xs ys xs.length (y + n) ≤ editCost xs ys xs.length y + n := by
        intro n
        induction n with
        | zero => exact le_rfl
        | succ n ih =>
          have hstep : editCost xs ys xs.length (y + n + 1) ≤ _ := editCost_down_le
          rw [← Nat.add_assoc]
          omega
      have hdistance := hrest n
      rw [← hn] at hdistance
      rw [editDistance] at hfar
      omega
  refine ⟨hle h hfar hlow hhigh, ?_⟩
  rw [editCost_comm] at h
  refine hle h ?_ hhigh hlow
  rwa [editDistance, editCost_comm]

end Meet

end Heddle.Lib
