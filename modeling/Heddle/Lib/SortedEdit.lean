import Heddle.Lib.SortedList
import Mathlib.Data.List.TakeWhile

namespace Heddle.Lib
open List

inductive Edit (κ α : Type) where
  | remove (k : κ)
  | upsert (a : α)
  deriving DecidableEq

section
variable (key : α → κ)

def Edit.keyBy : Edit κ α → κ
  | .remove k => k
  | .upsert a => key a

def Edit.kept : Edit κ α → List α
  | .remove _ => []
  | .upsert a => [a]

variable [LinearOrder κ]

def diffBy [DecidableEq α] : List α → List α → List (Edit κ α)
  | a :: as, c :: cs =>
    if key a < key c then .remove (key a) :: diffBy as (c :: cs)
    else if key c < key a then .upsert c :: diffBy (a :: as) cs
    else if a ≠ c then .upsert c :: diffBy as cs
    else diffBy as cs
  | a :: as, [] => .remove (key a) :: diffBy as []
  | [], c :: cs => .upsert c :: diffBy [] cs
  | [], [] => []
termination_by xs ys => xs.length + ys.length

def editBy : List α → List (Edit κ α) → List α
  | a :: as, op :: ops =>
    if key a < op.keyBy key then a :: editBy as (op :: ops)
    else if op.keyBy key < key a then op.kept ++ editBy (a :: as) ops
    else op.kept ++ editBy as ops
  | a :: as, [] => a :: editBy as []
  | [], op :: ops => op.kept ++ editBy [] ops
  | [], [] => []
termination_by xs ops => xs.length + ops.length

end

section Diff
variable [LinearOrder κ] [DecidableEq α] {key : α → κ}

theorem mem_diffBy (h : op ∈ diffBy key xs ys) :
    (∃ a ∈ xs, op = .remove (key a)) ∨ ∃ c ∈ ys, op = .upsert c := by
  fun_induction diffBy key xs ys with
  | case1 a as c cs hlt ih =>
    rcases mem_cons.1 h with rfl | h
    · exact .inl ⟨a, .head _, rfl⟩
    · exact (ih h).imp_left fun ⟨b, hb, heq⟩ => ⟨b, .tail _ hb, heq⟩
  | case2 a as c cs _ hlt ih =>
    rcases mem_cons.1 h with rfl | h
    · exact .inr ⟨c, .head _, rfl⟩
    · exact (ih h).imp_right fun ⟨b, hb, heq⟩ => ⟨b, .tail _ hb, heq⟩
  | case3 a as c cs _ _ _ ih =>
    rcases mem_cons.1 h with rfl | h
    · exact .inr ⟨c, .head _, rfl⟩
    · exact (ih h).imp (fun ⟨b, hb, heq⟩ => ⟨b, .tail _ hb, heq⟩)
        fun ⟨b, hb, heq⟩ => ⟨b, .tail _ hb, heq⟩
  | case4 a as c cs _ _ _ ih =>
    exact (ih h).imp (fun ⟨b, hb, heq⟩ => ⟨b, .tail _ hb, heq⟩)
      fun ⟨b, hb, heq⟩ => ⟨b, .tail _ hb, heq⟩
  | case5 a as ih =>
    rcases mem_cons.1 h with rfl | h
    · exact .inl ⟨a, .head _, rfl⟩
    · exact (ih h).imp_left fun ⟨b, hb, heq⟩ => ⟨b, .tail _ hb, heq⟩
  | case6 c cs ih =>
    rcases mem_cons.1 h with rfl | h
    · exact .inr ⟨c, .head _, rfl⟩
    · exact (ih h).imp_right fun ⟨b, hb, heq⟩ => ⟨b, .tail _ hb, heq⟩
  | case7 => cases h

variable (key) in
theorem length_diffBy_le (xs ys : List α) : (diffBy key xs ys).length ≤ xs.length + ys.length := by
  fun_induction diffBy key xs ys with
  | case1 a as c cs _ ih =>
    simp only [length_cons] at ih ⊢
    omega
  | case2 a as c cs _ _ ih =>
    simp only [length_cons] at ih ⊢
    omega
  | case3 a as c cs _ _ _ ih =>
    simp only [length_cons] at ih ⊢
    omega
  | case4 a as c cs _ _ _ ih =>
    simp only [length_cons] at ih ⊢
    omega
  | case5 a as ih =>
    simp only [length_cons, length_nil] at ih ⊢
    omega
  | case6 c cs ih =>
    simp only [length_cons, length_nil] at ih ⊢
    omega
  | case7 => exact Nat.zero_le _

theorem diffBy_key_gt (hxs : ∀ a ∈ xs, k < key a) (hys : ∀ c ∈ ys, k < key c) :
    ∀ op ∈ diffBy key xs ys, k < op.keyBy key := by
  intro op hop
  rcases mem_diffBy hop with h | h
  · obtain ⟨a, ha, rfl⟩ := h
    exact hxs a ha
  · obtain ⟨c, hc, rfl⟩ := h
    exact hys c hc

theorem diffBy_sorted (hxs : SortedBy key xs) (hys : SortedBy key ys) :
    SortedBy (Edit.keyBy key) (diffBy key xs ys) := by
  fun_induction diffBy key xs ys with
  | case1 a as c cs hlt ih =>
    have hx := sortedBy_cons.1 hxs
    have hy := sortedBy_cons.1 hys
    apply sortedBy_cons.2
    refine ⟨diffBy_key_gt hx.1 ?_, ih hx.2 hys⟩
    intro b hb
    rcases mem_cons.1 hb with rfl | hb
    · exact hlt
    · exact lt_trans hlt (hy.1 b hb)
  | case2 a as c cs _ hlt ih =>
    have hx := sortedBy_cons.1 hxs
    have hy := sortedBy_cons.1 hys
    apply sortedBy_cons.2
    refine ⟨diffBy_key_gt ?_ hy.1, ih hxs hy.2⟩
    intro b hb
    rcases mem_cons.1 hb with rfl | hb
    · exact hlt
    · exact lt_trans hlt (hx.1 b hb)
  | case3 a as c cs hle hge _ ih =>
    have heq : key a = key c := le_antisymm (not_lt.1 hge) (not_lt.1 hle)
    have hx := sortedBy_cons.1 hxs
    have hy := sortedBy_cons.1 hys
    apply sortedBy_cons.2
    exact ⟨diffBy_key_gt (fun b hb => heq.symm.trans_lt (hx.1 b hb)) hy.1, ih hx.2 hy.2⟩
  | case4 a as c cs _ _ _ ih => exact ih (sortedBy_cons.1 hxs).2 (sortedBy_cons.1 hys).2
  | case5 a as ih =>
    have hx := sortedBy_cons.1 hxs
    exact sortedBy_cons.2 ⟨diffBy_key_gt hx.1 (fun _ h => nomatch h), ih hx.2 hys⟩
  | case6 c cs ih =>
    have hy := sortedBy_cons.1 hys
    exact sortedBy_cons.2 ⟨diffBy_key_gt (fun _ h => nomatch h) hy.1, ih hxs hy.2⟩
  | case7 => exact List.Pairwise.nil

end Diff

section Walk
variable [LinearOrder κ] {key : α → κ}

@[simp] theorem editBy_nil (xs : List α) : editBy key xs ([] : List (Edit κ α)) = xs := by
  induction xs with
  | nil => rw [editBy]
  | cons a as ih => rw [editBy, ih]

theorem editBy_cons_of_lt (h : ∀ op ∈ ops, key a < op.keyBy key) :
    editBy key (a :: as) ops = a :: editBy key as ops := by
  cases ops with
  | nil => rw [editBy_nil, editBy_nil]
  | cons op ops => rw [editBy, if_pos (h op (.head _))]

theorem editBy_op_of_lt (h : ∀ a ∈ xs, op.keyBy key < key a) :
    editBy key xs (op :: ops) = op.kept ++ editBy key xs ops := by
  cases xs with
  | nil => rw [editBy]
  | cons a as =>
    have hlt := h a (.head _)
    rw [editBy, if_neg (not_lt_of_gt hlt), if_pos hlt]

theorem editBy_op_of_eq (h : key a = op.keyBy key) :
    editBy key (a :: as) (op :: ops) = op.kept ++ editBy key as ops := by
  rw [editBy, if_neg (by rw [h]; exact lt_irrefl _), if_neg (by rw [h]; exact lt_irrefl _)]

variable (key) in
theorem editBy_append (bound : κ) (xs xs' : List α) (ops ops' : List (Edit κ α))
    (hxs : ∀ a ∈ xs, key a ≤ bound) (hops : ∀ op ∈ ops, op.keyBy key ≤ bound)
    (hxs' : ∀ a ∈ xs', bound < key a) (hops' : ∀ op ∈ ops', bound < op.keyBy key) :
    editBy key (xs ++ xs') (ops ++ ops') = editBy key xs ops ++ editBy key xs' ops' := by
  fun_induction editBy key xs ops with
  | case1 a as op ops hlt ih =>
    rw [cons_append, cons_append, editBy, if_pos hlt, ← cons_append, cons_append,
      ← cons_append, ih (fun b hb => hxs b (.tail _ hb)) hops, cons_append]
  | case2 a as op ops hle hlt ih =>
    rw [cons_append, cons_append, editBy, if_neg hle, if_pos hlt, ← cons_append,
      ih hxs (fun o ho => hops o (.tail _ ho)), append_assoc]
  | case3 a as op ops hle hge ih =>
    rw [cons_append, cons_append, editBy, if_neg hle, if_neg hge,
      ih (fun b hb => hxs b (.tail _ hb)) (fun o ho => hops o (.tail _ ho)), append_assoc]
  | case4 a as ih =>
    have ha := hxs a (.head _)
    rw [nil_append, cons_append,
      editBy_cons_of_lt fun op hop => lt_of_le_of_lt ha (hops' op hop), cons_append,
      ← ih (fun b hb => hxs b (.tail _ hb)) hops, nil_append]
  | case5 op ops ih =>
    have hop := hops op (.head _)
    rw [nil_append, cons_append,
      editBy_op_of_lt fun a ha => lt_of_le_of_lt hop (hxs' a ha), append_assoc,
      ← ih hxs (fun o ho => hops o (.tail _ ho)), nil_append]
  | case6 => rfl

theorem editBy_diffBy [DecidableEq α] (hxs : SortedBy key xs) (hys : SortedBy key ys) :
    editBy key xs (diffBy key xs ys) = ys := by
  fun_induction diffBy key xs ys with
  | case1 a as c cs hlt ih =>
    rw [editBy_op_of_eq rfl, ih (sortedBy_cons.1 hxs).2 hys]
    rfl
  | case2 a as c cs _ hlt ih =>
    have hx := sortedBy_cons.1 hxs
    have hbelow : ∀ b ∈ a :: as, key c < key b := by
      intro b hb
      rcases mem_cons.1 hb with rfl | hb
      · exact hlt
      · exact lt_trans hlt (hx.1 b hb)
    rw [editBy_op_of_lt hbelow, ih hxs (sortedBy_cons.1 hys).2]
    rfl
  | case3 a as c cs hle hge _ ih =>
    have heq : key a = key c := le_antisymm (not_lt.1 hge) (not_lt.1 hle)
    rw [editBy_op_of_eq heq, ih (sortedBy_cons.1 hxs).2 (sortedBy_cons.1 hys).2]
    rfl
  | case4 a as c cs hle hge heq ih =>
    have hac : a = c := not_not.1 heq
    have hx := sortedBy_cons.1 hxs
    have hy := sortedBy_cons.1 hys
    have habove := diffBy_key_gt hx.1 fun b hb => hac ▸ hy.1 b hb
    rw [editBy_cons_of_lt habove, ih hx.2 hy.2, hac]
  | case5 a as ih =>
    rw [editBy_op_of_eq rfl, ih (sortedBy_cons.1 hxs).2 hys]
    rfl
  | case6 c cs ih =>
    rw [editBy_op_of_lt fun _ h => (not_mem_nil h).elim, ih hxs (sortedBy_cons.1 hys).2]
    rfl
  | case7 => rw [editBy_nil]

theorem mem_editBy (h : a ∈ editBy key xs ops) :
    a ∈ xs ∨ ∃ op ∈ ops, a ∈ op.kept := by
  fun_induction editBy key xs ops with
  | case1 b as op ops _ ih =>
    rcases mem_cons.1 h with rfl | h
    · exact .inl (.head _)
    · exact (ih h).imp_left (.tail _)
  | case2 b as op ops _ _ ih =>
    rcases mem_append.1 h with h | h
    · exact .inr ⟨op, .head _, h⟩
    · exact (ih h).imp_right fun ⟨o, ho, hk⟩ => ⟨o, .tail _ ho, hk⟩
  | case3 b as op ops _ _ ih =>
    rcases mem_append.1 h with h | h
    · exact .inr ⟨op, .head _, h⟩
    · exact (ih h).imp (.tail _) fun ⟨o, ho, hk⟩ => ⟨o, .tail _ ho, hk⟩
  | case4 b as ih =>
    rcases mem_cons.1 h with rfl | h
    · exact .inl (.head _)
    · exact (ih h).imp_left (.tail _)
  | case5 op ops ih =>
    rcases mem_append.1 h with h | h
    · exact .inr ⟨op, .head _, h⟩
    · exact (ih h).imp_right fun ⟨o, ho, hk⟩ => ⟨o, .tail _ ho, hk⟩
  | case6 => cases h

theorem key_mem_editBy {P : κ → Prop} (hxs : ∀ a ∈ xs, P (key a))
    (hops : ∀ op ∈ ops, P (op.keyBy key)) (h : a ∈ editBy key xs ops) : P (key a) := by
  rcases mem_editBy h with h | h
  · exact hxs a h
  · obtain ⟨op, hop, hkept⟩ := h
    cases op with
    | remove k => cases hkept
    | upsert c =>
      rw [mem_singleton.1 hkept]
      exact hops _ hop

variable (key) in
theorem length_le_editBy (xs : List α) (ops : List (Edit κ α)) :
    xs.length ≤ ops.length + (editBy key xs ops).length := by
  fun_induction editBy key xs ops with
  | case1 a as op ops _ ih =>
    simp only [length_cons] at ih ⊢
    omega
  | case2 a as op ops _ _ ih =>
    simp only [length_cons, length_append] at ih ⊢
    omega
  | case3 a as op ops _ _ ih =>
    simp only [length_cons, length_append] at ih ⊢
    omega
  | case4 a as ih =>
    simp only [length_cons, length_nil] at ih ⊢
    omega
  | case5 op ops ih => exact Nat.zero_le _
  | case6 => exact Nat.zero_le _

theorem takeWhile_append_of_cut {xs ys : List α} (hxs : ∀ a ∈ xs, p a = true)
    (hys : ∀ a ∈ ys, p a = false) : (xs ++ ys).takeWhile p = xs := by
  have hnil : ys.takeWhile p = [] := by
    cases ys with
    | nil => rfl
    | cons y ys => rw [takeWhile_cons, hys y (.head _), if_neg (by simp)]
  rw [takeWhile_append_of_pos hxs, hnil, append_nil]

theorem length_takeWhile_mono (h : ∀ a, p a = true → q a = true) (xs : List α) :
    (xs.takeWhile p).length ≤ (xs.takeWhile q).length := by
  induction xs with
  | nil => exact Nat.zero_le _
  | cons x xs ih =>
    rw [takeWhile_cons, takeWhile_cons]
    split
    · rename_i hp
      rw [if_pos (h x hp)]
      exact Nat.succ_le_succ ih
    · exact Nat.zero_le _

theorem take_length_takeWhile (p : α → Bool) (xs : List α) :
    xs.take (xs.takeWhile p).length = xs.takeWhile p :=
  (prefix_iff_eq_take.1 (List.takeWhile_prefix p)).symm

theorem sortedBy_dropWhile (h : SortedBy f xs) (bound : κ) :
    ∀ a ∈ xs.dropWhile (fun a => decide (f a ≤ bound)), bound < f a := by
  induction xs with
  | nil => exact fun _ h => nomatch h
  | cons x xs ih =>
    obtain ⟨hx, hxs⟩ := sortedBy_cons.1 h
    rw [dropWhile_cons]
    split
    · exact ih hxs
    · rename_i hle
      intro a ha
      have hlt : bound < f x := not_le.1 fun hle' => hle (decide_eq_true hle')
      rcases mem_cons.1 ha with rfl | ha
      · exact hlt
      · exact lt_trans hlt (hx a ha)

theorem mem_takeWhile_le (f : β → κ) {xs : List β}
    (h : a ∈ xs.takeWhile (fun a => decide (f a ≤ bound))) : f a ≤ bound :=
  of_decide_eq_true (mem_takeWhile_imp (p := fun a => decide (f a ≤ bound)) h)

section
variable (hxs : SortedBy key xs) (hops : SortedBy (Edit.keyBy key) ops) (bound : κ)
include hxs hops

theorem editBy_takeWhile :
    editBy key (xs.takeWhile fun a => key a ≤ bound) (ops.takeWhile fun op => op.keyBy key ≤ bound) =
      (editBy key xs ops).takeWhile fun a => key a ≤ bound := by
  have hcut := editBy_append key bound (xs.takeWhile fun a => key a ≤ bound) _
    (ops.takeWhile fun op => op.keyBy key ≤ bound) _ (fun _ => mem_takeWhile_le key)
    (fun _ => mem_takeWhile_le (Edit.keyBy key)) (sortedBy_dropWhile hxs bound)
    (sortedBy_dropWhile hops bound)
  rw [takeWhile_append_dropWhile, takeWhile_append_dropWhile] at hcut
  rw [hcut, takeWhile_append_of_cut]
  · intro a ha
    exact decide_eq_true (key_mem_editBy (P := (· ≤ bound)) (fun _ => mem_takeWhile_le key)
      (fun _ => mem_takeWhile_le (Edit.keyBy key)) ha)
  · intro a ha
    apply decide_eq_false
    exact not_le_of_gt (key_mem_editBy (P := (bound < ·)) (sortedBy_dropWhile hxs bound)
      (sortedBy_dropWhile hops bound) ha)

theorem editBy_takeWhile_append :
    editBy key xs (ops.takeWhile fun op => op.keyBy key ≤ bound) =
      ((editBy key xs ops).takeWhile fun a => key a ≤ bound) ++
        xs.dropWhile fun a => key a ≤ bound := by
  have hcut := editBy_append key bound (xs.takeWhile fun a => key a ≤ bound) _
    (ops.takeWhile fun op => op.keyBy key ≤ bound) [] (fun _ => mem_takeWhile_le key)
    (fun _ => mem_takeWhile_le (Edit.keyBy key)) (sortedBy_dropWhile hxs bound)
    (fun _ h => nomatch h)
  rw [takeWhile_append_dropWhile, append_nil, editBy_nil] at hcut
  rw [hcut, editBy_takeWhile hxs hops]

end

theorem takeWhile_le_last {f : β → κ} (h : SortedBy f xs)
    (hlast : (xs.take n).getLast? = some last) :
    xs.takeWhile (fun a => decide (f a ≤ f last)) = xs.take n := by
  obtain ⟨front, hfront⟩ := getLast?_eq_some_iff.1 hlast
  have hsplit : (front ++ [last]) ++ xs.drop n = xs := by rw [← hfront, take_append_drop]
  rw [SortedBy, ← hsplit, pairwise_append, pairwise_append] at h
  obtain ⟨⟨_, _, hfrontLast⟩, _, hrest⟩ := h
  rw [hfront, ← hsplit, takeWhile_append_of_cut]
  · intro a ha
    apply decide_eq_true
    rcases mem_append.1 ha with ha | ha
    · exact le_of_lt (hfrontLast a ha last (mem_singleton_self _))
    · rw [mem_singleton.1 ha]
  · intro a ha
    apply decide_eq_false
    exact not_le_of_gt (hrest last (mem_append_right _ (mem_singleton_self _)) a ha)

end Walk

end Heddle.Lib
