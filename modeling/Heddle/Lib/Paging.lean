import Heddle.Lib.Fold
import Heddle.Lib.WhileLoop
import Mathlib.Algebra.GroupWithZero.Nat
import Mathlib.Order.Lattice

namespace Heddle.Lib
open List

def walk (step : κ → Except ε (α × κ)) : Nat → κ → Except ε (List α × κ)
  | 0, cursor => .ok ([], cursor)
  | n + 1, cursor => do
    let first ← step cursor
    let rest ← walk step n first.2
    return (first.1 :: rest.1, rest.2)

section Walk
variable {step : κ → Except ε (α × κ)}

theorem walk_zero_ok_iff :
    walk step 0 cursor = .ok (items, cursor') ↔ items = [] ∧ cursor' = cursor := by
  simp only [walk, Except.ok.injEq, Prod.mk.injEq, eq_comm]

theorem walk_succ_ok_iff :
    walk step (n + 1) cursor = .ok (items, cursor') ↔
      ∃ item next rest, step cursor = .ok (item, next) ∧ walk step n next = .ok (rest, cursor') ∧
        items = item :: rest := by
  simp only [walk, bind_eq_ok, pure_eq_ok, Except.ok.injEq, Prod.mk.injEq]
  constructor
  · rintro ⟨⟨item, next⟩, hstep, ⟨rest, last⟩, hrest, rfl, rfl⟩
    exact ⟨item, next, rest, hstep, hrest, rfl⟩
  · rintro ⟨item, next, rest, hstep, hrest, rfl⟩
    exact ⟨(item, next), hstep, (rest, cursor'), hrest, rfl, rfl⟩

theorem walk_length (h : walk step n cursor = .ok (items, cursor')) :
    items.length = n := by
  induction n generalizing cursor items with
  | zero =>
    obtain ⟨rfl, _⟩ := walk_zero_ok_iff.1 h
    rfl
  | succ n ih =>
    obtain ⟨item, next, rest, _, hrest, rfl⟩ := walk_succ_ok_iff.1 h
    rw [length_cons, ih hrest]

theorem walk_add_ok_iff :
    walk step (m + n) cursor = .ok (items, cursor') ↔
      ∃ xs middle ys, walk step m cursor = .ok (xs, middle) ∧
        walk step n middle = .ok (ys, cursor') ∧ items = xs ++ ys := by
  induction m generalizing cursor items with
  | zero =>
    rw [Nat.zero_add]
    constructor
    · intro h
      exact ⟨[], cursor, items, rfl, h, rfl⟩
    · rintro ⟨xs, middle, ys, hxs, hys, rfl⟩
      obtain ⟨rfl, rfl⟩ := walk_zero_ok_iff.1 hxs
      exact hys
  | succ m ih =>
    rw [Nat.succ_add, walk_succ_ok_iff]
    constructor
    · rintro ⟨item, next, rest, hstep, hrest, rfl⟩
      obtain ⟨xs, middle, ys, hxs, hys, rfl⟩ := ih.1 hrest
      exact ⟨item :: xs, middle, ys, walk_succ_ok_iff.2 ⟨item, next, xs, hstep, hxs, rfl⟩, hys, rfl⟩
    · rintro ⟨_, middle, ys, hxs, hys, rfl⟩
      obtain ⟨item, next, xs, hstep, hrest, rfl⟩ := walk_succ_ok_iff.1 hxs
      exact ⟨item, next, xs ++ ys, hstep, ih.2 ⟨xs, middle, ys, hrest, hys, rfl⟩, rfl⟩

theorem walk_inv {P : κ → List α → Prop}
    (hstep : ∀ cursor seen item next, P cursor seen → step cursor = .ok (item, next) →
      P next (seen ++ [item])) (h : walk step n cursor = .ok (items, cursor'))
    (hP : P cursor seen) :
    P cursor' (seen ++ items) := by
  induction n generalizing cursor items seen with
  | zero =>
    obtain ⟨rfl, rfl⟩ := walk_zero_ok_iff.1 h
    rwa [append_nil]
  | succ n ih =>
    obtain ⟨item, next, rest, hitem, hrest, rfl⟩ := walk_succ_ok_iff.1 h
    rw [append_cons]
    exact ih hrest (hstep cursor seen item next hP hitem)

end Walk

/-- The budget of one page. `tooLarge` refuses an item outright, `full` closes the page before it;
`full` also sees what the page holds so far. -/
structure PageBudget (α : Type) where
  maxItems : Nat
  size : α → Nat
  tooLarge : α → Bool
  full : Nat → α → Bool

inductive PageCall (α : Type) where
  | done
  | page (taken : List α)
  | oversized (taken : List α) (item : α)
  deriving DecidableEq

namespace PageCall

def delivered : PageCall α → List α
  | .page taken => taken
  | _ => []

def lost : PageCall α → List α
  | .oversized taken _ => taken
  | _ => []

end PageCall

def takePage (budget : PageBudget α) : Nat → List α → Nat → List α → PageCall α × List α
  | 0, taken, _, items => (.page taken, items)
  | _ + 1, taken, _, [] => (.page taken, [])
  | room + 1, taken, used, item :: items =>
    if budget.tooLarge item then (.oversized taken item, item :: items)
    else if taken ≠ [] ∧ budget.full used item then (.page taken, item :: items)
    else takePage budget room (taken ++ [item]) (used + budget.size item) items

def pageCall (budget : PageBudget α) (items : List α) : PageCall α × List α :=
  if items = [] then (.done, []) else takePage budget budget.maxItems [] 0 items

def pageCalls : List (PageBudget α) → List α → List (PageCall α) × List α
  | [], items => ([], items)
  | budget :: budgets, items =>
    let first := pageCall budget items
    let rest := pageCalls budgets first.2
    (first.1 :: rest.1, rest.2)

section Calls

theorem takePage_split (budget : PageBudget α) (room : Nat) (taken : List α) (used : Nat)
    (items : List α) :
    (takePage budget room taken used items).1.delivered ++
        (takePage budget room taken used items).1.lost ++
        (takePage budget room taken used items).2 = taken ++ items := by
  induction room generalizing taken used items with
  | zero => simp only [takePage, PageCall.delivered, PageCall.lost, append_nil]
  | succ room ih =>
    cases items with
    | nil => simp only [takePage, PageCall.delivered, PageCall.lost, append_nil]
    | cons item items =>
      rw [takePage]
      split
      · simp only [PageCall.delivered, PageCall.lost, nil_append]
      · split
        · simp only [PageCall.delivered, PageCall.lost, append_nil]
        · rw [ih, append_assoc, singleton_append]

theorem takePage_ne_done :
    (takePage budget room taken used items).1 ≠ .done := by
  induction room generalizing taken used items with
  | zero => exact fun h => nomatch h
  | succ room ih =>
    cases items with
    | nil => exact fun h => nomatch h
    | cons item items =>
      rw [takePage]
      split
      · exact fun h => nomatch h
      · split
        · exact fun h => nomatch h
        · exact ih

theorem takePage_ne_nil {budget : PageBudget α}
    (h : (takePage budget (room + 1) [] used (item :: items)).1 = .page taken) : taken ≠ [] := by
  have hgrow : ∀ room seen used (items : List α),
      (takePage budget room seen used items).1 = .page taken → seen <+: taken := by
    intro room
    induction room with
    | zero =>
      intro seen used items h
      cases h
      exact prefix_refl _
    | succ room ih =>
      intro seen used items h
      cases items with
      | nil =>
        cases h
        exact prefix_refl _
      | cons item items =>
        rw [takePage] at h
        split at h
        · cases h
        · split at h
          · cases h
            exact prefix_refl _
          · exact (prefix_append _ _).trans (ih _ _ _ h)
  rw [takePage] at h
  split at h
  · cases h
  · rw [if_neg (fun hfull => hfull.1 rfl)] at h
    obtain ⟨rest, rfl⟩ := hgrow _ _ _ _ h
    simp only [nil_append, cons_append, ne_eq, reduceCtorEq, not_false_eq_true]

theorem pageCall_page_ne_nil (hroom : 0 < budget.maxItems)
    (h : (pageCall budget items).1 = .page taken) : taken ≠ [] := by
  rw [pageCall] at h
  split at h
  · cases h
  · rename_i hne
    obtain ⟨item, rest, rfl⟩ := exists_cons_of_ne_nil hne
    obtain ⟨room, hroom⟩ := Nat.exists_eq_add_of_lt hroom
    rw [hroom, Nat.zero_add] at h
    exact takePage_ne_nil h

/-- A call neither repeats nor reorders: what it takes, and what it leaves. -/
theorem pageCall_split (budget : PageBudget α) (items : List α) :
    (pageCall budget items).1.delivered ++ (pageCall budget items).1.lost ++
      (pageCall budget items).2 = items := by
  rw [pageCall]
  split
  · rename_i hnil
    rw [hnil]
    rfl
  · exact takePage_split budget budget.maxItems [] 0 items

theorem pageCalls_append (xs ys : List (PageBudget α)) (items : List α) :
    pageCalls (xs ++ ys) items =
      ((pageCalls xs items).1 ++ (pageCalls ys (pageCalls xs items).2).1,
        (pageCalls ys (pageCalls xs items).2).2) := by
  induction xs generalizing items with
  | nil => rfl
  | cons budget xs ih => simp only [cons_append, pageCalls, ih]

theorem pageCalls_of_no_loss (budgets : List (PageBudget α)) (items : List α)
    (h : ∀ call ∈ (pageCalls budgets items).1, call.lost = []) :
    (pageCalls budgets items).1.flatMap PageCall.delivered ++ (pageCalls budgets items).2 =
      items := by
  induction budgets generalizing items with
  | nil => rfl
  | cons budget budgets ih =>
    obtain ⟨hfirst, hrest⟩ := forall_mem_cons.1 h
    have hsplit := pageCall_split budget items
    rw [hfirst, append_nil] at hsplit
    rw [pageCalls, flatMap_cons, append_assoc, ih _ hrest, hsplit]

theorem pageCalls_length (budgets : List (PageBudget α)) (items : List α) :
    ((pageCalls budgets items).1.flatMap PageCall.delivered).length +
        ((pageCalls budgets items).1.flatMap PageCall.lost).length +
        (pageCalls budgets items).2.length = items.length := by
  induction budgets generalizing items with
  | nil => simp only [pageCalls, flatMap_nil, length_nil, Nat.zero_add]
  | cons budget budgets ih =>
    have hsplit := congrArg List.length (pageCall_split budget items)
    have hrest := ih (pageCall budget items).2
    simp only [length_append] at hsplit
    simp only [pageCalls, flatMap_cons, length_append]
    omega

/-- What was delivered and what is left make up the list, seen through `f`, exactly when no call lost
an item. -/
theorem pageCalls_delivered_iff (f : α → β) (budgets : List (PageBudget α)) (items : List α) :
    ((pageCalls budgets items).1.flatMap PageCall.delivered ++ (pageCalls budgets items).2).map f =
        items.map f ↔ ∀ call ∈ (pageCalls budgets items).1, call.lost = [] := by
  constructor
  · intro h
    have hlength := pageCalls_length budgets items
    have hsplit := congrArg List.length h
    rw [length_map, length_map, length_append] at hsplit
    have hlost : ((pageCalls budgets items).1.flatMap PageCall.lost).length = 0 := by omega
    exact flatMap_eq_nil_iff.1 (length_eq_zero_iff.1 hlost)
  · intro h
    rw [pageCalls_of_no_loss budgets items h]

theorem pageCall_suffix (budget : PageBudget α) (items : List α) :
    (pageCall budget items).2 <:+ items :=
  ⟨_, pageCall_split budget items⟩

theorem pageCalls_suffix (budgets : List (PageBudget α)) (items : List α) :
    (pageCalls budgets items).2 <:+ items := by
  induction budgets generalizing items with
  | nil => exact suffix_refl items
  | cons budget budgets ih => exact (ih _).trans (pageCall_suffix budget items)

def PageBudget.Admits (budget : PageBudget α) (seen taken : List α) : Prop :=
  ∀ front item back, taken = front ++ item :: back →
    budget.tooLarge item = false ∧
      (seen ++ front = [] ∨ budget.full ((seen ++ front).map budget.size).sum item = false)

/-- The list starts with items that fit a page, and one too large for any page comes before the page
is full. -/
def PageBudget.Refuses (budget : PageBudget α) (items : List α) : Prop :=
  ∃ taken item rest, items = taken ++ item :: rest ∧ taken.length < budget.maxItems ∧
    budget.tooLarge item = true ∧ budget.Admits [] taken

/-- Such a list with at least one item that fits: the call takes it and gives up. -/
def PageBudget.Loses (budget : PageBudget α) (items : List α) : Prop :=
  ∃ taken item rest, items = taken ++ item :: rest ∧ taken ≠ [] ∧
    taken.length < budget.maxItems ∧ budget.tooLarge item = true ∧ budget.Admits [] taken

theorem PageBudget.admits_cons_iff {budget : PageBudget α} :
    budget.Admits seen (item :: taken) ↔ budget.tooLarge item = false ∧
      (seen = [] ∨ budget.full (seen.map budget.size).sum item = false) ∧
      budget.Admits (seen ++ [item]) taken := by
  constructor
  · intro h
    have hfirst := h [] item taken rfl
    rw [append_nil] at hfirst
    refine ⟨hfirst.1, hfirst.2, fun front next back heq => ?_⟩
    have hnext := h (item :: front) next back (by rw [heq]; rfl)
    rwa [append_cons] at hnext
  · rintro ⟨hsmall, hroom, hrest⟩ front next back heq
    cases front with
    | nil =>
      cases heq
      rw [append_nil]
      exact ⟨hsmall, hroom⟩
    | cons first front =>
      cases heq
      rw [append_cons]
      exact hrest front next back rfl

/-- A call gives up at an item too large for any page, behind items that its page admits. -/
theorem takePage_oversized_iff :
    (takePage budget room seen (seen.map budget.size).sum items).1 = .oversized left item ↔
      ∃ taken rest, left = seen ++ taken ∧ items = taken ++ item :: rest ∧
        taken.length < room ∧ budget.tooLarge item = true ∧ budget.Admits seen taken := by
  induction room generalizing seen items with
  | zero =>
    constructor
    · intro h
      cases h
    · rintro ⟨_, _, _, _, hlt, _⟩
      exact absurd hlt (Nat.not_lt_zero _)
  | succ room ih =>
    cases items with
    | nil =>
      constructor
      · intro h
        cases h
      · rintro ⟨taken, rest, _, heq, _⟩
        exact absurd heq.symm (append_ne_nil_of_right_ne_nil _ (cons_ne_nil _ _))
    | cons first items =>
      rw [takePage]
      by_cases hlarge : budget.tooLarge first = true
      · rw [if_pos hlarge]
        constructor
        · intro h
          cases h
          refine ⟨[], items, (append_nil _).symm, rfl, Nat.succ_pos _, hlarge, ?_⟩
          intro front item back heq
          exact absurd heq.symm (append_ne_nil_of_right_ne_nil _ (cons_ne_nil _ _))
        · rintro ⟨taken, rest, rfl, heq, _, _, hadmits⟩
          cases taken with
          | nil =>
            cases heq
            rw [append_nil]
          | cons other taken =>
            cases heq
            have hsmall := (PageBudget.admits_cons_iff.1 hadmits).1
            rw [hlarge] at hsmall
            cases hsmall
      · rw [if_neg hlarge]
        have hcut : ∀ taken rest, first :: items = taken ++ item :: rest →
            budget.tooLarge item = true → ∃ tail, taken = first :: tail := by
          intro taken rest heq hitem
          cases taken with
          | nil =>
            cases heq
            exact absurd hitem hlarge
          | cons other taken =>
            cases heq
            exact ⟨taken, rfl⟩
        by_cases hfull : seen ≠ [] ∧ budget.full (seen.map budget.size).sum first
        · rw [if_pos hfull]
          constructor
          · intro h
            cases h
          · rintro ⟨taken, rest, _, heq, _, hitem, hadmits⟩
            obtain ⟨tail, rfl⟩ := hcut taken rest heq hitem
            rcases (PageBudget.admits_cons_iff.1 hadmits).2.1 with hnil | hroom
            · exact absurd hnil hfull.1
            · rw [hfull.2] at hroom
              cases hroom
        · rw [if_neg hfull]
          have hroom : seen = [] ∨ budget.full (seen.map budget.size).sum first = false := by
            by_cases hnil : seen = []
            · exact .inl hnil
            · exact .inr (Bool.eq_false_iff.2 fun h => hfull ⟨hnil, h⟩)
          have hused : (seen.map budget.size).sum + budget.size first =
              ((seen ++ [first]).map budget.size).sum := by
            rw [map_append, sum_append, map_singleton, sum_singleton]
          rw [hused, ih]
          constructor
          · rintro ⟨taken, rest, rfl, rfl, hlt, hitem, hadmits⟩
            refine ⟨first :: taken, rest, (append_cons ..).symm, rfl, Nat.succ_lt_succ hlt,
              hitem, ?_⟩
            exact PageBudget.admits_cons_iff.2 ⟨Bool.eq_false_iff.2 hlarge, hroom, hadmits⟩
          · rintro ⟨taken, rest, rfl, heq, hlt, hitem, hadmits⟩
            obtain ⟨tail, rfl⟩ := hcut taken rest heq hitem
            cases heq
            exact ⟨tail, rest, append_cons .., rfl, Nat.lt_of_succ_lt_succ hlt, hitem,
              (PageBudget.admits_cons_iff.1 hadmits).2.2⟩

theorem pageCall_oversized_iff :
    (pageCall budget items).1 = .oversized left item ↔ ∃ rest, items = left ++ item :: rest ∧
      left.length < budget.maxItems ∧ budget.tooLarge item = true ∧ budget.Admits [] left := by
  rw [pageCall]
  split
  · rename_i hnil
    constructor
    · intro h
      cases h
    · rintro ⟨rest, heq, _⟩
      rw [hnil] at heq
      exact absurd heq.symm (append_ne_nil_of_right_ne_nil _ (cons_ne_nil _ _))
  · apply Iff.trans takePage_oversized_iff
    constructor
    · rintro ⟨taken, rest, rfl, h⟩
      exact ⟨rest, h⟩
    · rintro ⟨rest, h⟩
      exact ⟨left, rest, rfl, h⟩

theorem pageCall_oversized (h : (pageCall budget items).1 = .oversized left item) :
    item ∈ items ∧ budget.tooLarge item = true := by
  obtain ⟨rest, rfl, _, hlarge, _⟩ := pageCall_oversized_iff.1 h
  exact ⟨mem_append_right _ mem_cons_self, hlarge⟩

theorem pageCall_lost_iff :
    (pageCall budget items).1.lost ≠ [] ↔ budget.Loses items := by
  constructor
  · intro h
    cases hcall : (pageCall budget items).1 with
    | done => exact absurd (congrArg PageCall.lost hcall) h
    | page taken => exact absurd (congrArg PageCall.lost hcall) h
    | oversized taken item =>
      rw [hcall] at h
      obtain ⟨rest, heq, hlt, hlarge, hadmits⟩ := pageCall_oversized_iff.1 hcall
      exact ⟨taken, item, rest, heq, h, hlt, hlarge, hadmits⟩
  · rintro ⟨taken, item, rest, heq, hne, h⟩
    rwa [pageCall_oversized_iff.2 ⟨rest, heq, h⟩]

theorem pageCall_delivered_nil_iff (hroom : 0 < budget.maxItems) :
    (pageCall budget items).1.delivered = [] ↔ items = [] ∨ budget.Refuses items := by
  constructor
  · intro h
    cases hcall : (pageCall budget items).1 with
    | done =>
      rw [pageCall] at hcall
      split at hcall
      · exact .inl ‹_›
      · exact absurd hcall takePage_ne_done
    | page taken =>
      rw [hcall] at h
      exact absurd h (pageCall_page_ne_nil hroom hcall)
    | oversized taken item => exact .inr ⟨taken, item, pageCall_oversized_iff.1 hcall⟩
  · rintro (rfl | ⟨taken, item, h⟩)
    · rfl
    · rw [pageCall_oversized_iff.2 h]
      rfl

theorem pageCalls_forall_iff {P : PageCall α → Prop} (budgets : List (PageBudget α))
    (items : List α) : (∀ call ∈ (pageCalls budgets items).1, P call) ↔
      ∀ front budget back, budgets = front ++ budget :: back →
        P (pageCall budget (pageCalls front items).2).1 := by
  induction budgets generalizing items with
  | nil =>
    constructor
    · intro _ front budget back heq
      exact absurd heq.symm (append_ne_nil_of_right_ne_nil _ (cons_ne_nil _ _))
    · intro _ call hcall
      cases hcall
  | cons budget budgets ih =>
    rw [pageCalls, forall_mem_cons, ih]
    constructor
    · rintro ⟨hfirst, hrest⟩ front other back heq
      cases front with
      | nil =>
        cases heq
        exact hfirst
      | cons first front =>
        cases heq
        exact hrest front other back rfl
    · intro h
      refine ⟨h [] budget budgets rfl, fun front other back heq => ?_⟩
      exact h (budget :: front) other back (by rw [heq]; rfl)

theorem pageCalls_delivered_subset (budgets : List (PageBudget α)) (items : List α) :
    (pageCalls budgets items).1.flatMap PageCall.delivered ⊆ items := by
  induction budgets generalizing items with
  | nil => exact nil_subset _
  | cons budget budgets ih =>
    have hsplit := pageCall_split budget items
    rw [pageCalls, flatMap_cons]
    apply append_subset.2
    constructor
    · intro x hx
      exact hsplit ▸ mem_append_left _ (mem_append_left _ hx)
    · exact List.Subset.trans (ih _) (pageCall_suffix budget items).subset

/-- The items handed out, seen through `f`, are the front of the list exactly when nothing is handed
out after a loss. -/
theorem pageCalls_prefix_iff (f : α → β) (budgets : List (PageBudget α))
    (hnodup : (items.map f).Nodup) :
    ((pageCalls budgets items).1.flatMap PageCall.delivered).map f <+: items.map f ↔
      ∀ front budget back, budgets = front ++ budget :: back →
        (pageCall budget (pageCalls front items).2).1.lost ≠ [] →
        ∀ call ∈ (pageCalls back (pageCall budget (pageCalls front items).2).2).1,
          call.delivered = [] := by
  induction budgets generalizing items with
  | nil =>
    constructor
    · intro _ front budget back heq
      exact absurd heq.symm (append_ne_nil_of_right_ne_nil _ (cons_ne_nil _ _))
    · intro _
      exact nil_prefix
  | cons first budgets ih =>
    have hsplit := pageCall_split first items
    have hrest : ((pageCall first items).2.map f).Nodup :=
      hnodup.sublist ((pageCall_suffix first items).sublist.map f)
    rw [pageCalls, flatMap_cons, map_append]
    by_cases hlost : (pageCall first items).1.lost = []
    · rw [hlost, append_nil] at hsplit
      have hmap : items.map f =
          (pageCall first items).1.delivered.map f ++ (pageCall first items).2.map f := by
        rw [← map_append, hsplit]
      rw [hmap, prefix_append_right_inj, ih hrest]
      constructor
      · intro h front budget back heq
        cases front with
        | nil =>
          cases heq
          exact absurd hlost
        | cons _ front =>
          cases heq
          exact h front budget back rfl
      · intro h front budget back heq
        exact h (first :: front) budget back (congrArg _ heq)
    · have hnone : (pageCall first items).1.delivered = [] := by
        cases hcall : (pageCall first items).1 with
        | done => rfl
        | page taken => exact absurd (congrArg PageCall.lost hcall) hlost
        | oversized taken item => rfl
      rw [hnone, map_nil, nil_append]
      constructor
      · intro hprefix
        have hsilent : (pageCalls budgets (pageCall first items).2).1.flatMap PageCall.delivered =
            [] := by
          obtain ⟨x, xs, hxs⟩ := exists_cons_of_ne_nil hlost
          have hsubset := pageCalls_delivered_subset budgets (pageCall first items).2
          generalize (pageCalls budgets (pageCall first items).2).1.flatMap PageCall.delivered =
            later at hprefix hsubset
          rw [hnone, nil_append, hxs] at hsplit
          rw [← hsplit, cons_append, map_cons] at hprefix hnodup
          cases later with
          | nil => rfl
          | cons y later =>
            rw [map_cons, cons_prefix_cons] at hprefix
            apply absurd _ (nodup_cons.1 hnodup).1
            rw [← hprefix.1]
            exact mem_map_of_mem (mem_append_right _ (hsubset (.head _)))
        have hall := flatMap_eq_nil_iff.1 hsilent
        intro front budget back heq
        cases front with
        | nil =>
          cases heq
          exact fun _ => hall
        | cons _ front =>
          rw [cons_append, List.cons.injEq] at heq
          obtain ⟨rfl, rfl⟩ := heq
          intro _ call hcall
          rw [pageCalls_append] at hall
          exact hall call (mem_append_right _ (mem_cons_of_mem _ hcall))
      · intro h
        have hall : ∀ call ∈ (pageCalls budgets (pageCall first items).2).1,
            call.delivered = [] := h [] first budgets rfl hlost
        rw [flatMap_eq_nil_iff.2 hall]
        exact nil_prefix

end Calls

def itemsAfter [LinearOrder α] (items : List α) (after : Option α) : List α :=
  items.filter fun x => decide (∀ a ∈ after, a < x)

/-- The first `limit` items that come after the cursor. -/
def pageAfter [LinearOrder α] (items : List α) (after : Option α) (limit : Nat) : List α :=
  (itemsAfter items after).take limit

/-- Reads the next page and moves the cursor to its last item; an empty page ends the reading. -/
def readPage (page : Option α → Except ε (List α)) (state : Option α × List α) :
    Round (Option α × List α) (Except ε (List α)) :=
  match page state.1 with
  | .error e => .done (.error e)
  | .ok items => items.getLast?.elim (.done (.ok state.2)) fun last =>
    .next (some last, state.2 ++ items)

section Pages
variable [LinearOrder α] {items : List α} {page : Option α → Except ε (List α)} {limit : Nat}

theorem itemsAfter_none : itemsAfter items none = items :=
  filter_eq_self.2 fun _ _ => decide_eq_true fun _ ha => nomatch ha

theorem itemsAfter_last (hsorted : items.Pairwise (· < ·))
    (hitems : items = before ++ last :: rest) : itemsAfter items (some last) = rest := by
  subst hitems
  rw [pairwise_append, pairwise_cons] at hsorted
  obtain ⟨_, ⟨hrest, _⟩, hbefore⟩ := hsorted
  rw [itemsAfter, filter_append, filter_cons_of_neg, filter_eq_nil_iff.2, nil_append]
  · exact filter_eq_self.2 fun x hx => decide_eq_true fun a ha => Option.some.inj ha ▸ hrest x hx
  · intro x hx hlt
    exact lt_asymm (of_decide_eq_true hlt last rfl) (hbefore x hx last (.head _))
  · exact fun hlt => lt_irrefl last (of_decide_eq_true hlt last rfl)

/-- What was read, and what comes after the cursor, are the items. -/
def ReadSoFar (items : List α) (state : Option α × List α) : Prop :=
  state.2 ++ itemsAfter items state.1 = items

theorem readPage_of_ok (hpage : ∀ after, page after = .ok (pageAfter items after limit))
    (state : Option α × List α) :
    readPage page state = (pageAfter items state.1 limit).getLast?.elim (.done (.ok state.2)) fun last =>
      .next (some last, state.2 ++ pageAfter items state.1 limit) := by
  rw [readPage, hpage]

theorem ReadSoFar.next (h : ReadSoFar items state) (hsorted : items.Pairwise (· < ·))
    (hlast : (pageAfter items state.1 limit).getLast? = some last) :
    ReadSoFar items (some last, state.2 ++ pageAfter items state.1 limit) ∧
      (itemsAfter items (some last)).length < (itemsAfter items state.1).length := by
  obtain ⟨before, hbefore⟩ := getLast?_eq_some_iff.1 hlast
  have hsplit : itemsAfter items state.1 =
      before ++ last :: (itemsAfter items state.1).drop limit := by
    rw [append_cons, ← hbefore]
    exact (take_append_drop limit _).symm
  have hrest : itemsAfter items (some last) = (itemsAfter items state.1).drop limit := by
    apply itemsAfter_last hsorted
    rw [append_assoc, ← hsplit]
    exact h.symm
  constructor
  · rw [ReadSoFar, hrest, append_assoc, pageAfter, take_append_drop]
    exact h
  · have hlength := congrArg List.length hsplit
    rw [length_append, length_cons] at hlength
    rw [hrest]
    omega

theorem runLoop_readPage (hsorted : items.Pairwise (· < ·)) (hlimit : 0 < limit)
    (hpage : ∀ after, page after = .ok (pageAfter items after limit)) :
    Returns (fun fuel => runLoop (readPage page) fuel (none, [])) (.ok items) := by
  have hnext : ∀ state state' : Option α × List α, ReadSoFar items state →
      readPage page state = .next state' → ReadSoFar items state' ∧
        (itemsAfter items state'.1).length < (itemsAfter items state.1).length := by
    intro state state' h hread
    rw [readPage_of_ok hpage] at hread
    cases hlast : (pageAfter items state.1 limit).getLast? with
    | none =>
      rw [hlast] at hread
      cases hread
    | some last =>
      rw [hlast] at hread
      cases hread
      exact h.next hsorted hlast
  have hdone : ∀ (state : Option α × List α) result, ReadSoFar items state →
      readPage page state = .done result → result = .ok items := by
    intro state result h hread
    rw [readPage_of_ok hpage] at hread
    cases hlast : (pageAfter items state.1 limit).getLast? with
    | none =>
      rw [hlast] at hread
      obtain rfl := Round.done.inj hread
      have hnil := take_eq_nil_iff.1 (getLast?_eq_none_iff.1 hlast)
      rw [ReadSoFar, hnil.resolve_left hlimit.ne', append_nil] at h
      rw [h]
    | some last =>
      rw [hlast] at hread
      cases hread
  have hstart : ReadSoFar items (none, []) := itemsAfter_none
  obtain ⟨result, hreturns, rfl⟩ :=
    runLoop_returns (fun state => (itemsAfter items state.1).length) hnext hdone hstart
  exact hreturns

end Pages

end Heddle.Lib
