import Heddle.Lib.SortedList
import Mathlib.Data.List.Induction

namespace Heddle.Lib
open List

section GroupBy
variable [LinearOrder κ] (key : α → κ)

def addToGroup (groups : List (κ × List α)) (x : α) : List (κ × List α) :=
  upsertBy Prod.fst (key x) (fun group => (key x, (group.map Prod.snd).getD [] ++ [x])) groups

def groupBy (xs : List α) : List (κ × List α) := xs.foldl (addToGroup key) []

def keepFirst (firsts : List (κ × α)) (x : α) : List (κ × α) :=
  upsertBy Prod.fst (key x) (fun first => first.getD (key x, x)) firsts

def firstBy (xs : List α) : List (κ × α) := xs.foldl (keepFirst key) []

variable {key}

theorem groupBy_concat (xs : List α) (x : α) :
    groupBy key (xs ++ [x]) = addToGroup key (groupBy key xs) x := by
  unfold groupBy
  rw [foldl_append, foldl_cons, foldl_nil]

theorem groupBy_sorted (xs : List α) : SortedBy Prod.fst (groupBy key xs) := by
  induction xs using List.reverseRecOn with
  | nil => exact .nil
  | append_singleton xs x ih =>
    rw [groupBy_concat]
    exact upsertBy_sorted (fun _ _ => rfl) ih

theorem lookupBy_addToGroup (hs : SortedBy Prod.fst groups) (x : α) (k : κ) :
    lookupBy Prod.fst k (addToGroup key groups x) =
      if k = key x then some (key x, ((lookupBy Prod.fst (key x) groups).map Prod.snd).getD [] ++ [x])
      else lookupBy Prod.fst k groups := by
  have hkey : ∀ o : Option (κ × List α), (∀ p ∈ o, p.1 = key x) →
      ((key x, (o.map Prod.snd).getD [] ++ [x]) : κ × List α).1 = key x := fun _ _ => rfl
  exact lookupBy_upsertBy hkey hs k

theorem lookupBy_groupBy (xs : List α) (k : κ) :
    lookupBy Prod.fst k (groupBy key xs) =
      if xs.filter (key · = k) = [] then none else some (k, xs.filter (key · = k)) := by
  induction xs using List.reverseRecOn with
  | nil => rfl
  | append_singleton xs x ih =>
    rw [groupBy_concat, lookupBy_addToGroup (groupBy_sorted xs), filter_append]
    by_cases hk : k = key x
    · subst hk
      rw [if_pos rfl, ih, filter_cons_of_pos (by simp), filter_nil]
      split
      · rename_i hnil
        rw [hnil]
        rfl
      · rw [if_neg (by simp)]
        rfl
    · rw [if_neg hk, ih, filter_cons_of_neg (by simpa using Ne.symm hk), filter_nil,
        append_nil]

theorem mem_groupBy :
    (k, group) ∈ groupBy key xs ↔ group = xs.filter (key · = k) ∧ group ≠ [] := by
  have hlookup := @lookupBy_groupBy _ _ _ key xs k
  have hmem := @lookupBy_eq_some _ _ _ Prod.fst k (k, group) (groupBy key xs) (groupBy_sorted xs)
  rw [hlookup] at hmem
  apply Iff.intro
  · intro h
    have heq := hmem.2 ⟨h, rfl⟩
    split at heq
    · cases heq
    · rename_i hne
      cases heq
      exact ⟨rfl, hne⟩
  · intro h
    obtain ⟨rfl, hne⟩ := h
    rw [if_neg hne] at hmem
    exact (hmem.1 rfl).1

theorem firstBy_concat (xs : List α) (x : α) :
    firstBy key (xs ++ [x]) = keepFirst key (firstBy key xs) x := by
  unfold firstBy
  rw [foldl_append, foldl_cons, foldl_nil]

omit [LinearOrder κ] in
theorem keepFirst_key (x : α) (first : Option (κ × α)) (h : ∀ p ∈ first, p.1 = key x) :
    (first.getD (key x, x)).1 = key x := by
  cases first with
  | none => rfl
  | some p => exact h p rfl

theorem firstBy_sorted (xs : List α) : SortedBy Prod.fst (firstBy key xs) := by
  induction xs using List.reverseRecOn with
  | nil => exact .nil
  | append_singleton xs x ih =>
    rw [firstBy_concat]
    exact upsertBy_sorted (keepFirst_key x) ih

theorem lookupBy_firstBy (xs : List α) (k : κ) :
    lookupBy Prod.fst k (firstBy key xs) = (xs.find? (key · = k)).map fun x => (k, x) := by
  induction xs using List.reverseRecOn with
  | nil => rfl
  | append_singleton xs x ih =>
    rw [firstBy_concat, keepFirst, lookupBy_upsertBy (keepFirst_key x) (firstBy_sorted xs),
      find?_append]
    by_cases hk : k = key x
    · subst hk
      rw [if_pos rfl, ih]
      cases xs.find? (key · = key x) with
      | none => simp
      | some y => rfl
    · rw [if_neg hk, ih, find?_cons_of_neg (by simpa using Ne.symm hk), find?_nil,
        Option.or_none]

theorem mem_firstBy :
    (k, x) ∈ firstBy key xs ↔ xs.find? (key · = k) = some x := by
  have hmem := @lookupBy_eq_some _ _ _ Prod.fst k (k, x) (firstBy key xs) (firstBy_sorted xs)
  rw [lookupBy_firstBy] at hmem
  apply Iff.intro
  · intro h
    obtain ⟨y, hy, heq⟩ := Option.map_eq_some_iff.1 (hmem.2 ⟨h, rfl⟩)
    cases heq
    exact hy
  · intro h
    rw [h] at hmem
    exact (hmem.1 rfl).1

theorem of_mem_firstBy (h : (k, x) ∈ firstBy key xs) :
    x ∈ xs ∧ key x = k := by
  have hfound := mem_firstBy.1 h
  have hkey := find?_some hfound
  exact ⟨mem_of_find?_eq_some hfound, of_decide_eq_true hkey⟩

theorem exists_mem_firstBy (h : x ∈ xs) :
    ∃ y, (key x, y) ∈ firstBy key xs := by
  have hsome : (xs.find? (key · = key x)).isSome := by
    rw [find?_isSome]
    exact ⟨x, h, decide_eq_true rfl⟩
  obtain ⟨y, hy⟩ := Option.isSome_iff_exists.1 hsome
  exact ⟨y, mem_firstBy.2 hy⟩

end GroupBy

section Measure
variable [LinearOrder κ] {key : α → κ}

theorem sum_upsertBy_le {key : β → κ} {k : κ} {update : Option β → β} {measure : β → Nat}
    (h : ∀ x, measure x ≤ measure (update (some x))) (xs : List β) :
    (xs.map measure).sum ≤ ((upsertBy key k update xs).map measure).sum := by
  induction xs with
  | nil => exact Nat.zero_le _
  | cons x xs ih =>
    have hx := h x
    rw [upsertBy]
    split
    · simp only [map_cons, sum_cons]
      omega
    · split
      · simp only [map_cons, sum_cons]
        omega
      · simp only [map_cons, sum_cons]
        omega

theorem sum_groupBy_le {measure : List α → Nat} (h : ∀ xs x, measure xs ≤ measure (xs ++ [x]))
    (xs ys : List α) :
    ((groupBy key xs).map fun g => measure g.2).sum ≤
      ((groupBy key (xs ++ ys)).map fun g => measure g.2).sum := by
  induction ys using List.reverseRecOn with
  | nil => rw [append_nil]
  | append_singleton ys y ih =>
    rw [← append_assoc, groupBy_concat]
    exact ih.trans (sum_upsertBy_le (fun g => h g.2 y) _)

theorem sum_firstBy_le (measure : κ × α → Nat) (xs ys : List α) :
    ((firstBy key xs).map measure).sum ≤ ((firstBy key (xs ++ ys)).map measure).sum := by
  induction ys using List.reverseRecOn with
  | nil => rw [append_nil]
  | append_singleton ys y ih =>
    rw [← append_assoc, firstBy_concat]
    exact ih.trans (sum_upsertBy_le (fun first => le_rfl) _)

end Measure

end Heddle.Lib
