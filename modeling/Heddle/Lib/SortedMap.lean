import Heddle.Lib.SortedList

namespace Heddle.Lib
open List

section Put
variable [LinearOrder κ] (key : α → κ)

/-- What a binary search answers on a list with ascending keys: what has the key and where it is, or
where the key belongs. -/
def binarySearchBy (k : κ) (xs : List α) : Except Nat (Nat × α) :=
  let index := xs.findIdx fun x => k ≤ key x
  match xs[index]? with
  | some x => if key x = k then .ok (index, x) else .error index
  | none => .error index

def putBy (k : κ) (o : Option α) (xs : List α) : List α :=
  xs.filter (key · < k) ++ (o.toList ++ xs.filter (k < key ·))

structure IsCut (k : κ) (before : List α) (mid : Option α) (after : List α) : Prop where
  lower : ∀ x ∈ before, key x < k
  here : ∀ x ∈ mid, key x = k
  upper : ∀ x ∈ after, k < key x

variable {key}

theorem mem_putBy :
    x ∈ putBy key k o xs ↔ x ∈ o ∨ x ∈ xs ∧ key x ≠ k := by
  simp only [putBy, mem_append, mem_filter, decide_eq_true_eq, Option.mem_toList,
    ne_iff_lt_or_gt]
  tauto

theorem length_putBy_le (k : κ) (o : Option α) (xs : List α) :
    (putBy key k o xs).length ≤ xs.length + 1 := by
  have hsplit := (filter_append_perm (fun x => decide (key x < k)) xs).length_eq
  have hupper : (xs.filter (k < key ·)).length ≤ (xs.filter fun x => !decide (key x < k)).length := by
    rw [← countP_eq_length_filter, ← countP_eq_length_filter]
    apply countP_mono_left
    intro x _ hx
    rw [decide_eq_true_eq] at hx
    rw [decide_eq_false hx.not_gt]
    rfl
  have hone : o.toList.length ≤ 1 := by
    cases o with
    | none => exact Nat.zero_le _
    | some x => exact le_rfl
  rw [length_append] at hsplit
  rw [putBy, length_append, length_append]
  omega

theorem putBy_sorted (hs : SortedBy key xs) (ho : ∀ x ∈ o, key x = k) :
    SortedBy key (putBy key k o xs) := by
  have hmid : SortedBy key o.toList := by
    cases o with
    | none => exact List.Pairwise.nil
    | some x => exact pairwise_singleton _ _
  apply pairwise_append.2
  refine ⟨sortedBy_filter hs _, pairwise_append.2 ⟨hmid, sortedBy_filter hs _, ?_⟩, ?_⟩
  · intro x hx y hy
    rw [ho x (Option.mem_toList.1 hx)]
    exact of_decide_eq_true (mem_filter.1 hy).2
  · intro x hx y hy
    have hkx : key x < k := of_decide_eq_true (mem_filter.1 hx).2
    rcases mem_append.1 hy with hy | hy
    · rw [ho y (Option.mem_toList.1 hy)]
      exact hkx
    · exact hkx.trans (of_decide_eq_true (mem_filter.1 hy).2)

theorem exists_cut (hs : SortedBy key xs) (k : κ) : ∃ before mid after,
    IsCut key k before mid after ∧ xs = before ++ (mid.toList ++ after) := by
  induction xs with
  | nil => exact ⟨[], none, [], ⟨nofun, nofun, nofun⟩, rfl⟩
  | cons x xs ih =>
    obtain ⟨hx, hxs⟩ := sortedBy_cons.1 hs
    rcases lt_trichotomy (key x) k with hlt | heq | hgt
    · obtain ⟨before, mid, after, hcut, heq⟩ := ih hxs
      refine ⟨x :: before, mid, after, ⟨?_, hcut.here, hcut.upper⟩, ?_⟩
      · intro y hy
        rcases mem_cons.1 hy with rfl | hy
        · exact hlt
        · exact hcut.lower y hy
      · rw [heq, cons_append]
    · refine ⟨[], some x, xs, ⟨nofun, ?_, ?_⟩, rfl⟩
      · intro y hy
        exact Option.mem_some.1 hy ▸ heq
      · intro y hy
        exact heq ▸ hx y hy
    · refine ⟨[], none, x :: xs, ⟨nofun, nofun, ?_⟩, rfl⟩
      intro y hy
      rcases mem_cons.1 hy with rfl | hy
      · exact hgt
      · exact hgt.trans (hx y hy)

namespace IsCut
variable {before after : List α} {mid : Option α} (h : IsCut key k before mid after)
include h

theorem putBy (o : Option α) :
    putBy key k o (before ++ (mid.toList ++ after)) = before ++ (o.toList ++ after) := by
  have hlo : (before ++ (mid.toList ++ after)).filter (key · < k) = before := by
    rw [filter_append, filter_eq_self.2 fun x hx => decide_eq_true (h.lower x hx),
      filter_eq_nil_iff.2, append_nil]
    intro x hx
    rw [decide_eq_true_eq]
    rcases mem_append.1 hx with hx | hx
    · exact (h.here x (Option.mem_toList.1 hx)).not_lt
    · exact (h.upper x hx).not_gt
  have hhi : (before ++ (mid.toList ++ after)).filter (k < key ·) = after := by
    rw [← append_assoc, filter_append,
      filter_eq_self.2 fun x hx => decide_eq_true (h.upper x hx), filter_eq_nil_iff.2,
      nil_append]
    intro x hx
    rw [decide_eq_true_eq]
    rcases mem_append.1 hx with hx | hx
    · exact (h.lower x hx).not_gt
    · exact (h.here x (Option.mem_toList.1 hx)).not_gt
  rw [Lib.putBy, hlo, hhi]

theorem findIdx : (before ++ (mid.toList ++ after)).findIdx (fun x => k ≤ key x) = before.length := by
  have hpass : before.findIdx (fun x => decide (k ≤ key x)) = before.length := by
    apply findIdx_eq_length_of_false
    intro x hx
    exact decide_eq_false (h.lower x hx).not_ge
  rw [findIdx_append, if_neg (by rw [hpass]; exact lt_irrefl _)]
  cases mid with
  | some x =>
    rw [Option.toList_some, singleton_append, findIdx_cons,
      decide_eq_true (h.here x rfl).ge, cond_true, Nat.zero_add]
  | none =>
    cases after with
    | nil => rw [Option.toList_none, nil_append, findIdx_nil, Nat.zero_add]
    | cons x after =>
      rw [Option.toList_none, nil_append, findIdx_cons,
        decide_eq_true (h.upper x mem_cons_self).le, cond_true, Nat.zero_add]

theorem search : binarySearchBy key k (before ++ (mid.toList ++ after)) =
    mid.elim (.error before.length) fun x => .ok (before.length, x) := by
  unfold binarySearchBy
  simp only [h.findIdx]
  rw [getElem?_append_right le_rfl, Nat.sub_self]
  cases mid with
  | some x =>
    simp only [Option.toList_some, singleton_append, getElem?_cons_zero,
      if_pos (h.here x rfl), Option.elim_some]
  | none =>
    cases after with
    | nil => rfl
    | cons x after =>
      simp only [Option.toList_none, nil_append, getElem?_cons_zero,
        if_neg (h.upper x mem_cons_self).ne', Option.elim_none]

theorem filter_ne : (before ++ (mid.toList ++ after)).filter (key · ≠ k) = before ++ after := by
  have hmid : mid.toList.filter (key · ≠ k) = [] := by
    apply filter_eq_nil_iff.2
    intro x hx hne
    exact of_decide_eq_true hne (h.here x (Option.mem_toList.1 hx))
  rw [filter_append, filter_append, hmid, nil_append,
    filter_eq_self.2 fun x hx => decide_eq_true (h.lower x hx).ne,
    filter_eq_self.2 fun x hx => decide_eq_true (h.upper x hx).ne']

theorem findIdx_later : (before ++ after).findIdx (k < key ·) = before.length := by
  have hpass : before.findIdx (k < key ·) = before.length :=
    findIdx_eq_length_of_false fun x hx => decide_eq_false (h.lower x hx).not_gt
  rw [findIdx_append, if_neg (by rw [hpass]; exact lt_irrefl _)]
  cases after with
  | nil => rw [findIdx_nil, Nat.zero_add]
  | cons x after =>
    rw [findIdx_cons, decide_eq_true (h.upper x mem_cons_self), cond_true, Nat.zero_add]

theorem findIdx?_key : (before ++ (mid.toList ++ after)).findIdx? (key · = k) =
    mid.map fun _ => before.length := by
  rw [findIdx?_append, findIdx?_append,
    findIdx?_eq_none_iff.2 fun x hx => decide_eq_false (h.lower x hx).ne,
    findIdx?_eq_none_iff.2 fun x hx => decide_eq_false (h.upper x hx).ne']
  cases mid with
  | none => rfl
  | some x =>
    rw [Option.toList_some, findIdx?_cons, decide_eq_true (h.here x rfl), if_pos rfl]
    exact congrArg some (Nat.zero_add _)

end IsCut

theorem insertIdx_length_append (before after : List α) (y : α) :
    (before ++ after).insertIdx before.length y = before ++ y :: after := by
  induction before with
  | nil => rw [nil_append, length_nil, insertIdx_zero, nil_append]
  | cons x before ih =>
    rw [cons_append, length_cons, insertIdx_succ_cons, ih, cons_append]

theorem binarySearchBy_getElem? (h : binarySearchBy key k xs = .ok found) :
    xs[found.1]? = some found.2 := by
  simp only [binarySearchBy] at h
  split at h
  · split at h
    · cases h
      assumption
    · cases h
  · cases h

section Edit
variable {xs : List α} (hs : SortedBy key xs)
include hs

theorem binarySearchBy_ok (h : binarySearchBy key k xs = .ok (index, x)) :
    key x = k ∧ lookupBy key k xs = some x ∧ (∀ y, xs.set index y = putBy key k (some y) xs) ∧
      xs.eraseIdx index = putBy key k none xs := by
  obtain ⟨before, mid, after, hcut, rfl⟩ := exists_cut hs k
  rw [hcut.search] at h
  cases mid with
  | none => cases h
  | some x =>
    cases h
    have hx : key x = k := hcut.here x rfl
    refine ⟨hx, ?_, ?_, ?_⟩
    · apply (lookupBy_eq_some hs).2
      refine ⟨?_, hx⟩
      exact mem_append_right _ (mem_append_left _ (mem_singleton.2 rfl))
    · intro y
      rw [hcut.putBy, set_append_right _ _ le_rfl, Nat.sub_self]
      rfl
    · rw [hcut.putBy, eraseIdx_append_of_length_le le_rfl, Nat.sub_self]
      rfl

theorem binarySearchBy_error (h : binarySearchBy key k xs = .error index) :
    lookupBy key k xs = none ∧ (∀ y, xs.insertIdx index y = putBy key k (some y) xs) ∧
      putBy key k none xs = xs := by
  obtain ⟨before, mid, after, hcut, rfl⟩ := exists_cut hs k
  rw [hcut.search] at h
  cases mid with
  | some x => cases h
  | none =>
    cases h
    refine ⟨?_, ?_, hcut.putBy none⟩
    · rw [lookupBy, find?_eq_none]
      intro x hx hk
      rw [Option.toList_none, nil_append] at hx
      have hkey : key x = k := of_decide_eq_true hk
      rcases mem_append.1 hx with hx | hx
      · exact (hcut.lower x hx).ne hkey
      · exact (hcut.upper x hx).ne' hkey
    · intro y
      rw [hcut.putBy, Option.toList_none, nil_append, insertIdx_length_append]
      rfl

theorem findIdx?_eq_search (k : κ) :
    xs.findIdx? (key · = k) = (binarySearchBy key k xs).toOption.map Prod.fst := by
  obtain ⟨before, mid, after, hcut, rfl⟩ := exists_cut hs k
  rw [hcut.findIdx?_key, hcut.search]
  cases mid <;> rfl

theorem filter_key_ne (k : κ) : xs.filter (key · ≠ k) = putBy key k none xs := by
  obtain ⟨before, mid, after, hcut, rfl⟩ := exists_cut hs k
  rw [hcut.filter_ne, hcut.putBy]
  rfl

theorem eraseIdx_findIdx? (k : κ) :
    ((xs.findIdx? (key · = k)).elim xs xs.eraseIdx) = putBy key k none xs := by
  rw [findIdx?_eq_search hs]
  cases h : binarySearchBy key k xs with
  | ok found => exact (binarySearchBy_ok hs h).2.2.2
  | error index => exact (binarySearchBy_error hs h).2.2.symm

theorem insertIdx_putBy_none (k : κ) (y : α) : (putBy key k none xs).insertIdx
    ((putBy key k none xs).findIdx (k < key ·)) y = putBy key k (some y) xs := by
  obtain ⟨before, mid, after, hcut, rfl⟩ := exists_cut hs k
  rw [hcut.putBy, hcut.putBy, Option.toList_none, nil_append, hcut.findIdx_later,
    insertIdx_length_append]
  rfl

theorem lookupBy_putBy (ho : ∀ x ∈ o, key x = k) (k' : κ) :
    lookupBy key k' (putBy key k o xs) = if k' = k then o else lookupBy key k' xs := by
  apply Option.ext
  intro x
  rw [lookupBy_eq_some (putBy_sorted hs ho), mem_putBy]
  split
  · rename_i heq
    subst heq
    constructor
    · rintro ⟨hx | ⟨_, hne⟩, hk⟩
      · exact hx
      · exact absurd hk hne
    · intro hx
      exact ⟨.inl hx, ho x hx⟩
  · rename_i hne
    rw [lookupBy_eq_some hs]
    constructor
    · rintro ⟨hx | ⟨hx, _⟩, hk⟩
      · exact absurd (hk.symm.trans (ho x hx)) hne
      · exact ⟨hx, hk⟩
    · rintro ⟨hx, rfl⟩
      exact ⟨.inr ⟨hx, hne⟩, rfl⟩

end Edit

theorem putBy_map (f : β → α) (k : κ) (o : Option β) (ys : List β) :
    (putBy (fun y => key (f y)) k o ys).map f = putBy key k (o.map f) (ys.map f) := by
  rw [putBy, putBy, map_append, map_append, filter_map, filter_map,
    Option.toList_map]
  rfl

theorem putBy_map_of (hf : ∀ x, key (f x) = key x) (k : κ) (o : Option α) (xs : List α) :
    (putBy key k o xs).map f = putBy key k (o.map f) (xs.map f) := by
  have hkey : (fun x => key (f x)) = key := funext hf
  rw [← putBy_map, hkey]

theorem putBy_filterMap [DecidableEq κ] (hks : SortedBy id ks) (hf : ∀ k, ∀ x ∈ f k, key x = k)
    (ho : ∀ x ∈ o, key x = k) (hk : k ∈ ks) :
    putBy key k o (ks.filterMap f) = ks.filterMap (Function.update f k o) := by
  have hsorted : ∀ g : κ → Option α, (∀ k, ∀ x ∈ g k, key x = k) → SortedBy key (ks.filterMap g) := by
    intro g hg
    apply List.Pairwise.filterMap _ _ hks
    intro a b hab x hx y hy
    rw [hg a x hx, hg b y hy]
    exact hab
  have hupdate : ∀ k', ∀ x ∈ Function.update f k o k', key x = k' := by
    intro k' x hx
    by_cases heq : k' = k
    · subst heq
      rw [Function.update_self] at hx
      exact ho x hx
    · rw [Function.update_of_ne heq] at hx
      exact hf k' x hx
  apply sortedBy_ext_mem (putBy_sorted (hsorted f hf) ho) (hsorted _ hupdate)
  intro x
  simp only [mem_putBy, mem_filterMap]
  constructor
  · intro hx
    rcases hx with hx | ⟨⟨k', hk', hx⟩, hne⟩
    · exact ⟨k, hk, by rwa [Function.update_self]⟩
    · refine ⟨k', hk', ?_⟩
      rwa [Function.update_of_ne]
      rw [← hf k' x hx]
      exact hne
  · intro ⟨k', hk', hx⟩
    by_cases heq : k' = k
    · subst heq
      rw [Function.update_self] at hx
      exact .inl hx
    · rw [Function.update_of_ne heq] at hx
      refine .inr ⟨⟨k', hk', hx⟩, ?_⟩
      rw [hf k' x hx]
      exact heq

end Put

@[ext] structure SortedMap (κ ν : Type) [LinearOrder κ] where
  entries : List (κ × ν)
  sorted : SortedBy Prod.fst entries

namespace SortedMap
variable {κ ν : Type} [LinearOrder κ]

def empty : SortedMap κ ν := ⟨[], List.Pairwise.nil⟩

def get (m : SortedMap κ ν) (k : κ) : Option ν := (lookupBy Prod.fst k m.entries).map Prod.snd

def put (m : SortedMap κ ν) (k : κ) (o : Option ν) : SortedMap κ ν where
  entries := putBy Prod.fst k (o.map (k, ·)) m.entries
  sorted := by
    apply putBy_sorted m.sorted
    intro x hx
    obtain ⟨v, _, rfl⟩ := Option.mem_map.1 hx
    rfl

def restrict (m : SortedMap κ ν) (p : κ → Bool) : SortedMap κ ν where
  entries := m.entries.filter (p ·.1)
  sorted := sortedBy_filter m.sorted _

variable {m : SortedMap κ ν}

theorem get_eq_some : m.get k = some v ↔ (k, v) ∈ m.entries := by
  simp only [get, Option.map_eq_some_iff, lookupBy_eq_some m.sorted]
  constructor
  · intro ⟨x, ⟨hx, hk⟩, hv⟩
    exact hk ▸ hv ▸ hx
  · intro h
    exact ⟨(k, v), ⟨h, rfl⟩, rfl⟩

theorem ext_get (h : ∀ k, m.get k = m'.get k) : m = m' := by
  apply SortedMap.ext
  apply sortedBy_ext_mem m.sorted m'.sorted
  intro x
  rw [← get_eq_some, ← get_eq_some, h]

theorem sortBy_of_perm (h : xs.Perm m.entries) :
    sortBy Prod.fst xs = m.entries := by
  have hnodup : (xs.map Prod.fst).Nodup := by
    apply (h.map Prod.fst).nodup_iff.2
    exact sortedBy_nodup m.sorted
  apply sortedBy_ext_mem (sortBy_sorted hnodup) m.sorted
  intro x
  rw [mem_sortBy, h.mem_iff]

theorem mem_put : (k', v) ∈ (m.put k o).entries ↔ (k' = k ∧ o = some v) ∨ k' ≠ k ∧ (k', v) ∈ m.entries := by
  change (k', v) ∈ putBy Prod.fst k (o.map (k, ·)) m.entries ↔ _
  rw [mem_putBy, Option.mem_map]
  simp only [Option.mem_def, Prod.mk.injEq]
  constructor
  · intro h
    rcases h with ⟨a, ho, hk, rfl⟩ | ⟨hmem, hne⟩
    · exact .inl ⟨hk.symm, ho⟩
    · exact .inr ⟨hne, hmem⟩
  · intro h
    rcases h with ⟨rfl, ho⟩ | ⟨hne, hmem⟩
    · exact .inl ⟨v, ho, rfl, rfl⟩
    · exact .inr ⟨hmem, hne⟩

section
variable (m : SortedMap κ ν)

theorem length_put_le (k : κ) (o : Option ν) :
    (m.put k o).entries.length ≤ m.entries.length + 1 :=
  length_putBy_le k _ _

theorem get_put (k : κ) (o : Option ν) (k' : κ) :
    (m.put k o).get k' = if k' = k then o else m.get k' := by
  apply Option.ext
  intro v
  rw [get_eq_some, mem_put]
  split
  · rename_i h
    simp only [h, true_and, ne_eq, not_true_eq_false, false_and, or_false]
  · rename_i h
    simp only [h, false_and, ne_eq, not_false_eq_true, true_and, false_or, get_eq_some]

theorem put_get (k : κ) : m.put k (m.get k) = m := by
  apply ext_get
  intro k'
  rw [get_put]
  split
  · rename_i h
    rw [h]
  · rfl

theorem get_restrict (p : κ → Bool) (k : κ) :
    (m.restrict p).get k = if p k then m.get k else none := by
  apply Option.ext
  intro v
  rw [get_eq_some]
  change (k, v) ∈ m.entries.filter (p ·.1) ↔ _
  rw [mem_filter, ← get_eq_some]
  split
  · rename_i h
    simp only [h, and_true]
  · rename_i h
    simp only [h, and_false, reduceCtorEq, Bool.false_eq_true]

theorem restrict_put (p : κ → Bool) (k : κ) (o : Option ν) :
    (m.put k o).restrict p = if p k then (m.restrict p).put k o else m.restrict p := by
  apply ext_get
  intro k'
  split
  · rename_i h
    rw [get_restrict, get_put, get_put, get_restrict]
    by_cases heq : k' = k
    · rw [heq, if_pos h, if_pos rfl, if_pos rfl]
    · rw [if_neg heq, if_neg heq]
  · rename_i h
    rw [get_restrict, get_put, get_restrict]
    by_cases heq : k' = k
    · rw [heq, if_neg h, if_neg h]
    · rw [if_neg heq]

end

end SortedMap

end Heddle.Lib
