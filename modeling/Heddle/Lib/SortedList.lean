import Mathlib.Data.Nat.Bitwise
import Mathlib.Data.List.Sort
import Mathlib.Order.Defs.LinearOrder

namespace Heddle.Lib
open List

section SortedList
variable [LinearOrder κ] (key : α → κ)

def SortedBy (xs : List α) : Prop := xs.Pairwise (fun a b => key a < key b)

def upsertBy (k : κ) (update : Option α → α) : List α → List α
  | [] => [update none]
  | x :: xs =>
    if key x = k then update (some x) :: xs
    else if k < key x then update none :: x :: xs
    else x :: upsertBy k update xs

def lookupBy (k : κ) (xs : List α) : Option α := xs.find? (fun x => key x = k)

def sortBy (xs : List α) : List α := xs.insertionSort (fun a b => key a ≤ key b)

variable {key}

theorem sortedBy_cons :
    SortedBy key (x :: xs) ↔ (∀ y ∈ xs, key x < key y) ∧ SortedBy key xs :=
  pairwise_cons

theorem sortedBy_nodup (h : SortedBy key xs) : (xs.map key).Nodup :=
  pairwise_map.2 (h.imp ne_of_lt)

theorem nodup_of_sorted (h : SortedBy key xs) : xs.Nodup := (sortedBy_nodup h).of_map key

theorem lookupBy_eq_some {xs : List α} (hs : SortedBy key xs) :
    lookupBy key k xs = some x ↔ x ∈ xs ∧ key x = k := by
  unfold lookupBy
  induction xs with
  | nil => simp only [find?_nil, reduceCtorEq, not_mem_nil, false_and]
  | cons y ys ih =>
    obtain ⟨hy, hys⟩ := sortedBy_cons.1 hs
    rw [find?_cons]
    by_cases hk : key y = k
    · rw [decide_eq_true hk, Option.some.injEq, mem_cons]
      constructor
      · intro hxy
        exact ⟨.inl hxy.symm, hxy ▸ hk⟩
      · intro hx
        rcases hx.1 with hxy | hmem
        · exact hxy.symm
        · exact absurd (hk.trans hx.2.symm) (hy x hmem).ne
    · rw [decide_eq_false hk, ih hys, mem_cons]
      constructor
      · intro hx
        exact ⟨.inr hx.1, hx.2⟩
      · intro hx
        rcases hx.1 with hxy | hmem
        · exact absurd (hxy ▸ hx.2) hk
        · exact ⟨hmem, hx.2⟩

theorem sortedBy_ext_mem (hx : SortedBy key xs) (hy : SortedBy key ys) (h : ∀ a, a ∈ xs ↔ a ∈ ys) :
    xs = ys := by
  have hasymm : Std.Asymm (fun a b : α => key a < key b) := ⟨fun _ _ hab => hab.asymm⟩
  have hirrefl : Std.Irrefl (fun a b : α => key a < key b) := ⟨fun _ => lt_irrefl _⟩
  exact List.Pairwise.eq_of_mem_iff hx hy h

theorem sortedBy_ext (hx : SortedBy key xs) (hy : SortedBy key ys)
    (h : ∀ k, lookupBy key k xs = lookupBy key k ys) : xs = ys := by
  apply sortedBy_ext_mem hx hy
  intro a
  have hiff := congrArg (fun o => o = some a) (h (key a))
  simp only [eq_iff_iff, lookupBy_eq_some hx, lookupBy_eq_some hy, and_true] at hiff
  exact hiff

theorem mem_of_lookupBy (h : lookupBy key k xs = some x) : x ∈ xs :=
  mem_of_find?_eq_some h

theorem lookupBy_isSome : (lookupBy key k xs).isSome ↔ k ∈ xs.map key := by
  unfold lookupBy
  rw [find?_isSome, mem_map]
  simp only [decide_eq_true_eq]

theorem sortedBy_map_key (h : SortedBy key xs) : SortedBy id (xs.map key) :=
  pairwise_map.2 h

theorem lookupBy_map (hf : ∀ x, key (f x) = key x) :
    lookupBy key k (xs.map f) = (lookupBy key k xs).map f := by
  unfold lookupBy
  rw [find?_map]
  congr 2
  funext x
  rw [Function.comp_apply, hf]

theorem sortedBy_map (hf : ∀ x, key (f x) = key x) (h : SortedBy key xs) :
    SortedBy key (xs.map f) := by
  apply pairwise_map.2
  apply h.imp
  intro a b hab
  rw [hf, hf]
  exact hab

theorem lookupBy_key (h : lookupBy key k xs = some x) : key x = k := by
  unfold lookupBy at h
  have hx := find?_some h
  exact of_decide_eq_true hx

theorem lookupBy_eq_some_of_nodup (h : (xs.map key).Nodup) :
    lookupBy key k xs = some x ↔ x ∈ xs ∧ key x = k := by
  refine ⟨fun hx => ⟨mem_of_lookupBy hx, lookupBy_key hx⟩, ?_⟩
  rintro ⟨hx, rfl⟩
  have hsome : (lookupBy key (key x) xs).isSome := lookupBy_isSome.2 (mem_map_of_mem hx)
  obtain ⟨y, hy⟩ := Option.isSome_iff_exists.1 hsome
  rw [hy, inj_on_of_nodup_map h (mem_of_lookupBy hy) hx (lookupBy_key hy)]

theorem mem_upsertBy (h : y ∈ upsertBy key k update xs) :
    y ∈ xs ∨ ∃ o, y = update o ∧ ∀ x ∈ o, x ∈ xs ∧ key x = k := by
  induction xs with
  | nil => exact .inr ⟨none, mem_singleton.1 h, fun _ hx => absurd hx (Option.not_mem_none _)⟩
  | cons x xs ih =>
    unfold upsertBy at h
    split at h
    · rename_i hk
      rcases mem_cons.1 h with hy | hy
      · apply Or.inr
        refine ⟨some x, hy, fun z hz => ?_⟩
        cases hz
        exact ⟨mem_cons_self, hk⟩
      · exact .inl (mem_cons_of_mem _ hy)
    · split at h
      · rcases mem_cons.1 h with hy | hy
        · exact .inr ⟨none, hy, fun _ hx => absurd hx (Option.not_mem_none _)⟩
        · exact .inl hy
      · rcases mem_cons.1 h with hy | hy
        · exact .inl (hy ▸ mem_cons_self)
        · rcases ih hy with hmem | ⟨o, ho, hfound⟩
          · exact .inl (mem_cons_of_mem _ hmem)
          · exact .inr ⟨o, ho, fun z hz => ⟨mem_cons_of_mem _ (hfound z hz).1, (hfound z hz).2⟩⟩

theorem upsertBy_sorted (hkey : ∀ o, (∀ x ∈ o, key x = k) → key (update o) = k)
    (hs : SortedBy key xs) :
    SortedBy key (upsertBy key k update xs) := by
  induction xs with
  | nil => exact pairwise_singleton _ _
  | cons x xs ih =>
    obtain ⟨hx, hxs⟩ := sortedBy_cons.1 hs
    have hnew : key (update none) = k := hkey none fun _ hx => absurd hx (Option.not_mem_none _)
    unfold upsertBy
    split
    · rename_i hk
      have hsome : key (update (some x)) = k := hkey (some x) fun z hz => Option.some.inj hz ▸ hk
      exact sortedBy_cons.2 ⟨fun y hy => hsome ▸ hk ▸ hx y hy, hxs⟩
    · split
      · rename_i hlt
        apply sortedBy_cons.2
        refine ⟨fun y hy => ?_, hs⟩
        rw [hnew]
        rcases mem_cons.1 hy with hy | hy
        · exact hy ▸ hlt
        · exact hlt.trans (hx y hy)
      · rename_i hne hge
        apply sortedBy_cons.2
        refine ⟨fun y hy => ?_, ih hxs⟩
        rcases mem_upsertBy hy with hy | ⟨o, hyo, ho⟩
        · exact hx y hy
        · rw [hyo, hkey o fun z hz => (ho z hz).2]
          exact lt_of_le_of_ne (not_lt.1 hge) hne

theorem lookupBy_upsertBy (hkey : ∀ o, (∀ x ∈ o, key x = k) → key (update o) = k)
    (hs : SortedBy key xs) (k' : κ) :
    lookupBy key k' (upsertBy key k update xs) =
      if k' = k then some (update (lookupBy key k xs)) else lookupBy key k' xs := by
  have hnew : key (update none) = k := hkey none fun _ hx => absurd hx (Option.not_mem_none _)
  unfold lookupBy
  induction xs with
  | nil =>
    unfold upsertBy
    rw [find?_cons, find?_nil, find?_nil, hnew]
    by_cases hk' : k' = k
    · rw [if_pos hk', decide_eq_true hk'.symm]
    · rw [if_neg hk', decide_eq_false (Ne.symm hk')]
  | cons x xs ih =>
    obtain ⟨hx, hxs⟩ := sortedBy_cons.1 hs
    unfold upsertBy
    by_cases hk : key x = k
    · have hsome : key (update (some x)) = k := hkey (some x) fun z hz => Option.some.inj hz ▸ hk
      rw [if_pos hk, find?_cons, find?_cons, find?_cons, hsome, hk]
      by_cases hk' : k' = k
      · rw [if_pos hk', decide_eq_true hk'.symm, decide_eq_true rfl]
      · rw [if_neg hk', decide_eq_false (Ne.symm hk')]
    · rw [if_neg hk]
      by_cases hlt : k < key x
      · have hnone : (x :: xs).find? (fun y => key y = k) = none := by
          apply find?_eq_none.2
          intro y hy
          have hlty : k < key y := by
            rcases mem_cons.1 hy with hy | hy
            · exact hy ▸ hlt
            · exact hlt.trans (hx y hy)
          exact fun h => absurd (of_decide_eq_true h) hlty.ne'
        rw [if_pos hlt, hnone, find?_cons, hnew]
        by_cases hk' : k' = k
        · rw [if_pos hk', decide_eq_true hk'.symm]
        · rw [if_neg hk', decide_eq_false (Ne.symm hk')]
      · rw [if_neg hlt, find?_cons, find?_cons, find?_cons, decide_eq_false hk, ih hxs]
        by_cases hk' : k' = k
        · rw [if_pos hk', if_pos hk', hk', decide_eq_false hk]
        · rw [if_neg hk', if_neg hk']

theorem lookupBy_filter_ne (k k' : κ) (xs : List α) :
    lookupBy key k' (xs.filter (fun x => key x ≠ k)) =
      if k' = k then none else lookupBy key k' xs := by
  unfold lookupBy
  rw [find?_filter]
  by_cases hk : k' = k
  · rw [if_pos hk]
    apply find?_eq_none.2
    intro x _
    simp only [ne_eq, decide_not, Bool.not_eq_true', decide_eq_false_iff_not, decide_eq_true_eq,
      not_and]
    intro hne hx
    exact hne (hx.trans hk)
  · rw [if_neg hk]
    congr 1
    funext x
    by_cases hx : key x = k'
    · simp only [hx, hk, ne_eq, not_false_eq_true, decide_true, and_self]
    · simp only [hx, decide_false, Bool.false_eq_true, and_false]

theorem sortedBy_filter (hs : SortedBy key xs) (p : α → Bool) :
    SortedBy key (xs.filter p) :=
  List.Pairwise.filter p hs

theorem mem_sortBy : x ∈ sortBy key xs ↔ x ∈ xs :=
  mem_insertionSort _

theorem sortBy_sorted (h : (xs.map key).Nodup) : SortedBy key (sortBy key xs) := by
  have htotal : Std.Total (fun a b : α => key a ≤ key b) := ⟨fun a b => le_total (key a) (key b)⟩
  have htrans : IsTrans α (fun a b : α => key a ≤ key b) := ⟨fun _ _ _ => le_trans⟩
  have hle : (sortBy key xs).Pairwise (fun a b => key a ≤ key b) :=
    pairwise_insertionSort _ xs
  have hne : ((sortBy key xs).map key).Nodup :=
    ((perm_insertionSort _ xs).map key).nodup_iff.2 h
  exact (hle.and (pairwise_map.1 hne)).imp fun h => lt_of_le_of_ne h.1 h.2

theorem sortBy_append (hkeys : ((xs ++ ys).map key).Nodup)
    (hle : ∀ x ∈ xs, ∀ y ∈ ys, key x ≤ key y) :
    sortBy key (xs ++ ys) = sortBy key xs ++ sortBy key ys := by
  have hsplit := hkeys
  rw [map_append, nodup_append] at hsplit
  have hsorted : SortedBy key (sortBy key xs ++ sortBy key ys) := by
    apply pairwise_append.2
    refine ⟨sortBy_sorted hsplit.1, sortBy_sorted hsplit.2.1, ?_⟩
    intro x hx y hy
    rw [mem_sortBy] at hx hy
    apply lt_of_le_of_ne (hle x hx y hy)
    exact hsplit.2.2 _ (mem_map_of_mem hx) _ (mem_map_of_mem hy)
  apply sortedBy_ext_mem (sortBy_sorted hkeys) hsorted
  intro a
  rw [mem_sortBy, mem_append, mem_append, mem_sortBy, mem_sortBy]

theorem lookupBy_sortBy (h : (xs.map key).Nodup) :
    lookupBy key k (sortBy key xs) = some x ↔ x ∈ xs ∧ key x = k := by
  rw [lookupBy_eq_some (sortBy_sorted h), mem_sortBy]

end SortedList

section Sorting
variable {r s : α → α → Prop} [DecidableRel r] [DecidableRel s]

theorem orderedInsert_congr {xs : List α} (h : ∀ b ∈ xs, r a b ↔ s a b) :
    xs.orderedInsert r a = xs.orderedInsert s a := by
  induction xs with
  | nil => rfl
  | cons x xs ih =>
    have hhead := h x mem_cons_self
    rw [List.orderedInsert, List.orderedInsert, ih fun b hb => h b (mem_cons_of_mem _ hb)]
    simp only [hhead]

theorem insertionSort_congr {xs : List α} (h : ∀ a ∈ xs, ∀ b ∈ xs, r a b ↔ s a b) :
    xs.insertionSort r = xs.insertionSort s := by
  induction xs with
  | nil => rfl
  | cons x xs ih =>
    have htail : xs.insertionSort r = xs.insertionSort s := ih fun a ha b hb =>
      h a (mem_cons_of_mem _ ha) b (mem_cons_of_mem _ hb)
    rw [insertionSort_cons, insertionSort_cons, htail]
    apply orderedInsert_congr
    intro b hb
    exact h x mem_cons_self b (mem_cons_of_mem _ ((mem_insertionSort s).1 hb))

theorem insertionSort_of_perm [Std.Total s] [IsTrans α s] {xs ys : List α}
    (hanti : ∀ a b, a ∈ ys → b ∈ ys → s a b → s b a → a = b) (hperm : xs.Perm ys)
    (hsorted : ys.Pairwise s) : xs.insertionSort s = ys := by
  have hsame := (perm_insertionSort s xs).trans hperm
  apply List.Perm.eq_of_pairwise _ (pairwise_insertionSort s xs) hsorted hsame
  intro a b ha hb
  exact hanti a b (hsame.mem_iff.1 ha) hb

end Sorting

def bitmap (slots : List Nat) : Nat := slots.foldl (fun bits slot => bits ||| 1 <<< slot) 0

theorem testBit_bitmap (slots : List Nat) (slot : Nat) :
    (bitmap slots).testBit slot = decide (slot ∈ slots) := by
  have hfold : ∀ bits, (slots.foldl (fun bits slot => bits ||| 1 <<< slot) bits).testBit slot =
      (bits.testBit slot || decide (slot ∈ slots)) := by
    induction slots with
    | nil => simp only [foldl_nil, not_mem_nil, decide_false, Bool.or_false, implies_true]
    | cons first slots ih =>
      intro bits
      rw [foldl_cons, ih, Nat.testBit_or, Nat.one_shiftLeft, Nat.testBit_two_pow, Bool.or_assoc]
      congr 1
      simp only [mem_cons, Bool.decide_or, eq_comm]
  rw [bitmap, hfold, Nat.zero_testBit, Bool.false_or]

theorem bitmap_lt (h : ∀ slot ∈ slots, slot < width) :
    bitmap slots < 2 ^ width := by
  apply Nat.lt_pow_two_of_testBit
  intro i hi
  rw [testBit_bitmap, decide_eq_false_iff_not]
  exact fun hmem => (h i hmem).not_ge hi

theorem range_sorted (width : Nat) : SortedBy id (List.range width) := pairwise_lt_range

/-- A bitmap and the ascending list of the slots it takes determine each other. -/
theorem slots_eq_filter_iff (hbits : bits < 2 ^ width) :
    slots = (List.range width).filter bits.testBit ↔
      SortedBy id slots ∧ (∀ slot ∈ slots, slot < width) ∧ bits = bitmap slots := by
  constructor
  · intro h
    have hmem : ∀ slot, slot ∈ slots ↔ slot < width ∧ bits.testBit slot = true := by
      intro slot
      rw [h, mem_filter, mem_range]
    refine ⟨h ▸ sortedBy_filter (range_sorted width) _, fun slot hslot => ((hmem slot).1 hslot).1, ?_⟩
    apply Nat.eq_of_testBit_eq
    intro slot
    rw [testBit_bitmap, Bool.eq_iff_iff, decide_eq_true_eq, hmem]
    refine ⟨fun hbit => ⟨?_, hbit⟩, fun hbit => hbit.2⟩
    by_contra hge
    rw [Nat.testBit_lt_two_pow
      (hbits.trans_le (Nat.pow_le_pow_right Nat.two_pos (Nat.not_lt.1 hge)))] at hbit
    cases hbit
  · rintro ⟨hsorted, hlt, rfl⟩
    apply sortedBy_ext_mem hsorted (sortedBy_filter (range_sorted width) _)
    intro slot
    rw [mem_filter, mem_range, testBit_bitmap, decide_eq_true_eq]
    exact ⟨fun hmem => ⟨hlt slot hmem, hmem⟩, And.right⟩

theorem slots_ne_nil (hbits : bits < 2 ^ width) (hzero : bits ≠ 0) :
    (List.range width).filter bits.testBit ≠ [] := by
  intro hnil
  obtain ⟨_, _, hbitmap⟩ := (slots_eq_filter_iff hbits).1 hnil.symm
  exact hzero hbitmap

theorem mem_takeWhile_of_sorted [LinearOrder α] {p : α → Bool} {xs : List α}
    (hs : xs.Pairwise (· < ·)) :
    x ∈ xs.takeWhile p ↔ x ∈ xs ∧ ∀ y ∈ xs, y ≤ x → p y := by
  induction xs with
  | nil => simp only [takeWhile_nil, not_mem_nil, false_and]
  | cons a xs ih =>
    obtain ⟨ha, hs⟩ := pairwise_cons.1 hs
    by_cases hp : p a
    · rw [takeWhile_cons_of_pos hp, mem_cons, ih hs, mem_cons]
      constructor
      · intro h
        rcases h with rfl | ⟨hmem, hall⟩
        · refine ⟨.inl rfl, fun y hy hle => ?_⟩
          rcases mem_cons.1 hy with rfl | hy
          · exact hp
          · exact absurd (ha y hy) (not_lt_of_ge hle)
        · refine ⟨.inr hmem, fun y hy hle => ?_⟩
          rcases mem_cons.1 hy with rfl | hy
          · exact hp
          · exact hall y hy hle
      · intro h
        obtain ⟨hmem, hall⟩ := h
        exact hmem.imp_right fun hmem => ⟨hmem, fun y hy => hall y (mem_cons_of_mem a hy)⟩
    · rw [takeWhile_cons_of_neg hp]
      refine ⟨fun h => absurd h not_mem_nil, fun h => ?_⟩
      obtain ⟨hmem, hall⟩ := h
      refine absurd (hall a mem_cons_self ?_) hp
      rcases mem_cons.1 hmem with rfl | hmem
      · exact le_rfl
      · exact (ha x hmem).le

end Heddle.Lib
