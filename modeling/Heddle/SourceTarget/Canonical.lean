import Heddle.SourceTarget.NodeCodec
import Mathlib.Algebra.Group.Action.Defs

namespace Heddle.SourceTarget
open Heddle.Lib List

abbrev Bindings := SortedMap ContentHash ContentHash

def Bindings.under (m : Bindings) (depth slot : Nat) : Bindings :=
  m.restrict fun key => group key depth = slot

section Canonical
variable (blake3 : Bytes → ContentHash)

def linkOf (node : Node) (m : Bindings) : Option Link :=
  if m.entries = [] then none else some ⟨blobHash blake3 node.encode, m.entries.length⟩

def canonNode : Nat → Nat → Bindings → Node
  | 0, _, m => .leaf m.entries
  | below + 1, depth, m =>
    if m.entries.length ≤ leafEntries then .leaf m.entries
    else .branch depth ((List.range 32).filterMap fun slot =>
      (linkOf blake3 (canonNode below (depth + 1) (m.under depth slot)) (m.under depth slot)).map
        (Child.mk slot))

def canonLink (below depth : Nat) (m : Bindings) : Option Link :=
  linkOf blake3 (canonNode blake3 below depth m) m

def canonChild (below depth : Nat) (m : Bindings) (slot : Nat) : Option Child :=
  (canonLink blake3 below (depth + 1) (m.under depth slot)).map (Child.mk slot)

def canonChildren (below depth : Nat) (m : Bindings) : List Child :=
  (List.range 32).filterMap (canonChild blake3 below depth m)

def canonRoot (m : Bindings) : Option ContentHash := (canonLink blake3 levels 0 m).map Link.hash

theorem canonNode_large (h : leafEntries < m.entries.length) : canonNode blake3 (below + 1) depth m =
    .branch depth (canonChildren blake3 below depth m) := by
  rw [canonNode, if_neg (Nat.not_le.2 h)]
  rfl

theorem canonNode_small (below depth : Nat) (h : m.entries.length ≤ leafEntries) :
    canonNode blake3 below depth m = .leaf m.entries := by
  cases below with
  | zero => rfl
  | succ below => rw [canonNode, if_pos h]

theorem canonLink_eq_none : canonLink blake3 below depth m = none ↔ m.entries = [] := by
  rw [canonLink, linkOf]
  split
  · rename_i h
    exact ⟨fun _ => h, fun _ => rfl⟩
  · rename_i h
    exact ⟨nofun, fun hnil => absurd hnil h⟩

theorem canonLink_of_ne (h : m.entries ≠ []) : canonLink blake3 below depth m =
    some ⟨blobHash blake3 (canonNode blake3 below depth m).encode, m.entries.length⟩ :=
  if_neg h

end Canonical

section Partition

theorem flatMap_filter_perm {f : α → Nat} (h : ∀ x ∈ xs, f x < n) :
    ((List.range n).flatMap fun c => xs.filter (f · = c)).Perm xs := by
  induction n generalizing xs with
  | zero =>
    cases xs with
    | nil => exact .refl _
    | cons x xs => exact absurd (h x mem_cons_self) (Nat.not_lt_zero _)
  | succ n ih =>
    rw [range_succ, flatMap_append, flatMap_singleton]
    have hlow : ((List.range n).flatMap fun c => xs.filter (f · = c)) =
        (List.range n).flatMap fun c => (xs.filter (f · < n)).filter (f · = c) := by
      apply flatMap_congr
      intro c hc
      rw [filter_filter]
      apply filter_congr
      intro x _
      have hlt := mem_range.1 hc
      by_cases heq : f x = c
      · rw [heq, decide_eq_true hlt, Bool.and_true]
      · rw [decide_eq_false heq, Bool.false_and]
    have hhigh : xs.filter (f · = n) = xs.filter fun x => !decide (f x < n) := by
      apply filter_congr
      intro x hx
      have hlt := h x hx
      by_cases heq : f x = n
      · rw [heq, decide_eq_true rfl, decide_eq_false (Nat.lt_irrefl n), Bool.not_false]
      · rw [decide_eq_false heq, decide_eq_true (by omega), Bool.not_true]
    rw [hlow, hhigh]
    refine .trans (.append_right _ (ih ?_)) (filter_append_perm _ xs)
    intro x hx
    exact of_decide_eq_true (mem_filter.1 hx).2

theorem under_perm (m : Bindings) (depth : Nat) :
    ((List.range 32).flatMap fun slot => (m.under depth slot).entries).Perm m.entries :=
  flatMap_filter_perm fun entry _ => group_lt entry.1 depth

theorem sum_under (m : Bindings) (depth : Nat) :
    ((List.range 32).map fun slot => (m.under depth slot).entries.length).sum = m.entries.length := by
  rw [← (under_perm m depth).length_eq, length_flatMap]

theorem length_under_le (m : Bindings) (depth slot : Nat) :
    (m.under depth slot).entries.length ≤ m.entries.length :=
  length_filter_le _ _

end Partition

section Count

theorem count_branch (depth : Nat) (children : List Child) :
    (Node.branch depth children).count =
      if (children.map (·.link.count)).sum < 2 ^ 64 then some (children.map (·.link.count)).sum
      else none := by
  have hfold : ∀ total < 2 ^ 64,
      children.foldlM (fun total child => Node.checkedAdd total child.link.count) total =
        if total + (children.map (·.link.count)).sum < 2 ^ 64 then
          some (total + (children.map (·.link.count)).sum)
        else none := by
    induction children with
    | nil =>
      intro total htotal
      rw [foldlM_nil, map_nil, sum_nil, Nat.add_zero, if_pos htotal]
      rfl
    | cons child children ih =>
      intro total htotal
      rw [foldlM_cons, map_cons, sum_cons, ← Nat.add_assoc, Node.checkedAdd]
      by_cases hlt : total + child.link.count < 2 ^ 64
      · rw [if_pos hlt]
        exact ih _ hlt
      · rw [if_neg hlt, if_neg (by omega)]
        rfl
  rw [Node.count, hfold 0 (by decide), Nat.zero_add]

variable (blake3 : Bytes → ContentHash)

theorem canonChild_slot : ∀ slot, ∀ child ∈ canonChild blake3 below depth m slot, child.slot = slot := by
  intro slot child hchild
  obtain ⟨link, _, rfl⟩ := Option.mem_map.1 hchild
  rfl

theorem mem_canonChildren : child ∈ canonChildren blake3 below depth m ↔
    child.slot < 32 ∧
      canonLink blake3 below (depth + 1) (m.under depth child.slot) = some child.link := by
  rw [canonChildren, mem_filterMap]
  constructor
  · intro ⟨slot, hslot, hchild⟩
    obtain ⟨link, hlink, rfl⟩ := Option.mem_map.1 hchild
    exact ⟨mem_range.1 hslot, hlink⟩
  · intro ⟨hslot, hlink⟩
    exact ⟨child.slot, mem_range.2 hslot, by rw [canonChild, hlink]; rfl⟩

section
variable (below depth : Nat) (m : Bindings)

theorem canonChildren_sorted :
    SortedBy Child.slot (canonChildren blake3 below depth m) := by
  apply List.Pairwise.filterMap _ _ (range_sorted _)
  intro a b hab x hx y hy
  rw [canonChild_slot blake3 a x hx, canonChild_slot blake3 b y hy]
  exact hab

theorem sum_canonChildren :
    ((canonChildren blake3 below depth m).map (·.link.count)).sum = m.entries.length := by
  rw [← sum_under m depth, canonChildren]
  generalize List.range 32 = slots
  induction slots with
  | nil => rfl
  | cons slot slots ih =>
    rw [map_cons, sum_cons, ← ih, filterMap_cons]
    by_cases h : (m.under depth slot).entries = []
    · have hnone : canonChild blake3 below depth m slot = none := by
        rw [canonChild, (canonLink_eq_none blake3).2 h]
        rfl
      rw [hnone, h, length_nil, Nat.zero_add]
    · have hsome : ∃ hash, canonChild blake3 below depth m slot =
          some ⟨slot, hash, (m.under depth slot).entries.length⟩ := by
        rw [canonChild, canonLink_of_ne blake3 h]
        exact ⟨_, rfl⟩
      obtain ⟨hash, hsome⟩ := hsome
      rw [hsome, map_cons, sum_cons]

theorem count_canonChildren :
    (Node.branch depth (canonChildren blake3 below depth m)).count =
      if m.entries.length < 2 ^ 64 then some m.entries.length else none := by
  rw [count_branch, sum_canonChildren]

end

theorem canonChildren_eq_nil (h : canonChildren blake3 below depth m = []) : m.entries = [] := by
  have hsum := sum_canonChildren blake3 below depth m
  rw [h, map_nil, sum_nil] at hsum
  exact length_eq_zero_iff.1 hsum.symm

theorem length_canonChildren_le (below depth : Nat) (m : Bindings) :
    (canonChildren blake3 below depth m).length ≤ m.entries.length := by
  rw [← sum_canonChildren blake3 below depth m]
  have hpos : ∀ child ∈ canonChildren blake3 below depth m, 1 ≤ child.link.count := by
    intro child hchild
    have hlink := ((mem_canonChildren blake3).1 hchild).2
    have hne : (m.under depth child.slot).entries ≠ [] := by
      intro hnil
      rw [(canonLink_eq_none blake3).2 hnil] at hlink
      cases hlink
    rw [canonLink_of_ne blake3 hne, Option.some.injEq] at hlink
    rw [← hlink]
    exact length_pos_of_ne_nil hne
  generalize canonChildren blake3 below depth m = children at hpos
  induction children with
  | nil => exact le_rfl
  | cons child children ih =>
    have hone := hpos child mem_cons_self
    have hrest := ih fun c hc => hpos c (mem_cons_of_mem _ hc)
    rw [length_cons, map_cons, sum_cons]
    omega

theorem flatMap_canonChildren (below depth : Nat) (m : Bindings) :
    ((canonChildren blake3 below depth m).flatMap fun child => (m.under depth child.slot).entries).Perm
      m.entries := by
  refine .trans (.of_eq ?_) (under_perm m depth)
  rw [canonChildren]
  generalize List.range 32 = slots
  induction slots with
  | nil => rfl
  | cons slot slots ih =>
    rw [flatMap_cons, ← ih]
    by_cases h : (m.under depth slot).entries = []
    · have hnone : canonChild blake3 below depth m slot = none := by
        rw [canonChild, (canonLink_eq_none blake3).2 h]
        rfl
      rw [filterMap_cons_none hnone, h, nil_append]
    · have hsome : ∃ link, canonChild blake3 below depth m slot = some ⟨slot, link⟩ := by
        rw [canonChild, canonLink_of_ne blake3 h]
        exact ⟨_, rfl⟩
      obtain ⟨link, hsome⟩ := hsome
      rw [filterMap_cons_some hsome, flatMap_cons]

end Count

section Edit
variable (blake3 : Bytes → ContentHash)

section
variable (m : Bindings) (key : ContentHash) (value : Option ContentHash)

theorem under_put (depth slot : Nat) :
    Bindings.under (m.put key value) depth slot =
      if group key depth = slot then (m.under depth slot).put key value else m.under depth slot := by
  have hput := m.restrict_put (fun key => decide (group key depth = slot)) key value
  simp only [decide_eq_true_eq] at hput
  exact hput

theorem editEntries_put :
    match editEntries m.entries key value with
    | none => m.put key value = m
    | some edited => edited = (m.put key value).entries := by
  unfold editEntries
  cases hsearch : binarySearchBy Prod.fst key m.entries with
  | error index =>
    obtain ⟨_, hinsert, hnone⟩ := binarySearchBy_error m.sorted hsearch
    cases value with
    | none => exact SortedMap.ext hnone
    | some value => exact hinsert _
  | ok found =>
    obtain ⟨index, entry⟩ := found
    obtain ⟨hkey, hlookup, hset, herase⟩ := binarySearchBy_ok m.sorted hsearch
    cases value with
    | none => exact herase
    | some value =>
      simp only
      split
      · rename_i heq
        split at heq
        · rename_i hvalue
          have hget : m.get key = some value := by
            rw [SortedMap.get, hlookup, Option.map_some, hvalue]
          rw [← hget, m.put_get]
        · cases heq
      · rename_i edited heq
        split at heq
        · cases heq
        · cases heq
          rw [hset, hkey]
          rfl

end

theorem lookup_canonChildren (below depth : Nat) (m : Bindings) (hslot : slot < 32) :
    lookupBy Child.slot slot (canonChildren blake3 below depth m) = canonChild blake3 below depth m slot := by
  apply Option.ext
  intro child
  rw [lookupBy_eq_some (canonChildren_sorted blake3 below depth m), mem_canonChildren, canonChild, Option.map_eq_some_iff]
  constructor
  · rintro ⟨⟨_, hlink⟩, rfl⟩
    exact ⟨child.link, hlink, rfl⟩
  · rintro ⟨link, hlink, rfl⟩
    exact ⟨⟨hslot, hlink⟩, rfl⟩

theorem previousLink_canonChildren (hslot : slot < 32) :
    previousLink (canonChildren blake3 below depth m) slot =
      canonLink blake3 below (depth + 1) (m.under depth slot) := by
  have hlookup := lookup_canonChildren blake3 below depth m hslot
  rw [canonChild] at hlookup
  unfold previousLink
  cases hsearch : binarySearchBy Child.slot slot (canonChildren blake3 below depth m) with
  | error index =>
    rw [(binarySearchBy_error (canonChildren_sorted blake3 below depth m) hsearch).1] at hlookup
    exact (Option.map_eq_none_iff.1 hlookup.symm).symm
  | ok found =>
    obtain ⟨index, child⟩ := found
    rw [(binarySearchBy_ok (canonChildren_sorted blake3 below depth m) hsearch).2.1] at hlookup
    obtain ⟨link, hlink, hchild⟩ := Option.map_eq_some_iff.1 hlookup.symm
    rw [hlink, ← hchild]
    rfl

/-- An edit of the map edits one child. -/
theorem canonChildren_put (below depth : Nat) (m : Bindings) (key : ContentHash)
    (value : Option ContentHash) :
    canonChildren blake3 below depth (m.put key value) = putBy Child.slot (group key depth)
      ((canonLink blake3 below (depth + 1) ((m.under depth (group key depth)).put key value)).map
        (Child.mk (group key depth))) (canonChildren blake3 below depth m) := by
  have hslot : group key depth ∈ List.range 32 := mem_range.2 (group_lt key depth)
  rw [canonChildren, canonChildren, putBy_filterMap (range_sorted _) (canonChild_slot blake3) _ hslot]
  · congr 1
    funext slot
    rw [canonChild, under_put]
    by_cases heq : group key depth = slot
    · subst heq
      rw [if_pos rfl, Function.update_self]
    · rw [if_neg heq, Function.update_of_ne (Ne.symm heq)]
      rfl
  · intro child hchild
    obtain ⟨link, _, rfl⟩ := Option.mem_map.1 hchild
    rfl

theorem canonChildren_put_of_same
    (h : canonLink blake3 below (depth + 1) ((m.under depth (group key depth)).put key value) =
      canonLink blake3 below (depth + 1) (m.under depth (group key depth))) :
    canonChildren blake3 below depth (m.put key value) = canonChildren blake3 below depth m := by
  rw [canonChildren, canonChildren]
  congr 1
  funext slot
  rw [canonChild, canonChild, under_put]
  split
  · rename_i heq
    subst heq
    rw [h]
  · rfl

theorem editChildren_put (hs : SortedBy Child.slot children) (slot : Nat) (next : Option Link) :
    match editChildren children slot next with
    | none => next = none ∧ previousLink children slot = none
    | some edited => edited = putBy Child.slot slot (next.map (Child.mk slot)) children := by
  unfold editChildren previousLink
  cases hsearch : binarySearchBy Child.slot slot children with
  | error index =>
    obtain ⟨_, hinsert, _⟩ := binarySearchBy_error hs hsearch
    cases next with
    | none => exact ⟨rfl, rfl⟩
    | some link => exact hinsert _
  | ok found =>
    obtain ⟨index, child⟩ := found
    obtain ⟨hslot, _, hset, herase⟩ := binarySearchBy_ok hs hsearch
    cases next with
    | none => exact herase
    | some link =>
      change children.set index { child with link } = _
      rw [hset, hslot]
      rfl

end Edit

section WellFormed
variable (blake3 : Bytes → ContentHash)

/-- Every key goes along the route. -/
def Fits (route : List Nat) (m : Bindings) : Prop :=
  ∀ entry ∈ m.entries, outsideRoute route entry.1 = false

theorem Fits.under (h : Fits route m) (slot : Nat) :
    Fits (route ++ [slot]) (m.under route.length slot) := by
  intro entry hentry
  obtain ⟨hmem, hslot⟩ := mem_filter.1 hentry
  exact (outsideRoute_snoc (h entry hmem)).2 (of_decide_eq_true hslot)

theorem Fits.length_le (h : Fits route m) (hlen : route.length = levels) :
    m.entries.length ≤ 1 := by
  by_contra hgt
  have hlt : 1 < m.entries.length := Nat.not_le.1 hgt
  have hsorted := pairwise_iff_getElem.1 m.sorted 0 1 (by omega) hlt (by decide)
  have heq := eq_of_route hlen (h _ (getElem_mem (l := m.entries) (by omega : 0 < m.entries.length)))
    (h _ (getElem_mem hlt))
  exact hsorted.ne heq

theorem Fits.below_pos (h : Fits route m) (hlen : route.length + below = levels)
    (hlarge : leafEntries < m.entries.length) : below ≠ 0 := by
  intro hzero
  have hle := h.length_le (by omega)
  have hbound : leafEntries = 8 := rfl
  omega

theorem canonNode_wellFormed (hfits : Fits route m) (hlen : route.length + below = levels)
    (hne : m.entries ≠ []) (hlt : m.entries.length < 2 ^ 64) :
    (canonNode blake3 below route.length m).WellFormed route := by
  rcases Nat.lt_or_ge leafEntries m.entries.length with hlarge | hsmall
  · cases below with
    | zero => exact absurd rfl (hfits.below_pos hlen hlarge)
    | succ below =>
      rw [canonNode_large blake3 hlarge]
      have hlink : ∀ child ∈ canonChildren blake3 below route.length m,
          child.link.count = (m.under route.length child.slot).entries.length ∧
            (m.under route.length child.slot).entries ≠ [] := by
        intro child hchild
        have hlink := ((mem_canonChildren blake3).1 hchild).2
        have hne : (m.under route.length child.slot).entries ≠ [] := by
          intro hnil
          rw [(canonLink_eq_none blake3).2 hnil] at hlink
          cases hlink
        rw [canonLink_of_ne blake3 hne, Option.some.injEq] at hlink
        exact ⟨hlink ▸ rfl, hne⟩
      refine ⟨rfl, by omega, ?_, canonChildren_sorted blake3 _ _ _, ?_, ?_, m.entries.length, ?_, hlarge⟩
      · intro hnil
        have hsum := sum_canonChildren blake3 below route.length m
        rw [hnil, map_nil, sum_nil] at hsum
        exact hne (length_eq_zero_iff.1 hsum.symm)
      · intro child hchild
        exact ((mem_canonChildren blake3).1 hchild).1
      · intro child hchild
        obtain ⟨hcount, hne⟩ := hlink child hchild
        rw [hcount]
        exact ⟨length_pos_of_ne_nil hne, (length_under_le _ _ _).trans_lt hlt⟩
      · rw [count_canonChildren, if_pos hlt]
  · rw [canonNode_small blake3 _ _ hsmall]
    exact ⟨length_pos_of_ne_nil hne, hsmall, m.sorted, hfits⟩

theorem count_canonNode (hfits : Fits route m) (hlen : route.length + below = levels) :
    (canonNode blake3 below route.length m).count =
      if m.entries.length < 2 ^ 64 then some m.entries.length else none := by
  rcases Nat.lt_or_ge leafEntries m.entries.length with hlarge | hsmall
  · cases below with
    | zero => exact absurd rfl (hfits.below_pos hlen hlarge)
    | succ below => rw [canonNode_large blake3 hlarge, count_canonChildren]
  · rw [canonNode_small blake3 _ _ hsmall, if_pos (hsmall.trans_lt (by decide))]
    rfl

theorem encode_length_le {node : Node} (h : node.WellFormed route) :
    node.encode.length ≤ maxNodeBytes := by
  have hhash : ∀ hash : ContentHash, hash.asBytes.length = 32 := ContentHash.asBytes_length
  cases node with
  | leaf entries =>
    have hle : entries.length ≤ 8 := h.2.1
    have hmagic : magic.length = 5 := magic_length
    simp only [Node.encode, length_append, hmagic, length_leBytes, length_flatMap, hhash,
      map_const', sum_replicate, maxNodeBytes, smul_eq_mul]
    omega
  | branch depth children =>
    have hslots : (children.map Child.slot).length ≤ 32 := by
      have hnodup : (children.map Child.slot).Nodup := sortedBy_nodup h.2.2.2.1
      have hsub : children.map Child.slot ⊆ List.range 32 := by
        intro slot hslot
        obtain ⟨child, hchild, rfl⟩ := mem_map.1 hslot
        exact mem_range.2 (h.2.2.2.2.1 child hchild)
      have hle := (subperm_of_subset hnodup hsub).length_le
      rwa [length_range] at hle
    have hmagic : magic.length = 5 := magic_length
    rw [length_map] at hslots
    simp only [Node.encode, length_append, hmagic, length_leBytes, length_flatMap, hhash,
      map_const', sum_replicate, maxNodeBytes, smul_eq_mul]
    omega

end WellFormed

end Heddle.SourceTarget
