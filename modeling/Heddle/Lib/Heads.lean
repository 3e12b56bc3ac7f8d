import Mathlib.Data.List.Basic
import Mathlib.Data.List.Induction
import Mathlib.Order.Basic
import Mathlib.Order.Lattice

namespace Heddle.Lib
open List hiding head le_antisymm le_of_lt le_trans nil not_lt

section Heads
variable (key : α → κ) (parent : α → Option κ)

structure IsHead (nodes : List α) (a : α) : Prop where
  mem : a ∈ nodes
  last : ∀ b ∈ nodes, parent b ≠ some (key a)

def Chained (nodes : List α) : Prop :=
  ∀ front a rest, nodes = front ++ a :: rest → ∀ k, parent a = some k → ∃ b ∈ front, key b = k

variable {key parent} {nodes xs ys : List α} {a : α}

theorem isHead_iff : IsHead key parent nodes a ↔ a ∈ nodes ∧ key a ∉ nodes.filterMap parent := by
  constructor
  · intro h
    refine ⟨h.mem, fun hmem => ?_⟩
    obtain ⟨b, hb, hparent⟩ := mem_filterMap.1 hmem
    exact h.last b hb hparent
  · intro h
    refine ⟨h.1, fun b hb hparent => h.2 ?_⟩
    exact mem_filterMap.2 ⟨b, hb, hparent⟩

theorem IsHead.congr (hmem : ∀ a, a ∈ xs ↔ a ∈ ys) (h : IsHead key parent xs a) :
    IsHead key parent ys a :=
  ⟨(hmem a).1 h.mem, fun b hb => h.last b ((hmem b).2 hb)⟩

theorem Chained.nil : Chained key parent [] := by
  intro front a rest h
  exact absurd h.symm (append_ne_nil_of_right_ne_nil _ (cons_ne_nil _ _))

theorem Chained.snoc (h : Chained key parent nodes)
    (ha : ∀ k, parent a = some k → ∃ b ∈ nodes, key b = k) : Chained key parent (nodes ++ [a]) := by
  intro front b rest hsplit
  rcases eq_nil_or_concat' rest with rfl | ⟨rest', c, rfl⟩
  · obtain ⟨rfl, hlast⟩ := append_inj' hsplit rfl
    obtain rfl := (cons.inj hlast).1
    exact ha
  · rw [← cons_append, ← append_assoc] at hsplit
    obtain ⟨hnodes, _⟩ := append_inj' hsplit rfl
    exact h front b rest' hnodes

theorem Chained.parent_mem (h : Chained key parent nodes) (hmem : a ∈ nodes) (hparent : parent a = some k) :
    ∃ b ∈ nodes, key b = k := by
  obtain ⟨front, rest, rfl⟩ := append_of_mem hmem
  obtain ⟨b, hb, hkey⟩ := h front a rest rfl k hparent
  exact ⟨b, mem_append_left _ hb, hkey⟩

theorem Chained.of_append (h : Chained key parent (xs ++ ys)) : Chained key parent xs := by
  rintro front a rest rfl
  refine h front a (rest ++ ys) ?_
  rw [append_assoc, cons_append]

theorem Chained.isHead_last (h : Chained key parent (nodes ++ [a])) (hnew : ∀ b ∈ nodes, key b ≠ key a) :
    IsHead key parent (nodes ++ [a]) a := by
  refine ⟨mem_append_right _ mem_cons_self, fun b hb hparent => ?_⟩
  rcases mem_append.1 hb with hmem | hmem
  · obtain ⟨c, hc, hkey⟩ := h.of_append.parent_mem hmem hparent
    exact hnew c hc hkey
  · obtain rfl := mem_singleton.1 hmem
    obtain ⟨c, hc, hkey⟩ := h nodes b [] rfl _ hparent
    exact hnew c hc hkey

theorem Chained.exists_isHead (h : Chained key parent nodes)
    (hinj : ∀ a ∈ nodes, ∀ b ∈ nodes, key a = key b → a = b) (hne : nodes ≠ []) :
    ∃ a, IsHead key parent nodes a := by
  induction nodes using reverseRecOn with
  | nil => exact absurd rfl hne
  | append_singleton nodes a ih =>
    have hlast : a ∈ nodes ++ [a] := mem_append_right _ mem_cons_self
    by_cases hnew : ∀ b ∈ nodes, key b ≠ key a
    · exact ⟨a, h.isHead_last hnew⟩
    · push Not at hnew
      obtain ⟨b, hb, hkey⟩ := hnew
      obtain rfl := hinj b (mem_append_left _ hb) a hlast hkey
      obtain ⟨c, hc⟩ := ih h.of_append (fun x hx y hy => hinj x (mem_append_left _ hx) y
        (mem_append_left _ hy)) (ne_nil_of_mem hb)
      refine ⟨c, hc.congr fun x => ?_⟩
      simp only [mem_append, mem_singleton]
      exact ⟨.inl, fun hx => hx.elim id fun heq => heq ▸ hb⟩

end Heads

section Greatest
variable [LinearOrder κ] (key : α → κ) (parent : α → Option κ)

/-- The better of a candidate and one more node, of which only those count that are nobody's parent. -/
def pickHead (parents : List κ) (head : Option α) (a : α) : Option α :=
  if key a ∈ parents then head
  else
    match head with
    | some best => if key best < key a then some a else some best
    | none => some a

/-- The node with the greatest key among those that are nobody's parent. -/
def headOf (nodes : List α) : Option α :=
  nodes.foldl (pickHead key (nodes.filterMap parent)) none

structure IsGreatestHead (nodes : List α) (a : α) : Prop extends IsHead key parent nodes a where
  greatest : ∀ b, IsHead key parent nodes b → key b ≤ key a

variable {key parent} {nodes xs ys : List α} {a : α}

structure Picked (key : α → κ) (parents : List κ) (xs : List α) (head : Option α) : Prop where
  mem : ∀ a ∈ head, a ∈ xs ∧ key a ∉ parents
  greatest : ∀ b ∈ xs, key b ∉ parents → ∃ a ∈ head, key b ≤ key a

theorem Picked.snoc (h : Picked key parents xs head) (a : α) :
    Picked key parents (xs ++ [a]) (pickHead key parents head a) := by
  have hold : ∀ b ∈ head, b ∈ xs ++ [a] ∧ key b ∉ parents := fun b hb =>
    ⟨mem_append_left _ (h.mem b hb).1, (h.mem b hb).2⟩
  have hsplit : ∀ b ∈ xs ++ [a], key b ∉ parents → b = a ∨ ∃ c ∈ head, key b ≤ key c := by
    intro b hb hkey
    rcases mem_append.1 hb with hmem | hmem
    · exact .inr (h.greatest b hmem hkey)
    · exact .inl (mem_singleton.1 hmem)
  unfold pickHead
  split
  · rename_i hparent
    refine ⟨hold, fun b hb hkey => ?_⟩
    rcases hsplit b hb hkey with rfl | hbound
    · exact absurd hparent hkey
    · exact hbound
  · rename_i hfree
    have hself : a ∈ xs ++ [a] ∧ key a ∉ parents :=
      ⟨mem_append_right _ mem_cons_self, hfree⟩
    cases head with
    | none =>
      refine ⟨fun b hb => Option.some.inj hb ▸ hself, fun b hb hkey => ⟨a, rfl, ?_⟩⟩
      rcases hsplit b hb hkey with rfl | ⟨_, hnone, _⟩
      · exact le_rfl
      · cases hnone
    | some best =>
      dsimp only
      split
      · rename_i hlt
        refine ⟨fun b hb => Option.some.inj hb ▸ hself, fun b hb hkey => ⟨a, rfl, ?_⟩⟩
        rcases hsplit b hb hkey with rfl | ⟨c, hc, hle⟩
        · exact le_rfl
        · obtain rfl := Option.some.inj hc
          exact le_trans hle (le_of_lt hlt)
      · rename_i hge
        refine ⟨hold, fun b hb hkey => ?_⟩
        rcases hsplit b hb hkey with rfl | hbound
        · exact ⟨best, rfl, not_lt.1 hge⟩
        · exact hbound

theorem picked_foldl (parents : List κ) (xs : List α) :
    Picked key parents xs (xs.foldl (pickHead key parents) none) := by
  induction xs using reverseRecOn with
  | nil => exact ⟨nofun, nofun⟩
  | append_singleton xs a ih =>
    rw [foldl_append]
    exact ih.snoc a

theorem headOf_isGreatestHead (h : headOf key parent nodes = some a) :
    IsGreatestHead key parent nodes a := by
  have hpicked : Picked key (nodes.filterMap parent) nodes (headOf key parent nodes) :=
    picked_foldl (nodes.filterMap parent) nodes
  rw [h] at hpicked
  refine ⟨isHead_iff.2 (hpicked.mem a rfl), fun b hb => ?_⟩
  obtain ⟨hmem, hkey⟩ := isHead_iff.1 hb
  obtain ⟨c, hc, hle⟩ := hpicked.greatest b hmem hkey
  exact Option.some.inj hc ▸ hle

theorem exists_headOf (h : IsHead key parent nodes a) : ∃ b, headOf key parent nodes = some b := by
  obtain ⟨hmem, hkey⟩ := isHead_iff.1 h
  have hpicked : Picked key (nodes.filterMap parent) nodes (headOf key parent nodes) :=
    picked_foldl (nodes.filterMap parent) nodes
  obtain ⟨b, hb, _⟩ := hpicked.greatest a hmem hkey
  exact ⟨b, hb⟩

theorem headOf_congr (hmem : ∀ a, a ∈ xs ↔ a ∈ ys)
    (hinj : ∀ a ∈ xs, ∀ b ∈ xs, key a = key b → a = b) : headOf key parent xs = headOf key parent ys := by
  have hback : ∀ a, a ∈ ys ↔ a ∈ xs := fun a => (hmem a).symm
  cases hx : headOf key parent xs with
  | none =>
    cases hy : headOf key parent ys with
    | none => rfl
    | some b =>
      obtain ⟨a, ha⟩ := exists_headOf ((headOf_isGreatestHead hy).toIsHead.congr hback)
      cases hx.symm.trans ha
  | some a =>
    have hgreatest := headOf_isGreatestHead hx
    obtain ⟨b, hy⟩ := exists_headOf (hgreatest.toIsHead.congr hmem)
    have hgreatest' := headOf_isGreatestHead hy
    have hle := hgreatest.greatest b (hgreatest'.toIsHead.congr hback)
    have hge := hgreatest'.greatest a (hgreatest.toIsHead.congr hmem)
    rw [hy, hinj a hgreatest.mem b ((hmem b).2 hgreatest'.mem) (le_antisymm hge hle)]

end Greatest

end Heddle.Lib
