import Mathlib.Algebra.Order.Monoid.WithTop
import Mathlib.Algebra.Order.BigOperators.Group.List
import Mathlib.Data.Fintype.Order
import Mathlib.Algebra.Order.Group.Nat
import Mathlib.Logic.Relation
import Mathlib.Order.WellFounded
import Mathlib.Algebra.GroupWithZero.Nat

namespace Heddle.Lib
open List

theorem lawfulBEq_of_linearOrder [LinearOrder α] : LawfulBEq α := inferInstance

abbrev ParentGraph (V : Type) := V → Option (List V)

namespace ParentGraph
variable {g : ParentGraph V}

def Available (g : ParentGraph V) (v : V) : Prop := (g v).isSome

instance (g : ParentGraph V) (v : V) : Decidable (g.Available v) :=
  inferInstanceAs (Decidable ((g v).isSome = true))

def Step (g : ParentGraph V) (v p : V) : Prop := ∃ parents, g v = some parents ∧ p ∈ parents

/-- A parent path leads from `v` to `w`; all its vertices before the last can be read. -/
def Reaches (g : ParentGraph V) (v w : V) : Prop := Relation.ReflTransGen g.Step v w

def Acyclic (g : ParentGraph V) : Prop := ∀ v, ¬ Relation.TransGen g.Step v v

/-- A parent path leads from `v` to `w`; unless it is empty, all its vertices can be read. -/
def IsAncestor (g : ParentGraph V) (w v : V) : Prop := w = v ∨ (g.Reaches v w ∧ g.Available w)

inductive PathFrom (g : ParentGraph V) : V → Nat → Prop
  | start : g.Available v → PathFrom g v 0
  | step : g.Step v p → PathFrom g p n → PathFrom g v (n + 1)

/-- The length of the longest parent path from `v` whose vertices can all be read. -/
def IsGeneration (g : ParentGraph V) (v : V) (generation : WithBot Nat) : Prop :=
  ∀ n : Nat, n ≤ generation ↔ PathFrom g v n

theorem available_of_some (h : g v = some parents) : g.Available v := by
  rw [Available, h]
  rfl

theorem Step.available (h : g.Step v p) : g.Available v := available_of_some h.choose_spec.1

theorem step_iff (h : g v = some parents) : g.Step v p ↔ p ∈ parents := by
  constructor
  · rintro ⟨parents', h', hp⟩
    rw [h, Option.some.injEq] at h'
    rwa [h']
  · exact fun hp => ⟨parents, h, hp⟩

theorem not_available (h : g v = none) : ¬ g.Available v := by
  rw [Available, h]
  exact Bool.false_ne_true

theorem IsGeneration.unique (h : g.IsGeneration v m) (h' : g.IsGeneration v n) : m = n := by
  have hiff : ∀ k : Nat, (k : WithBot Nat) ≤ m ↔ (k : WithBot Nat) ≤ n :=
    fun k => (h k).trans (h' k).symm
  apply le_antisymm
  · cases m with
    | bot => exact bot_le
    | coe k => exact (hiff k).1 le_rfl
  · cases n with
    | bot => exact bot_le
    | coe k => exact (hiff k).2 le_rfl

theorem isGeneration_bot (h : g v = none) : g.IsGeneration v ⊥ := by
  intro n
  constructor
  · exact fun hn => absurd hn (WithBot.not_coe_le_bot n)
  · intro hpath
    cases hpath with
    | start hv => exact absurd hv (not_available h)
    | step hs _ => exact absurd hs.available (not_available h)

theorem IsGeneration.lt (h : g.IsGeneration v m) (hp : g.IsGeneration p n) (hs : g.Step v p) :
    n < m := by
  cases n with
  | bot => exact lt_of_lt_of_le (WithBot.bot_lt_coe 0) ((h 0).2 (.start hs.available))
  | coe k =>
    have hpath := (h (k + 1)).2 (.step hs ((hp k).1 le_rfl))
    exact lt_of_lt_of_le (WithBot.coe_lt_coe.2 (Nat.lt_succ_self k)) hpath

theorem Acyclic.wellFounded (h : g.Acyclic) {vertices : List V}
    (hfin : ∀ v, g.Available v → v ∈ vertices) : WellFounded fun p v => g.Step v p := by
  let Readable := { v // v ∈ vertices }
  have hfinite : Finite Readable := finite_toSet vertices
  let below : Readable → Readable → Prop := fun p v => Relation.TransGen g.Step v.1 p.1
  have htrans : IsTrans Readable below := ⟨fun _ _ _ hab hbc => hbc.trans hab⟩
  have hirrefl : Std.Irrefl below := ⟨fun v => h v.1⟩
  have hwf : WellFounded below := Finite.wellFounded_of_trans_of_irrefl below
  have hacc : ∀ v : Readable, Acc (fun p v => g.Step v p) v.1 := by
    intro v
    induction v using hwf.induction with
    | _ v ih =>
      refine ⟨_, fun p hp => ⟨_, fun q hq => ?_⟩⟩
      exact (ih ⟨p, hfin p hq.available⟩ (.single hp)).inv hq
  refine ⟨fun v => ⟨_, fun p hp => ?_⟩⟩
  exact (hacc ⟨v, hfin v hp.available⟩).inv hp

theorem Reaches.mem (h : g.Reaches v w) {S : V → Prop} (hv : S v)
    (hclosed : ∀ x p, S x → g.Step x p → S p) : S w := by
  induction h with
  | refl => exact hv
  | tail _ hs ih => exact hclosed _ _ ih hs

theorem Reaches.generation_le (h : g.Reaches v w) {generation : V → WithBot Nat}
    (hgen : ∀ x, g.Reaches v x → g.IsGeneration x (generation x)) : generation w ≤ generation v := by
  induction h with
  | refl => exact le_rfl
  | tail hvx hs ih => exact ((hgen _ hvx).lt (hgen _ (hvx.tail hs)) hs).le.trans ih

theorem acyclic_of_lt [Preorder V] (h : ∀ v p, g.Step v p → p < v) :
    g.Acyclic := by
  have hlt : ∀ v w, Relation.TransGen g.Step v w → w < v := by
    intro v w hpath
    induction hpath with
    | single hs => exact h _ _ hs
    | tail _ hs ih => exact (h _ _ hs).trans ih
  exact fun v hv => lt_irrefl v (hlt v v hv)

section MergeBase
variable [LinearOrder V]

def CommonAncestor (g : ParentGraph V) (a b c : V) : Prop := g.Reaches a c ∧ g.Reaches b c

/-- The common ancestor of the greatest generation, and of those the smallest. -/
def IsMergeBase (g : ParentGraph V) (generation : V → WithBot Nat) (a b : V) : Option V → Prop
  | none => ∀ c, ¬ g.CommonAncestor a b c
  | some c => g.CommonAncestor a b c ∧ ∀ c', g.CommonAncestor a b c' →
      generation c' < generation c ∨ (generation c' = generation c ∧ c ≤ c')

theorem IsMergeBase.unique (h : g.IsMergeBase generation a b r)
    (h' : g.IsMergeBase generation a b r') : r = r' := by
  cases r with
  | none =>
    cases r' with
    | none => rfl
    | some c' => exact absurd h'.1 (h c')
  | some c =>
    cases r' with
    | none => exact absurd h.1 (h' c)
    | some c' =>
      rcases h.2 c' h'.1 with hlt | ⟨heq, hle⟩
      · rcases h'.2 c h.1 with hlt' | ⟨heq', _⟩
        · exact absurd hlt hlt'.asymm
        · exact absurd hlt heq'.not_gt
      · rcases h'.2 c h.1 with hlt' | ⟨_, hle'⟩
        · exact absurd hlt' heq.not_gt
        · exact congrArg some (le_antisymm hle hle')

theorem IsMergeBase.congr (h : g.IsMergeBase generation a b r)
    (hsame : ∀ v, g.Reaches a v → generation v = generation' v) :
    g.IsMergeBase generation' a b r := by
  cases r with
  | none => exact h
  | some c =>
    refine ⟨h.1, fun c' hc' => ?_⟩
    rw [← hsame c h.1.1, ← hsame c' hc'.1]
    exact h.2 c' hc'

theorem IsMergeBase.best (h : g.IsMergeBase generation a b (some c))
    (hgen : ∀ v, g.Reaches a v → g.IsGeneration v (generation v)) (hc' : g.CommonAncestor a b c')
    (hreach : g.Reaches c' c) : c' = c := by
  rcases hreach.cases_head with heq | ⟨p, hs, hp⟩
  · exact heq
  · have hle : generation c ≤ generation p :=
      Reaches.generation_le hp fun x hx => hgen x ((hc'.1.tail hs).trans hx)
    have hlt : generation c < generation c' :=
      hle.trans_lt ((hgen _ hc'.1).lt (hgen _ (hc'.1.tail hs)) hs)
    rcases h.2 c' hc' with hlt' | ⟨heq, _⟩
    · exact absurd hlt hlt'.asymm
    · exact absurd hlt heq.le.not_gt

end MergeBase

end ParentGraph

section Work
variable [DecidableEq V]

def unseenWork (work : V → Nat) (vertices seen : List V) : Nat :=
  ((vertices.filter (· ∉ seen)).map work).sum

theorem unseenWork_cons_le (work : V → Nat) (vertices seen : List V) (v : V) :
    unseenWork work vertices (v :: seen) ≤ unseenWork work vertices seen := by
  apply List.Sublist.sum_le_sum
  · apply List.Sublist.map
    apply monotone_filter_right
    intro x hx
    rw [decide_eq_true_iff, mem_cons, not_or] at hx
    exact decide_eq_true hx.2
  · exact fun _ _ => Nat.zero_le _

theorem unseenWork_cons (work : V → Nat) (hv : v ∈ vertices) (hseen : v ∉ seen) :
    work v + unseenWork work vertices (v :: seen) ≤ unseenWork work vertices seen := by
  obtain ⟨before, after, rfl⟩ := append_of_mem hv
  have hbefore := unseenWork_cons_le work before seen v
  have hafter := unseenWork_cons_le work after seen v
  unfold unseenWork at hbefore hafter ⊢
  have hself : decide (v ∉ v :: seen) = false := decide_eq_false (not_not_intro mem_cons_self)
  rw [filter_append, filter_append, filter_cons, filter_cons, hself,
    if_pos (decide_eq_true hseen), if_neg Bool.false_ne_true]
  simp only [map_append, map_cons, sum_append, sum_cons]
  omega

end Work

end Heddle.Lib
