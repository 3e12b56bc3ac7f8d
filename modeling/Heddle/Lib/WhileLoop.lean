import Mathlib.Order.Nat
import Mathlib.Logic.Relation

namespace Heddle.Lib

/-- What one round of a loop does: go on in a new state, or leave with a result. -/
inductive Round (σ ρ : Type) where
  | next (state : σ)
  | done (result : ρ)
  deriving DecidableEq

def runLoop (step : σ → Round σ ρ) : Nat → σ → Option ρ
  | 0, _ => none
  | fuel + 1, s =>
    match step s with
    | .next s' => runLoop step fuel s'
    | .done result => some result

/-- With enough rounds the computation ends, with `a`. -/
def Returns (f : Nat → Option α) (a : α) : Prop := ∃ rounds, ∀ fuel, rounds ≤ fuel → f fuel = some a

theorem Returns.unique (h : Returns f a) (h' : Returns f b) : a = b := by
  obtain ⟨m, hm⟩ := h
  obtain ⟨n, hn⟩ := h'
  have heq := (hm (max m n) (Nat.le_max_left m n)).symm.trans (hn (max m n) (Nat.le_max_right m n))
  exact Option.some.inj heq

theorem returns_some (a : α) : Returns (fun _ => some a) a := ⟨0, fun _ _ => rfl⟩

theorem Returns.bind {k : α → Nat → Option β} (h : Returns f a) (h' : Returns (k a) b) :
    Returns (fun fuel => (f fuel).bind fun a => k a fuel) b := by
  obtain ⟨m, hm⟩ := h
  obtain ⟨n, hn⟩ := h'
  refine ⟨max m n, fun fuel hfuel => ?_⟩
  change (f fuel).bind (fun a => k a fuel) = some b
  rw [hm fuel ((Nat.le_max_left m n).trans hfuel), Option.bind_some]
  exact hn fuel ((Nat.le_max_right m n).trans hfuel)

theorem Returns.map {f : Nat → Option α} (h : Returns f a) (k : α → β) :
    Returns (fun fuel => (f fuel).map k) (k a) := by
  obtain ⟨m, hm⟩ := h
  exact ⟨m, fun fuel hfuel => congrArg (Option.map k) (hm fuel hfuel)⟩

section Rules
variable {step : σ → Round σ ρ} {I : σ → Prop} {Q : ρ → Prop}

theorem runLoop_next (h : step s = .next s') (fuel : Nat) :
    runLoop step (fuel + 1) s = runLoop step fuel s' := by
  rw [runLoop, h]

theorem runLoop_done (h : step s = .done result) (fuel : Nat) :
    runLoop step (fuel + 1) s = some result := by
  rw [runLoop, h]

theorem runLoop_mono (h : runLoop step fuel s = some result) (hle : fuel ≤ fuel') :
    runLoop step fuel' s = some result := by
  induction fuel generalizing s fuel' with
  | zero => cases h
  | succ fuel ih =>
    obtain ⟨n, rfl⟩ := Nat.exists_eq_add_of_le' ((Nat.le_add_left 1 fuel).trans hle)
    cases hs : step s with
    | next s' =>
      rw [runLoop_next hs] at h ⊢
      exact ih h (Nat.le_of_add_le_add_right hle)
    | done result' =>
      rw [runLoop_done hs] at h ⊢
      exact h

theorem runLoop_partial (hnext : ∀ s s', I s → step s = .next s' → I s')
    (hdone : ∀ s result, I s → step s = .done result → Q result)
    (h : I s) (hrun : runLoop step fuel s = some result) : Q result := by
  induction fuel generalizing s with
  | zero => cases hrun
  | succ fuel ih =>
    cases hs : step s with
    | next s' =>
      rw [runLoop_next hs] at hrun
      exact ih (hnext s s' h hs) hrun
    | done result' =>
      rw [runLoop_done hs] at hrun
      exact Option.some.inj hrun ▸ hdone s result' h hs

section
variable (size : σ → Nat) (hnext : ∀ s s', I s → step s = .next s' → I s' ∧ size s' < size s)
  (hdone : ∀ s result, I s → step s = .done result → Q result) (h : I s)
include hnext hdone h

/-- The total correctness rule: an invariant, and a size that every further round makes smaller. -/
theorem runLoop_total (hfuel : size s < fuel) : ∃ result, runLoop step fuel s = some result ∧ Q result := by
  induction fuel generalizing s with
  | zero => exact absurd hfuel (Nat.not_lt_zero _)
  | succ fuel ih =>
    cases hs : step s with
    | next s' =>
      obtain ⟨hI, hlt⟩ := hnext s s' h hs
      rw [runLoop_next hs]
      exact ih hI (Nat.lt_of_lt_of_le hlt (Nat.le_of_lt_succ hfuel))
    | done result => exact ⟨result, runLoop_done hs fuel, hdone s result h hs⟩

theorem runLoop_returns :
    ∃ result, Returns (fun fuel => runLoop step fuel s) result ∧ Q result := by
  obtain ⟨result, hrun, hQ⟩ := runLoop_total size hnext hdone h (Nat.lt_succ_self (size s))
  refine ⟨result, ⟨size s + 1, fun fuel hfuel => ?_⟩, hQ⟩
  exact runLoop_mono hrun hfuel

end

theorem returns_next (h : step s = .next s') (h' : Returns (fun fuel => runLoop step fuel s') result) :
    Returns (fun fuel => runLoop step fuel s) result := by
  obtain ⟨rounds, hrun⟩ := h'
  refine ⟨rounds + 1, fun fuel hfuel => ?_⟩
  obtain ⟨n, rfl⟩ := Nat.exists_eq_add_of_le' (Nat.le_of_add_left_le hfuel)
  exact (runLoop_next h n).trans (hrun n (Nat.le_of_add_le_add_right hfuel))

def Rounds (step : σ → Round σ ρ) : σ → σ → Prop :=
  Relation.ReflTransGen fun s s' => step s = .next s'

theorem Rounds.single (h : step s = .next s') : Rounds step s s' := Relation.ReflTransGen.single h

theorem Rounds.head (h : step s = .next s') (h' : Rounds step s' s'') : Rounds step s s'' :=
  Relation.ReflTransGen.head (r := fun s s' => step s = .next s') h h'

theorem Rounds.tail (h : Rounds step s s') (h' : step s' = .next s'') : Rounds step s s'' :=
  Relation.ReflTransGen.tail h h'

theorem Rounds.returns (h : Rounds step s s')
    (h' : Returns (fun fuel => runLoop step fuel s') result) :
    Returns (fun fuel => runLoop step fuel s) result := by
  induction h using Relation.ReflTransGen.head_induction_on with
  | refl => exact h'
  | head hs _ ih => exact returns_next hs ih

theorem returns_done (h : step s = .done result) :
    Returns (fun fuel => runLoop step fuel s) result := by
  refine ⟨1, fun fuel hfuel => ?_⟩
  obtain ⟨n, rfl⟩ := Nat.exists_eq_add_of_le' hfuel
  exact runLoop_done h n

end Rules

section Nested
variable {step : Nat → σ → Round σ ρ}

def ReturnsNested (step : Nat → σ → Round σ ρ) (s : σ) (result : ρ) : Prop :=
  ∃ n, ∀ fuel rounds, n ≤ fuel → n ≤ rounds → runLoop (step fuel) rounds s = some result

theorem ReturnsNested.returns (h : ReturnsNested step s result) :
    Returns (fun fuel => runLoop (step fuel) fuel s) result := by
  obtain ⟨n, hn⟩ := h
  exact ⟨n, fun fuel hfuel => hn fuel fuel hfuel hfuel⟩

theorem returnsNested_done (h : ∀ fuel, step fuel s = .done result) : ReturnsNested step s result := by
  refine ⟨1, fun fuel rounds _ hrounds => ?_⟩
  obtain ⟨k, rfl⟩ := Nat.exists_eq_add_of_le' hrounds
  exact runLoop_done (h fuel) k

theorem returnsNested_next (h : ∃ n, ∀ fuel, n ≤ fuel → step fuel s = .next s')
    (h' : ReturnsNested step s' result) : ReturnsNested step s result := by
  obtain ⟨n, hnext⟩ := h
  obtain ⟨m, hrest⟩ := h'
  refine ⟨max m n + 1, fun fuel rounds hfuel hrounds => ?_⟩
  have hmax : max m n ≤ fuel := Nat.le_of_succ_le hfuel
  obtain ⟨k, rfl⟩ := Nat.exists_eq_add_of_le' (Nat.le_of_add_left_le hrounds)
  rw [runLoop_next (hnext fuel ((Nat.le_max_right m n).trans hmax))]
  have hk : max m n ≤ k := Nat.le_of_succ_le_succ hrounds
  exact hrest fuel k ((Nat.le_max_left m n).trans hmax) ((Nat.le_max_left m n).trans hk)

end Nested

end Heddle.Lib
