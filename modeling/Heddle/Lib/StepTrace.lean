import Mathlib.Data.List.Basic

namespace Heddle.Lib

def runSteps (steps : List (σ → σ)) (s : σ) : σ := steps.foldl (fun s step => step s) s

def stateAfter (steps : List (σ → σ)) (s : σ) (n : Nat) : σ := runSteps (steps.take n) s

/-- None of the steps changes the view while it is `a`. -/
def Keeps (view : σ → β) (a : β) (steps : List (σ → σ)) : Prop :=
  ∀ step ∈ steps, ∀ s, view s = a → view (step s) = a

/-- The view is `a` at first, then `b`, then `c`. -/
def Phases (view : σ → β) (steps : List (σ → σ)) (s : σ) (a b c : β) : Prop :=
  ∃ m₁ m₂, m₁ < m₂ ∧ view (runSteps steps s) = c ∧
    ∀ n, view (stateAfter steps s n) = if n ≤ m₁ then a else if n ≤ m₂ then b else c

section Trace
variable {view : σ → β}

theorem runSteps_append (xs ys : List (σ → σ)) (s : σ) :
    runSteps (xs ++ ys) s = runSteps ys (runSteps xs s) :=
  List.foldl_append

theorem runSteps_cons (step : σ → σ) (steps : List (σ → σ)) (s : σ) :
    runSteps (step :: steps) s = runSteps steps (step s) := rfl

theorem Keeps.append (hxs : Keeps view a xs) (hys : Keeps view a ys) :
    Keeps view a (xs ++ ys) := by
  intro step hstep
  rcases List.mem_append.1 hstep with h | h
  · exact hxs step h
  · exact hys step h

theorem Keeps.nil : Keeps view a [] := fun _ h => absurd h List.not_mem_nil

theorem Keeps.singleton (h : ∀ s, view s = a → view (step s) = a) : Keeps view a [step] := by
  intro step' hstep
  rw [List.mem_singleton.1 hstep]
  exact h

section
variable {P : σ → Prop} {steps : List (σ → σ)} (h : ∀ step ∈ steps, ∀ s, P s → P (step s))
  (hs : P s)
include h hs

theorem runSteps_inv : P (runSteps steps s) := by
  induction steps generalizing s with
  | nil => exact hs
  | cons step steps ih =>
    obtain ⟨hstep, hsteps⟩ := List.forall_mem_cons.1 h
    exact ih hsteps (hstep s hs)

theorem stateAfter_inv (n : Nat) : P (stateAfter steps s n) :=
  runSteps_inv (fun step hstep => h step (List.mem_of_mem_take hstep)) hs

end

theorem Keeps.run (h : Keeps view a steps) (hs : view s = a) : view (runSteps steps s) = a :=
  runSteps_inv (P := fun s => view s = a) h hs

theorem Keeps.stateAfter (h : Keeps view a steps) (hs : view s = a) (n : Nat) :
    view (stateAfter steps s n) = a :=
  stateAfter_inv (P := fun s => view s = a) h hs n

theorem stateAfter_append_of_le (h : n ≤ xs.length) (s : σ) :
    stateAfter (xs ++ ys) s n = stateAfter xs s n := by
  unfold Lib.stateAfter
  rw [List.take_append_of_le_length h]

theorem stateAfter_append_add (xs ys : List (σ → σ)) (s : σ) (n : Nat) :
    stateAfter (xs ++ ys) s (xs.length + n) = stateAfter ys (runSteps xs s) n := by
  unfold Lib.stateAfter
  rw [List.take_length_add_append, runSteps_append]

theorem view_one_change (hxs : Keeps view a xs) (hstep : ∀ s, view s = a → view (step s) = b)
    (hys : Keeps view b ys) (hs : view s = a) (n : Nat) :
    view (stateAfter (xs ++ step :: ys) s n) = if n ≤ xs.length then a else b := by
  by_cases hn : n ≤ xs.length
  · rw [if_pos hn, stateAfter_append_of_le hn]
    exact hxs.stateAfter hs n
  · obtain ⟨m, hm⟩ := Nat.exists_eq_add_of_lt (Nat.lt_of_not_le hn)
    rw [if_neg hn, hm, Nat.add_assoc, stateAfter_append_add]
    exact hys.stateAfter (hstep _ (hxs.run hs)) m

theorem phases_of_changes (hxs : Keeps view a xs) (hstep : ∀ s, view s = a → view (step s) = b)
    (hys : Keeps view b ys) (hstep' : ∀ s, view s = b → view (step' s) = c)
    (hzs : Keeps view c zs) (hs : view s = a) :
    Phases view (xs ++ step :: (ys ++ step' :: zs)) s a b c := by
  have hfirst := hstep _ (hxs.run hs)
  refine ⟨xs.length, xs.length + 1 + ys.length, by omega, ?_, fun n => ?_⟩
  · rw [runSteps_append, runSteps_cons, runSteps_append, runSteps_cons]
    exact hzs.run (hstep' _ (hys.run hfirst))
  · by_cases hn : n ≤ xs.length
    · rw [if_pos hn, stateAfter_append_of_le hn]
      exact hxs.stateAfter hs n
    · obtain ⟨m, hm⟩ := Nat.exists_eq_add_of_lt (Nat.lt_of_not_le hn)
      have hrest := view_one_change hys hstep' hzs hfirst m
      have hiff : n ≤ xs.length + 1 + ys.length ↔ m ≤ ys.length := by omega
      rw [if_neg hn, hm, Nat.add_assoc, stateAfter_append_add]
      simp only [← Nat.add_assoc, ← hm, hiff]
      exact hrest

theorem phases_of_keeps (h : Keeps view a steps) (hs : view s = a) : Phases view steps s a a a := by
  refine ⟨0, 1, Nat.one_pos, h.run hs, fun n => ?_⟩
  rw [ite_self, ite_self]
  exact h.stateAfter hs n

end Trace

/-- How a run of steps that can fail ends, and the state it leaves. -/
abbrev Outcome (ε σ : Type) := Except ε Unit × σ

def Outcome.andThen (outcome : Outcome ε σ) (next : σ → Outcome ε σ) : Outcome ε σ :=
  match outcome with
  | (.ok (), state) => next state
  | (.error error, state) => (.error error, state)

def Outcome.undo (outcome : Outcome ε σ) (undo : ε → σ → Outcome ε σ) : Outcome ε σ :=
  match outcome with
  | (.ok (), state) => (.ok (), state)
  | (.error error, state) => undo error state

/-- Takes one step, then goes on. `fails` says which steps fail; a failed step changes nothing. -/
def failOr (fault : ε) (fails : α → Bool) (step : α) (state : σ) (next : σ → Outcome ε σ) :
    Outcome ε σ :=
  if fails step then (.error fault, state) else next state

/-- A run ends in `done` when none of its steps fails. When one fails, the run ends in an error and
in a state that `left` allows. -/
def Runs (fails : α → Bool) (steps : α → Prop) (outcome : Outcome ε σ) (done : σ)
    (left : α → σ → Prop) : Prop :=
  (outcome = (.ok (), done) ∧ ∀ step, steps step → fails step = false) ∨
  ∃ step error state,
    steps step ∧ fails step = true ∧ outcome = (.error error, state) ∧ left step state

theorem Runs.nothing (hsteps : ∀ step, ¬steps step) :
    Runs fails steps ((.ok (), state) : Outcome ε σ) state left :=
  .inl ⟨rfl, fun step hstep => absurd hstep (hsteps step)⟩

theorem Runs.failOr (hleft : left step state) (h : Runs fails steps (next state) done left) :
    Runs fails (fun s => s = step ∨ steps s) (failOr fault fails step state next) done left := by
  unfold Lib.failOr
  by_cases hfail : fails step = true
  · rw [if_pos hfail]
    exact .inr ⟨step, fault, state, .inl rfl, hfail, rfl, hleft⟩
  · rw [if_neg hfail]
    rcases h with ⟨hok, hsteps⟩ | ⟨s, error, state, hs, hfails, herr, hl⟩
    · apply Or.inl
      apply And.intro hok
      intro s hs
      rcases hs with hs | hs
      · exact hs ▸ eq_false_of_ne_true hfail
      · exact hsteps s hs
    · exact .inr ⟨s, error, state, .inr hs, hfails, herr, hl⟩

theorem Runs.last (hleft : left step state) (hnext : next state = (.ok (), done)) :
    Runs fails (fun s => s = step) (Lib.failOr fault fails step state next) done left := by
  unfold Lib.failOr
  by_cases hfail : fails step = true
  · rw [if_pos hfail]
    exact .inr ⟨step, fault, state, rfl, hfail, rfl, hleft⟩
  · rw [if_neg hfail]
    exact .inl ⟨hnext, fun s hs => hs ▸ eq_false_of_ne_true hfail⟩

theorem Runs.andThen (h : Runs fails steps outcome middle left)
    (hnext : Runs fails steps' (next middle) done left) :
    Runs fails (fun s => steps s ∨ steps' s) (outcome.andThen next) done left := by
  rcases h with ⟨hok, hsteps⟩ | ⟨s, error, state, hs, hfails, herr, hl⟩
  · rw [hok]
    rcases hnext with ⟨hok', hsteps'⟩ | ⟨s, error, state, hs, hfails, herr, hl⟩
    · apply Or.inl
      apply And.intro hok'
      intro s hs
      rcases hs with hs | hs
      · exact hsteps s hs
      · exact hsteps' s hs
    · exact .inr ⟨s, error, state, .inr hs, hfails, herr, hl⟩
  · rw [herr]
    exact .inr ⟨s, error, state, .inl hs, hfails, rfl, hl⟩

theorem Runs.undo {handle : ε → σ → Outcome ε σ} (h : Runs fails steps outcome done left)
    (hundo : ∀ step error state, steps step → fails step = true → left step state →
      ∃ error' state', handle error state = (.error error', state') ∧ left' step state') :
    Runs fails steps (outcome.undo handle) done left' := by
  rcases h with ⟨hok, hsteps⟩ | ⟨s, error, state, hs, hfails, herr, hl⟩
  · rw [hok]
    exact .inl ⟨rfl, hsteps⟩
  · obtain ⟨error', state', heq, hl'⟩ := hundo s error state hs hfails hl
    rw [herr]
    exact .inr ⟨s, error', state', hs, hfails, heq, hl'⟩

theorem Runs.congr (h : Runs fails steps outcome done left) (hsteps : ∀ s, steps s ↔ steps' s)
    (hleft : ∀ s state, steps s → left s state → left' s state) :
    Runs fails steps' outcome done left' := by
  rcases h with ⟨hok, hnone⟩ | ⟨s, error, state, hs, hfails, herr, hl⟩
  · exact .inl ⟨hok, fun s hs => hnone s ((hsteps s).2 hs)⟩
  · exact .inr ⟨s, error, state, (hsteps s).1 hs, hfails, herr, hleft s state hs hl⟩

theorem Runs.ok (h : Runs fails steps outcome done left)
    (hsteps : ∀ step, steps step → fails step = false) : outcome = (.ok (), done) := by
  rcases h with ⟨hok, _⟩ | ⟨s, _, _, hs, hfails, _⟩
  · exact hok
  · rw [hsteps s hs] at hfails
    cases hfails

/-- Undoing the entries of a stack from its top leads from one state to another. No undo fails, and
each one meets a state that `fits` it. -/
inductive Unwinds (undo : α → σ → Outcome ε σ) (fits : α → σ → Prop) : List α → σ → σ → Prop
  | nil : Unwinds undo fits [] s s
  | cons : undo entry s = (.ok (), t) → fits entry s → Unwinds undo fits rest t u →
      Unwinds undo fits (entry :: rest) s u

theorem Unwinds.append (hupper : Unwinds undo fits upper s t)
    (hlower : Unwinds undo fits lower t u) : Unwinds undo fits (upper ++ lower) s u := by
  induction hupper with
  | nil => exact hlower
  | cons hundo hfits _ ih => exact .cons hundo hfits (ih hlower)

theorem Unwinds.congr (h : Unwinds undo fits stack s t)
    (hundo : ∀ entry ∈ stack, undo' entry = undo entry) : Unwinds undo' fits stack s t := by
  induction h with
  | nil => exact .nil
  | cons hentry hfits _ ih =>
    apply Unwinds.cons _ hfits
    · exact ih fun entry hmem => hundo entry (.tail _ hmem)
    · rw [hundo _ (.head _)]
      exact hentry

end Heddle.Lib
