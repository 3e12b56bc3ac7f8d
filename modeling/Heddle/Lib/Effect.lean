import Mathlib.Algebra.Order.BigOperators.Group.List

namespace Heddle.Lib

/-- A computation that can fail and that keeps the state it reached when it does. -/
abbrev Effect (σ ε α : Type) := ExceptT ε (StateM σ) α

namespace Effect

def failIf (c : Prop) [Decidable c] (e : ε) : Effect σ ε Unit := if c then throw e else pure ()

def ofExcept (describe : ε' → ε) : Except ε' α → Effect σ ε α
  | .ok a => pure a
  | .error e => throw (describe e)

end Effect

/-- What a computation of a given cost may do to the state, and which errors it may end in when it
starts there. -/
structure Accounting (σ ε κ : Type) [AddCommMonoid κ] [PartialOrder κ] where
  keeps : κ → σ → σ → Prop
  excused : κ → σ → ε → Prop
  keeps_zero : keeps 0 s s
  keeps_add : keeps a s t → keeps b t u → keeps (a + b) s u
  keeps_mono : a ≤ b → keeps a s t → keeps b s t
  excused_mono : a ≤ b → excused a s e → excused b s e
  excused_after : keeps a s t → excused b t e → excused (a + b) s e

variable {σ ε κ : Type} [AddCommMonoid κ] [PartialOrder κ]

/-- From `s` the computation keeps within its cost; it ends with what `Q` allows or in an excused
error. -/
def Ends (acc : Accounting σ ε κ) (cost : κ) (x : Effect σ ε α) (s : σ) (Q : α → σ → Prop) :
    Prop :=
  acc.keeps cost s (x.run s).2 ∧
    match (x.run s).1 with
    | .ok a => Q a (x.run s).2
    | .error e => acc.excused cost s e

namespace Ends
variable {acc : Accounting σ ε κ} {s : σ}

theorem pure {a : α} (h : Q a s) :
    Ends acc 0 (Pure.pure a : Effect σ ε α) s Q :=
  ⟨acc.keeps_zero, h⟩

theorem throw (h : acc.excused 0 s e) :
    Ends acc 0 (MonadExcept.throw e : Effect σ ε α) s Q :=
  ⟨acc.keeps_zero, h⟩

theorem ok (hrun : x.run s = (.ok a, t)) (hkeeps : acc.keeps cost s t) (h : Q a t) :
    Ends acc cost x s Q := by
  unfold Ends
  rw [hrun]
  exact ⟨hkeeps, h⟩

theorem error (hrun : x.run s = (.error e, t)) (hkeeps : acc.keeps cost s t)
    (h : acc.excused cost s e) : Ends acc cost x s Q := by
  unfold Ends
  rw [hrun]
  exact ⟨hkeeps, h⟩

theorem of_ok (h : Ends acc cost x s Q) (hrun : x.run s = (.ok a, s')) :
    acc.keeps cost s s' ∧ Q a s' := by
  obtain ⟨hkeeps, hend⟩ := h
  rw [hrun] at hkeeps hend
  exact ⟨hkeeps, hend⟩

theorem of_error (h : Ends acc cost x s Q) (hrun : x.run s = (.error e, s')) :
    acc.keeps cost s s' ∧ acc.excused cost s e := by
  obtain ⟨hkeeps, hend⟩ := h
  rw [hrun] at hkeeps hend
  exact ⟨hkeeps, hend⟩

theorem mono (h : Ends acc cost x s Q) (hcost : cost ≤ cost')
    (himp : ∀ a t, acc.keeps cost s t → Q a t → Q' a t) :
    Ends acc cost' x s Q' := by
  obtain ⟨hkeeps, hend⟩ := h
  refine ⟨acc.keeps_mono hcost hkeeps, ?_⟩
  cases hresult : (x.run s).1 with
  | ok a =>
    rw [hresult] at hend
    exact himp a _ hkeeps hend
  | error e =>
    rw [hresult] at hend
    exact acc.excused_mono hcost hend

theorem weaken (h : Ends acc cost x s Q) (hcost : cost ≤ cost') : Ends acc cost' x s Q :=
  h.mono hcost fun _ _ _ hpost => hpost

theorem excuse (h : Ends acc cost x s Q) (hkeeps : ∀ t, acc.keeps cost s t → acc'.keeps cost s t)
    (hexcused : ∀ e, acc.excused cost s e → acc'.excused cost s e) : Ends acc' cost x s Q := by
  obtain ⟨hkept, hend⟩ := h
  refine ⟨hkeeps _ hkept, ?_⟩
  cases hresult : (x.run s).1 with
  | ok a =>
    rw [hresult] at hend
    exact hend
  | error e =>
    rw [hresult] at hend
    exact hexcused e hend

theorem failIf [Decidable c] (h : c → acc.excused 0 s e) :
    Ends acc 0 (Effect.failIf c e : Effect σ ε Unit) s fun _ t => ¬ c ∧ t = s := by
  by_cases hc : c
  · rw [Effect.failIf, if_pos hc]
    exact throw (h hc)
  · rw [Effect.failIf, if_neg hc]
    exact pure ⟨hc, rfl⟩

variable [CanonicallyOrderedAdd κ]

theorem bind (h : Ends acc a x s Q)
    (hnext : ∀ r t, acc.keeps a s t → Q r t → Ends acc b (f r) t Q') :
    Ends acc (a + b) (x >>= f) s Q' := by
  obtain ⟨hkeeps, hend⟩ := h
  have hrun : (x >>= f).run s = match x.run s with
      | (.ok r, t) => (f r).run t
      | (.error e, t) => (.error e, t) := by
    change (ExceptT.bindCont f (x s).1) (x s).2 = _
    cases hx : x s with
    | mk result t =>
      change _ = match x s with
        | (.ok r, t) => (f r).run t
        | (.error e, t) => (.error e, t)
      rw [hx]
      cases result <;> rfl
  cases hx : x.run s with
  | mk result t =>
    rw [hx] at hrun hkeeps hend
    unfold Ends
    rw [hrun]
    cases result with
    | ok r =>
      obtain ⟨hkeeps', hend'⟩ := hnext r t hkeeps hend
      refine ⟨acc.keeps_add hkeeps hkeeps', ?_⟩
      change match ((f r).run t).1 with
        | .ok r' => Q' r' ((f r).run t).2
        | .error e => acc.excused (a + b) s e
      cases hresult : ((f r).run t).1 with
      | ok r' =>
        rw [hresult] at hend'
        exact hend'
      | error e =>
        rw [hresult] at hend'
        exact acc.excused_after hkeeps hend'
    | error e => exact ⟨acc.keeps_mono le_self_add hkeeps, acc.excused_mono le_self_add hend⟩

theorem foldlM {I : List α → β → σ → Prop} {c : α → κ} (h : I [] b s)
    (hstep : ∀ before x after, xs = before ++ x :: after → ∀ r t, I before r t →
      Ends acc (c x) (f r x) t (I (before ++ [x]))) :
    Ends acc (xs.map c).sum (xs.foldlM f b) s (I xs) := by
  have hrest : ∀ after before r t, xs = before ++ after → I before r t →
      Ends acc (after.map c).sum (after.foldlM f r) t (I xs) := by
    intro after
    induction after with
    | nil =>
      intro before r t hxs hinv
      rw [List.append_nil] at hxs
      subst hxs
      exact pure hinv
    | cons x after ih =>
      intro before r t hxs hinv
      rw [List.foldlM_cons, List.map_cons, List.sum_cons]
      apply (hstep before x after hxs r t hinv).bind
      intro r' t' _ hinv'
      apply ih (before ++ [x]) r' t' _ hinv'
      rw [hxs, List.append_assoc, List.singleton_append]
  exact hrest xs [] b s rfl h

end Ends

end Heddle.Lib
