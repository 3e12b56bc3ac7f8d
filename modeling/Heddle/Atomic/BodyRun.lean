import Heddle.Atomic.Ledger

namespace Heddle.Atomic
open Heddle.Lib
open Heddle.Oplog

/-- The frame of a child that was enrolled from `frame` and has run. -/
structure Frame.Entered (frame child : Frame W) : Prop where
  start : child.start = frame.world
  view : child.view = { frame.view with depth := frame.view.depth + 1 }

theorem Tx.Quiet.entered_cells {tx tx' : Tx W}
    (hquiet : (tx.deeper.enrollWholeOp rewind).2.Quiet tx.cellCount tx') :
    ∀ c < tx.cellCount, tx'.cells c = tx.cells c := by
  intro c hc
  exact (hquiet.cells c hc).trans (Function.update_of_ne (Nat.ne_of_lt hc) _ _)

section
variable {tx tx' : Tx W} (h : tx.Carries mutation frame base)
include h

theorem Tx.Quiet.entered (hquiet : (tx.deeper.enrollWholeOp rewind).2.Quiet tx.cellCount tx') :
    tx.Quiet mutation tx'.shallower := by
  refine ⟨?_, hquiet.ran, hquiet.committed, hquiet.transactionId, hquiet.isolation⟩
  intro c hc
  exact hquiet.entered_cells c (Nat.lt_trans hc h.held)

theorem Tx.shallower_view (hview : tx'.ledgerView = child.view) (hentered : frame.Entered child) :
    tx'.shallower.ledgerView = tx.ledgerView := by
  rw [hentered.view] at hview
  have hscope : tx'.scope = frame.view.scope := congrArg RewindLedger.scope hview
  have hdepth : tx'.depth = frame.view.depth + 1 := congrArg RewindLedger.depth hview
  rw [h.view, Tx.ledgerView, Tx.shallower, hscope, hdepth, Nat.add_sub_cancel]

theorem Tx.Carries.leave (hsettled : frame.Settled)
    (hchild : tx'.Carries tx.cellCount child (tx.wholeOp :: tx.ledger))
    (hquiet : (tx.deeper.enrollWholeOp rewind).2.Quiet tx.cellCount tx')
    (hentered : frame.Entered child) (hchildSettled : child.Settled) :
    tx'.shallower.Carries mutation (frame.push child.world) base := by
  have hwhole : tx.wholeOp.undo tx'.cells = child.rewind child.view := by
    have hview : tx.deeper.ledgerView = child.view := by
      rw [hentered.view, ← h.view]
      rfl
    simp only [RewindAction.undo, Tx.wholeOp, hchild.cell, hview]
  obtain ⟨own, hledger, hunwinds, hcells⟩ :=
    hchild.unwinds hchildSettled hwhole tx.wholeOp_fits
  rw [hentered.start] at hunwinds
  refine h.push hsettled (own ++ [tx.wholeOp]) ?_ hchild.world (hchild.world ▸ hunwinds)
    (fun c hc => hquiet.entered_cells c hc) ?_ (Tx.shallower_view h hchild.view hentered)
    (Nat.le_of_lt hchild.held) (hchild.ordered.of_ledger rfl rfl rfl)
  · rw [List.append_assoc]
    exact hledger
  · intro action hmem c hc
    rcases List.mem_append.1 hmem with hmem | hmem
    · exact Nat.le_of_lt (hcells action hmem c hc)
    · rw [List.mem_singleton.1 hmem] at hc
      cases hc
      exact Nat.le_refl _

end

/-- The transaction once an eager child's compensator has replaced its whole-operation rewind. -/
def Tx.compensated (compensator : W → Outcome HeddleError W) (child : Nat) (tx : Tx W) : Tx W :=
  ((tx.onRewind "compensator" (.inverse compensator)).release child).shallower

theorem Tx.Carries.compensate {tx tx' : Tx W} (h : tx.Carries mutation frame base)
    (hsettled : frame.Settled)
    (hchild : tx'.Carries tx.cellCount child (tx.wholeOp :: tx.ledger))
    (hquiet : (tx.deeper.enrollWholeOp rewind).2.Quiet tx.cellCount tx')
    (hentered : frame.Entered child) (hcompensated : child.Compensated compensator) :
    (tx'.compensated compensator tx.cellCount).Carries mutation (frame.push child.world) base := by
  obtain ⟨own, hledger, howns, hcells⟩ := hchild.own
  have hfits : (⟨"compensator", .inverse compensator, tx'.registered, tx'.world⟩ :
      RewindAction W).Fits child.world := fun _ => hchild.world
  have hdead : Unwinds (RewindAction.undo (tx'.compensated compensator tx.cellCount).cells)
      RewindAction.Fits [tx.wholeOp] child.start frame.world := by
    apply Unwinds.cons _ (tx.wholeOp_fits _) .nil
    have hnone : (tx'.compensated compensator tx.cellCount).cells tx.cellCount = none :=
      Function.update_self _ _ _
    simp only [RewindAction.undo, Tx.wholeOp, hnone, hentered.start]
  have hunwinds : Unwinds (RewindAction.undo (tx'.compensated compensator tx.cellCount).cells)
      RewindAction.Fits
      (⟨"compensator", .inverse compensator, tx'.registered, tx'.world⟩ :: own ++ [tx.wholeOp])
      child.world frame.world := by
    unfold Frame.Owns at howns
    unfold Frame.Compensated at hcompensated
    cases hf : child.ledger with
    | none =>
      rw [hf] at howns hcompensated
      change own = [] at howns
      subst howns
      exact .cons hcompensated hfits hdead
    | some ledger =>
      obtain ⟨below, above⟩ := ledger
      rw [hf] at howns hcompensated
      obtain ⟨hbelow, habove⟩ := hcompensated
      subst hbelow
      apply Unwinds.cons habove hfits
      apply Unwinds.append _ hdead
      apply Unwinds.congr howns
      intro action hmem
      apply action.undo_congr
      intro c hc
      exact Function.update_of_ne (Nat.ne_of_gt (hcells action hmem c hc)) _ _
  have hview : tx'.shallower.ledgerView = tx.ledgerView :=
    Tx.shallower_view h hchild.view hentered
  refine h.push hsettled _ ?_ hchild.world hunwinds ?_ ?_ hview (Nat.le_of_lt hchild.held)
    ((hchild.ordered.onRewind_inverse "compensator" compensator).of_ledger rfl rfl rfl)
  · rw [List.append_assoc]
    exact congrArg _ hledger
  · intro c hc
    exact (Function.update_of_ne (Nat.ne_of_lt hc) _ _).trans (hquiet.entered_cells c hc)
  · intro action hmem c hc
    rcases List.mem_append.1 hmem with hmem | hmem
    · rcases List.mem_cons.1 hmem with rfl | hmem
      · cases hc
      · exact Nat.le_of_lt (hcells action hmem c hc)
    · rw [List.mem_singleton.1 hmem] at hc
      cases hc
      exact Nat.le_refl _

theorem Tx.Quiet.compensated {tx tx' : Tx W} (h : tx.Carries mutation frame base)
    (hquiet : (tx.deeper.enrollWholeOp rewind).2.Quiet tx.cellCount tx') :
    tx.Quiet mutation (tx'.compensated compensator tx.cellCount) := by
  refine ⟨?_, hquiet.ran, hquiet.committed, hquiet.transactionId, hquiet.isolation⟩
  intro c hc
  have hlt := Nat.lt_trans hc h.held
  exact (Function.update_of_ne (Nat.ne_of_lt hlt) _ _).trans (hquiet.entered_cells c hlt)

theorem Body.effect_same (body : Body W ρ) (frame : Frame W) :
    (body.effect frame).2.start = frame.start ∧ (body.effect frame).2.view = frame.view := by
  induction body generalizing frame with
  | done result => exact ⟨rfl, rfl⟩
  | stage act next ih => exact ih _ _
  | step forward inverse next ih =>
    simp only [Body.effect]
    split
    · exact ih _ _
    · exact ih _ _
  | stepNonatomic capture restore forward next ih =>
    simp only [Body.effect]
    split
    · exact ih _ _
    · exact ih _ _
  | enroll rewind apply next _ ih => exact ih _ _
  | enrollEager rewind apply commitEager next _ _ ih =>
    simp only [Body.effect]
    split
    · exact ih _ _
    · split
      · exact ih _ _
      · exact ih _ _

theorem Tx.Carries.stage {tx : Tx W} (h : tx.Carries mutation frame base)
    (act : W → Rewind W → Except HeddleError α × W × Rewind W) :
    ∃ tx', tx.stage act mutation = ((act frame.world frame.rewind).1, tx') ∧
      tx.Quiet mutation tx' ∧
      tx'.Carries mutation { frame with
        world := (act frame.world frame.rewind).2.1
        rewind := (act frame.world frame.rewind).2.2 } base := by
  obtain ⟨own, hledger, howns, habove⟩ := h.own
  refine ⟨{ tx with
    world := (act frame.world frame.rewind).2.1
    cells := Function.update tx.cells mutation (some (act frame.world frame.rewind).2.2) },
    ?_, ?_, ?_⟩
  · simp only [Tx.stage, h.cell, h.world]
  · refine ⟨?_, rfl, rfl, rfl, rfl⟩
    intro c hc
    exact Function.update_of_ne (Nat.ne_of_lt hc) _ _
  · refine ⟨rfl, h.view, Function.update_self _ _ _, h.held, ⟨own, hledger, ?_, habove⟩,
      h.ordered.of_ledger rfl rfl rfl⟩
    unfold Frame.Owns at howns ⊢
    cases hf : frame.ledger with
    | none =>
      rw [hf] at howns
      exact howns
    | some ledger =>
      rw [hf] at howns
      apply Unwinds.congr howns
      intro action hmem
      apply action.undo_congr
      intro c hc
      exact Function.update_of_ne (Nat.ne_of_gt (habove action hmem c hc)) _ _

def Ends (post : ρ → Frame W → Prop) : Except HeddleError ρ × Frame W → Prop
  | (.error _, frame) => frame.Settled
  | (.ok value, frame) => post value frame

/-- Running the code in a transaction has the code's effect, and keeps the ledger such that it leads
back to where the mutation started. -/
def Body.Unwindable (body : Body W ρ) : Prop :=
  ∀ ⦃post : ρ → Frame W → Prop⦄ ⦃mutation : Nat⦄ ⦃frame : Frame W⦄ ⦃base : List (RewindAction W)⦄
    ⦃tx : Tx W⦄, tx.Carries mutation frame base → body.Restores post frame →
    ∃ tx', body.run mutation tx = ((body.effect frame).1, tx') ∧
      tx'.Carries mutation (body.effect frame).2 base ∧ tx.Quiet mutation tx' ∧
      Ends post (body.effect frame)

theorem Body.Unwindable.enter {apply : Body W τ} (h : apply.Unwindable) {tx : Tx W}
    (htx : tx.Carries mutation frame base) (rewind : Rewind W) {post : τ → Frame W → Prop}
    (hrestores : apply.Restores post (frame.enter rewind)) :
    ∃ tx', tx.deeper.enrollThenApply rewind apply.run =
        (tx.cellCount, (apply.effect (frame.enter rewind)).1, tx') ∧
      tx'.Carries tx.cellCount (apply.effect (frame.enter rewind)).2 (tx.wholeOp :: tx.ledger) ∧
      (tx.deeper.enrollWholeOp rewind).2.Quiet tx.cellCount tx' ∧
      frame.Entered (apply.effect (frame.enter rewind)).2 ∧
      Ends post (apply.effect (frame.enter rewind)) := by
  obtain ⟨tx', hrun, hcarries, hquiet, hends⟩ := h (htx.enter rewind) hrestores
  obtain ⟨hstart, hview⟩ := apply.effect_same (frame.enter rewind)
  exact ⟨tx', Prod.ext rfl hrun, hcarries, hquiet, ⟨hstart, hview⟩, hends⟩

theorem Ends.settled (h : Ends (fun _ => Frame.Settled) outcome) : outcome.2.Settled := by
  obtain ⟨result, frame⟩ := outcome
  cases result with
  | error error => exact h
  | ok value => exact h

theorem Body.Unwindable.after {next : Body W ρ} (h : next.Unwindable) {post : ρ → Frame W → Prop}
    {tx tx₁ : Tx W} (hquiet : tx.Quiet mutation tx₁) (htx₁ : tx₁.Carries mutation frame base)
    (hrestores : next.Restores post frame) :
    ∃ tx', next.run mutation tx₁ = ((next.effect frame).1, tx') ∧
      tx'.Carries mutation (next.effect frame).2 base ∧ tx.Quiet mutation tx' ∧
      Ends post (next.effect frame) := by
  obtain ⟨tx', hrun, htx', hquiet', hends⟩ := h htx₁ hrestores
  exact ⟨tx', hrun, htx', hquiet.trans hquiet', hends⟩

theorem Body.unwindable (body : Body W ρ) : body.Unwindable := by
  induction body with
  | done result =>
    intro post mutation frame base tx htx hrestores
    refine ⟨tx, rfl, htx, .refl _ _, ?_⟩
    cases result with
    | error error => exact hrestores
    | ok value => exact hrestores
  | stage act next ih =>
    intro post mutation frame base tx htx hrestores
    obtain ⟨tx₁, hstage, hquiet, htx₁⟩ := htx.stage act
    simp only [Body.run, hstage]
    exact (ih _).after hquiet htx₁ hrestores
  | step forward inverse next ih =>
    intro post mutation frame base tx htx hrestores
    simp only [Body.run, Tx.step, htx.world]
    simp only [Body.Restores] at hrestores
    simp only [Body.effect]
    cases hforward : forward frame.world with
    | mk result world =>
      rw [hforward] at hrestores
      cases result with
      | error error =>
        obtain ⟨hworld, hrestores⟩ := hrestores
        subst hworld
        exact (ih _).after ((Tx.Quiet.world mutation tx _).report _) (htx.unchanged.report _)
          hrestores
      | ok value =>
        obtain ⟨hsettled, hinverse, hrestores⟩ := hrestores
        exact (ih _).after (.logged mutation tx "step" inverse world world)
          (htx.logged hsettled "step" hinverse fun _ => rfl) hrestores
  | stepNonatomic capture restore forward next ih =>
    intro post mutation frame base tx htx hrestores
    simp only [Body.run, Tx.stepNonatomic, htx.world]
    simp only [Body.Restores] at hrestores
    simp only [Body.effect]
    cases hcapture : capture frame.world with
    | mk result world =>
      rw [hcapture] at hrestores
      cases result with
      | error error =>
        obtain ⟨hworld, hrestores⟩ := hrestores
        subst hworld
        exact (ih _).after ((Tx.Quiet.world mutation tx _).report _) (htx.unchanged.report _)
          hrestores
      | ok snapshot =>
        obtain ⟨hworld, hsettled, hrestore, hrestores⟩ := hrestores
        subst hworld
        have hfits : "step_nonatomic" = "step" ∨ "step_nonatomic" = "compensator" →
            frame.world = (forward frame.world).2 :=
          fun h => absurd h (by decide)
        exact (ih _).after
          ((Tx.Quiet.logged mutation tx "step_nonatomic" (restore snapshot) _ _).report _)
          ((htx.logged hsettled "step_nonatomic" hrestore hfits).report _) hrestores
  | enroll rewind apply next ihApply ih =>
    intro post mutation frame base tx htx hrestores
    obtain ⟨hsettled, happly, hrestores⟩ := hrestores
    obtain ⟨tx₁, henroll, hchild, hquiet, hentered, hends⟩ := ihApply.enter htx rewind happly
    simp only [Body.run, Tx.enroll, henroll]
    exact (ih _).after ((hquiet.entered htx).report _)
      ((htx.leave hsettled hchild hquiet hentered hends.settled).report _) hrestores
  | enrollEager rewind apply commitEager next ihApply ihCommit ih =>
    intro post mutation frame base tx htx hrestores
    simp only [Body.Restores] at hrestores
    obtain ⟨hsettled, happly, hrestores⟩ := hrestores
    obtain ⟨tx₁, henroll, hchild, hquiet, hentered, hends⟩ := ihApply.enter htx rewind happly
    simp only [Body.run, Tx.enrollEager, henroll]
    simp only [Body.effect]
    generalize happlied : apply.effect (frame.enter rewind) = applied at *
    obtain ⟨staged, child⟩ := applied
    cases staged with
    | error error =>
      exact (ih _).after ((hquiet.entered htx).report _)
        ((htx.leave hsettled hchild hquiet hentered hends).report _) hrestores
    | ok staged =>
      obtain ⟨tx₂, hcommit, hchild₂, hquiet₂, hends₂⟩ := ihCommit staged hchild hends
      obtain ⟨hstart, hview⟩ := (commitEager staged).effect_same child
      have hentered₂ : frame.Entered ((commitEager staged).effect child).2 :=
        ⟨hstart.trans hentered.start, hview.trans hentered.view⟩
      have hquiet' := hquiet.trans hquiet₂
      simp only [hcommit]
      simp only at hrestores
      generalize (commitEager staged).effect child = committed at *
      obtain ⟨compensator, child₂⟩ := committed
      cases compensator with
      | error error =>
        exact (ih _).after ((hquiet'.entered htx).report _)
          ((htx.leave hsettled hchild₂ hquiet' hentered₂ hends₂).report _) hrestores
      | ok compensator =>
        exact (ih _).after (.compensated htx hquiet')
          (htx.compensate hsettled hchild₂ hquiet' hentered₂ hends₂) hrestores

theorem Tx.stage_failed (act : W → Rewind W → Except HeddleError α × W × Rewind W)
    (mutation : Nat) (tx : Tx W) : (tx.stage act mutation).2.failed = tx.failed := by
  unfold Tx.stage
  split
  · rfl
  · rfl

theorem Tx.report_failed (h : (Tx.report result tx).1 = .ok value) :
    (Tx.report result tx).2.failed = tx.failed := by
  replace h : result = .ok value := h
  subst h
  exact Bool.or_false _

theorem Tx.step_failed {inverse : W → Outcome HeddleError W} {tx : Tx W}
    (h : (tx.step forward inverse).1 = .ok value) :
    (tx.step forward inverse).2.failed = tx.failed := by
  unfold Tx.step at h ⊢
  split
  · rename_i heq
    rw [heq] at h
    cases h
  · rfl

theorem Tx.stepNonatomic_failed {forward : W → Except HeddleError α × W} {tx : Tx W}
    (h : (tx.stepNonatomic capture restore forward).1 = .ok value) :
    (tx.stepNonatomic capture restore forward).2.failed = tx.failed := by
  unfold Tx.stepNonatomic at h ⊢
  split
  · rename_i heq
    rw [heq] at h
    cases h
  · rename_i heq
    rw [heq] at h
    exact Tx.report_failed h

theorem Body.ok_of_leaves {next : Except HeddleError τ → Body W ρ}
    (hleaves : ∀ error, ∃ error', next (.error error) = .done (.error error'))
    (hrun : (next result).run mutation tx = (.ok value, tx')) :
    ∃ v, result = .ok v := by
  cases result with
  | ok v => exact ⟨v, rfl⟩
  | error error =>
    obtain ⟨error', hnext⟩ := hleaves error
    rw [hnext] at hrun
    cases hrun

theorem Body.Propagates.failed {body : Body W ρ} (h : body.Propagates) {mutation : Nat} {tx : Tx W}
    {value : ρ} {tx' : Tx W} (hrun : body.run mutation tx = (.ok value, tx')) :
    tx'.failed = tx.failed := by
  induction body generalizing mutation tx tx' with
  | done result =>
    cases hrun
    rfl
  | stage act next ih =>
    exact (ih _ (h _) hrun).trans (tx.stage_failed act mutation)
  | step forward inverse next ih =>
    obtain ⟨hleaves, hnext⟩ := h
    obtain ⟨v, hv⟩ := Body.ok_of_leaves hleaves hrun
    have hrest := ih _ (hv ▸ hnext v) hrun
    exact hrest.trans (Tx.step_failed hv)
  | stepNonatomic capture restore forward next ih =>
    obtain ⟨hleaves, hnext⟩ := h
    obtain ⟨v, hv⟩ := Body.ok_of_leaves hleaves hrun
    have hrest := ih _ (hv ▸ hnext v) hrun
    exact hrest.trans (Tx.stepNonatomic_failed hv)
  | enroll rewind apply next ihApply ih =>
    obtain ⟨happly, hleaves, hnext⟩ := h
    obtain ⟨v, hv⟩ := Body.ok_of_leaves hleaves hrun
    have hrest := ih _ (hv ▸ hnext v) hrun
    have hchild := ihApply happly (Prod.ext hv rfl)
    exact (hrest.trans (Tx.report_failed hv)).trans hchild
  | enrollEager rewind apply commitEager next ihApply ihCommit ih =>
    obtain ⟨happly, hcommit, hleaves, hnext⟩ := h
    obtain ⟨v, hv⟩ := Body.ok_of_leaves hleaves hrun
    have hrest := ih _ (hv ▸ hnext v) hrun
    rw [hrest]
    split
    · rename_i heq
      rw [heq] at hv
      cases hv
    · rename_i m staged tx₁ heq
      rw [heq] at hv
      have hchild := ihApply happly (congrArg Prod.snd heq)
      split
      · rename_i hcommitted
        simp only [hcommitted] at hv
        cases hv
      · rename_i hcommitted
        exact (ihCommit staged (hcommit staged) hcommitted).trans hchild

structure RootMutation (W Out : Type) where
  isolationKeys : Except HeddleError (List IsolationKey)
  rewind : Rewind W
  apply : Body W (StagedCommit Out)
  reconstructCommittedOutput : List OpRecord → Out → Except HeddleError Out

structure Repository where
  opScope : String
  headId : Nat → Except HeddleError Nat
  append : Nat → AppendBatch
  debugKey : IsolationKey → String

def rewindError (original : HeddleError) (tx : Tx W) : Except HeddleError α × Tx W :=
  match tx.rewindAll with
  | (.ok (), tx) => (.error original, tx)
  | (.error rewindErr, tx) =>
    (.error (.conflict ("transaction failed: " ++ original.display ++ "; rewind failed: " ++
      rewindErr.display)), tx)

def maxAttempts : Nat := 4

/-- An attempt either makes the executor return or makes it try again. -/
inductive Verdict (Out : Type) where
  | returned (result : Except HeddleError Out)
  | retry

def isolationMessage (repo : Repository) (tx : Tx W) (key : IsolationKey) (since entry : Nat) :
    String :=
  "transaction " ++ tx.transactionId ++ " isolation conflict on " ++ repo.debugKey key ++
    " since head " ++ toString since ++ " at oplog entry " ++ toString entry

def commitStaged (repo : Repository) (number : Nat) (m : RootMutation W Out)
    (staged : StagedCommit Out) (tx : Tx W) : Verdict Out × Tx W :=
  match tx.commit (repo.append number) staged.oplog with
  | (.ok .committed, tx) => (.returned (.ok staged.output), tx)
  | (.ok (.alreadyCommitted prior), tx) =>
    let reconstructed := m.reconstructCommittedOutput prior staged.output
    let (rewound, tx) := tx.rewindAll
    match reconstructed, rewound with
    | .ok output, .ok () => (.returned (.ok output), tx)
    | .ok _, .error rewindErr =>
      (.returned (.error (.conflict ("transaction " ++ tx.transactionId ++
        " was already committed, but replay rewind failed: " ++ rewindErr.display))), tx)
    | .error error, _ => (.returned (.error error), tx)
  | (.ok (.isolationConflict key since entry), tx) =>
    match tx.rewindAll with
    | (.error rewindErr, tx) =>
      (.returned (.error (.conflict (isolationMessage repo tx key since entry ++
        "; rewind failed: " ++ rewindErr.display))), tx)
    | (.ok (), tx) =>
      if number + 1 = maxAttempts then
        (.returned (.error (.conflict (isolationMessage repo tx key since entry ++ " after " ++
          toString maxAttempts ++ " attempts"))), tx)
      else (.retry, tx)
  | (.error error, tx) =>
    let (result, tx) := rewindError error tx
    (.returned result, tx)

structure Attempt (W Out : Type) where
  number : Nat
  started : W
  applied : Except HeddleError (StagedCommit Out)
  staged : Tx W
  final : Tx W
  verdict : Verdict Out

def attempt (repo : Repository) (m : RootMutation W Out) (transactionId : String) (number : Nat)
    (isolation : IsolationPrecondition) (world : W) : Attempt W Out :=
  let tx := Tx.begin repo.opScope transactionId isolation world
  let (root, tx) := tx.enrollRoot m.rewind
  let (applied, staged) := m.apply.run root tx
  let (verdict, tx) : Verdict Out × Tx W :=
    match applied with
    | .error error =>
      let (result, tx) := rewindError error staged
      (.returned result, tx)
    | .ok commit => commitStaged repo number m commit staged
  { number, started := world, applied, staged, final := tx.drop, verdict }

/-- How a run of the executor ends. `none` stands for the panic after the last attempt. -/
structure Execution (W Out : Type) where
  result : Option (Except HeddleError Out)
  world : W
  attempts : List (Attempt W Out)

/-- The attempts from `number` on. `m number` is the root mutation as that attempt finds it. -/
def executeFrom (repo : Repository) (m : Nat → RootMutation W Out) (transactionId : String) :
    Nat → Nat → W → Execution W Out
  | 0, _, world => ⟨none, world, []⟩
  | left + 1, number, world =>
    match (m number).isolationKeys, repo.headId number with
    | .error error, _ => ⟨some (.error error), world, []⟩
    | .ok _, .error error => ⟨some (.error error), world, []⟩
    | .ok keys, .ok sinceHeadId =>
      let made := attempt repo (m number) transactionId number ⟨sinceHeadId, keys⟩ world
      match made.verdict with
      | .returned result => ⟨some result, made.final.world, [made]⟩
      | .retry =>
        let rest := executeFrom repo m transactionId left (number + 1) made.final.world
        { rest with attempts := made :: rest.attempts }

def executeAttempts (repo : Repository) (m : Nat → RootMutation W Out) (transactionId : String)
    (world : W) : Execution W Out :=
  executeFrom repo m transactionId maxAttempts 0 world

end Heddle.Atomic
