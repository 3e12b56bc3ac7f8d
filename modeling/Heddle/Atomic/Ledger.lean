import Heddle.Atomic.Tx

namespace Heddle.Atomic
open Heddle.Lib List
open Heddle.Oplog

def RewindFn.cell : RewindFn W → Option Nat
  | .inverse _ => none
  | .wholeOp mutation _ | .root mutation _ => some mutation

def RewindAction.undo (cells : Nat → Option (Rewind W)) (action : RewindAction W) :
    W → Outcome HeddleError W :=
  match action.run with
  | .inverse run => run
  | .wholeOp mutation ledger | .root mutation ledger =>
    match cells mutation with
    | none => fun world => (.ok (), world)
    | some rewind => rewind ledger

/-- The inverse of a step and a compensator run on the very effects that the forward left. -/
def RewindAction.Fits (action : RewindAction W) (world : W) : Prop :=
  action.label = "step" ∨ action.label = "compensator" → action.registeredAt = world

/-- The entry still has an inverse to run: its mutation has not been taken out of its cell. -/
def RewindAction.live (cells : Nat → Option (Rewind W)) (action : RewindAction W) : Bool :=
  match action.run.cell with
  | none => true
  | some mutation => (cells mutation).isSome

theorem RewindAction.undo_congr {action : RewindAction W}
    (h : ∀ mutation ∈ action.run.cell, cells' mutation = cells mutation) :
    action.undo cells' = action.undo cells := by
  obtain ⟨label, run, serial, registeredAt⟩ := action
  cases run with
  | inverse run => rfl
  | wholeOp mutation ledger | root mutation ledger =>
    have hcell : cells' mutation = cells mutation := h mutation rfl
    simp only [undo, hcell]

theorem RewindAction.live_congr {action : RewindAction W}
    (h : ∀ mutation ∈ action.run.cell, cells' mutation = cells mutation) :
    action.live cells' = action.live cells := by
  obtain ⟨label, run, serial, registeredAt⟩ := action
  cases run with
  | inverse run => rfl
  | wholeOp mutation ledger | root mutation ledger =>
    have hcell : cells' mutation = cells mutation := h mutation rfl
    simp only [live, RewindFn.cell, hcell]

structure Tx.Ordered (tx : Tx W) : Prop where
  serials : tx.ledger.Pairwise fun upper lower => lower.serial < upper.serial
  cells : tx.ledger.Pairwise fun upper lower =>
    ∀ c ∈ upper.run.cell, ∀ d ∈ lower.run.cell, d < c
  serial_lt : ∀ action ∈ tx.ledger, action.serial < tx.registered
  cell_lt : ∀ action ∈ tx.ledger, ∀ c ∈ action.run.cell, c < tx.cellCount

theorem Tx.Ordered.begin (scope id : String) (isolation : IsolationPrecondition) (world : W) :
    (Tx.begin scope id isolation world).Ordered :=
  ⟨.nil, .nil, fun _ h => absurd h not_mem_nil, fun _ h => absurd h not_mem_nil⟩

theorem Tx.Ordered.of_ledger {tx tx' : Tx W} (h : tx.Ordered) (hledger : tx'.ledger = tx.ledger)
    (hregistered : tx'.registered = tx.registered) (hcount : tx'.cellCount = tx.cellCount) :
    tx'.Ordered := by
  obtain ⟨serials, cells, serial_lt, cell_lt⟩ := h
  apply Tx.Ordered.mk
  · rw [hledger]
    exact serials
  · rw [hledger]
    exact cells
  · rw [hledger, hregistered]
    exact serial_lt
  · rw [hledger, hcount]
    exact cell_lt

theorem Tx.Ordered.onRewind_inverse {tx : Tx W} (h : tx.Ordered) (label : String)
    (inverse : W → Outcome HeddleError W) : (tx.onRewind label (.inverse inverse)).Ordered := by
  apply Tx.Ordered.mk
  · exact pairwise_cons.2 ⟨fun a ha => h.serial_lt a ha, h.serials⟩
  · exact pairwise_cons.2 ⟨fun _ _ c hc => absurd hc (by simp [RewindFn.cell]), h.cells⟩
  · intro a ha
    rcases mem_cons.1 ha with rfl | ha
    · exact Nat.lt_succ_self _
    · exact Nat.lt_succ_of_lt (h.serial_lt a ha)
  · intro a ha c hc
    rcases mem_cons.1 ha with rfl | ha
    · exact absurd hc (by simp [RewindFn.cell])
    · exact h.cell_lt a ha c hc

theorem Tx.Ordered.onRewind_share {tx : Tx W} (h : tx.Ordered) (rewind : Rewind W)
    (label : String) (hrun : run.cell = some tx.cellCount) :
    ((tx.share rewind).2.onRewind label run).Ordered := by
  apply Tx.Ordered.mk
  · exact pairwise_cons.2 ⟨fun a ha => h.serial_lt a ha, h.serials⟩
  · apply pairwise_cons.2 ⟨_, h.cells⟩
    intro a ha c hc d hd
    rw [hrun] at hc
    cases hc
    exact h.cell_lt a ha d hd
  · intro a ha
    rcases mem_cons.1 ha with rfl | ha
    · exact Nat.lt_succ_self _
    · exact Nat.lt_succ_of_lt (h.serial_lt a ha)
  · intro a ha c hc
    rcases mem_cons.1 ha with rfl | ha
    · rw [hrun] at hc
      cases hc
      exact Nat.lt_succ_self _
    · exact Nat.lt_succ_of_lt (h.cell_lt a ha c hc)

def Tx.undone (serial : Nat) (world : W) (tx : Tx W) : Tx W :=
  { tx with world, ran := tx.ran ++ [(serial, tx.world)] }

theorem Tx.runInverse_ok (tx : Tx W) {world : W} (h : inverse tx.world = (.ok (), world))
    (serial : Nat) :
    tx.runInverse serial inverse = (.ok (), tx.undone serial world) := by
  simp only [runInverse, h, undone]

theorem RewindAction.invoke_ok {action : RewindAction W}
    (h : action.undo tx.cells tx.world = (.ok (), world)) :
    ∃ tx', action.invoke tx = (.ok (), tx') ∧ tx'.world = world ∧
      (∀ c, c ∉ action.run.cell → tx'.cells c = tx.cells c) ∧
      tx'.ran = tx.ran ++ (if action.live tx.cells then [(action.serial, tx.world)] else []) ∧
      tx'.ledger = tx.ledger ∧ tx'.committed = tx.committed := by
  obtain ⟨label, run, serial, registeredAt⟩ := action
  cases run with
  | inverse run =>
    exact ⟨tx.undone serial world, tx.runInverse_ok h serial, rfl, fun _ _ => rfl, rfl, rfl, rfl⟩
  | wholeOp mutation ledger =>
    cases hcell : tx.cells mutation with
    | none =>
      simp only [undo, hcell, Prod.mk.injEq, true_and] at h
      refine ⟨tx, by simp only [invoke, hcell], h, fun _ _ => rfl, ?_, rfl, rfl⟩
      simp only [live, RewindFn.cell, hcell, Option.isSome_none, Bool.false_eq_true, if_false,
        append_nil]
    | some rewind =>
      simp only [undo, hcell] at h
      have hrun : (tx.release mutation).runInverse serial (rewind ledger) =
          (.ok (), (tx.release mutation).undone serial world) := Tx.runInverse_ok (tx.release mutation) h serial
      refine ⟨(tx.release mutation).undone serial world, ?_, rfl, ?_, ?_, rfl, rfl⟩
      · simp only [invoke, hcell, hrun]
      · intro c hc
        have hne : c ≠ mutation := fun heq => hc (heq ▸ rfl)
        exact Function.update_of_ne hne _ _
      · simp only [live, RewindFn.cell, hcell, Option.isSome_some, if_true]
        rfl
  | root mutation ledger =>
    cases hcell : tx.cells mutation with
    | none =>
      simp only [undo, hcell, Prod.mk.injEq, true_and] at h
      refine ⟨tx, by simp only [invoke, hcell], h, fun _ _ => rfl, ?_, rfl, rfl⟩
      simp only [live, RewindFn.cell, hcell, Option.isSome_none, Bool.false_eq_true, if_false,
        append_nil]
    | some rewind =>
      simp only [undo, hcell] at h
      refine ⟨tx.undone serial world, ?_, rfl, fun _ _ => rfl, ?_, rfl, rfl⟩
      · simp only [invoke, hcell, tx.runInverse_ok h]
      · simp only [live, RewindFn.cell, hcell, Option.isSome_some, if_true]
        rfl

/-- An inverse that ran is the one of its entry, on effects that fit it. -/
def RewindAction.Ran (action : RewindAction W) (run : Nat × W) : Prop :=
  run.1 = action.serial ∧ action.Fits run.2

/-- Rewinding a ledger that leads back somewhere gets there. The inverses that run are those of the
live entries, each once and from the top. -/
theorem rewindEach_ok {ledger : List (RewindAction W)}
    (h : Unwinds (RewindAction.undo cells) RewindAction.Fits ledger world target)
    (hcells : ledger.Pairwise fun upper lower =>
      ∀ c ∈ upper.run.cell, ∀ d ∈ lower.run.cell, d < c)
    (tx : Tx W) (hworld : tx.world = world)
    (htx : ∀ action ∈ ledger, ∀ c ∈ action.run.cell, tx.cells c = cells c) :
    ∃ tx' runs, rewindEach ledger none tx = (none, tx') ∧ tx'.world = target ∧
      tx'.ran = tx.ran ++ runs ∧
      List.Forall₂ RewindAction.Ran (ledger.filter (RewindAction.live cells)) runs ∧
      tx'.ledger = tx.ledger ∧ tx'.committed = tx.committed := by
  induction h generalizing tx with
  | nil => exact ⟨tx, [], rfl, hworld, (append_nil _).symm, .nil, rfl, rfl⟩
  | @cons action s t rest u hundo hfits _ ih =>
    subst hworld
    obtain ⟨habove, hrest⟩ := pairwise_cons.1 hcells
    have hown := htx action (.head _)
    rw [← action.undo_congr hown] at hundo
    obtain ⟨tx₁, hinvoke, hworld₁, hcells₁, hran₁, hledger₁, hcommitted₁⟩ :=
      action.invoke_ok hundo
    have htx₁ : ∀ a ∈ rest, ∀ c ∈ a.run.cell, tx₁.cells c = cells c := by
      intro a ha c hc
      rw [hcells₁ c fun hc' => Nat.lt_irrefl c (habove a ha c hc' c hc)]
      exact htx a (.tail _ ha) c hc
    obtain ⟨tx₂, runs, heach, hworld₂, hran₂, hruns, hledger₂, hcommitted₂⟩ :=
      ih hrest tx₁ hworld₁ htx₁
    have hlive : action.live cells = action.live tx.cells :=
      action.live_congr fun c hc => (hown c hc).symm
    refine ⟨tx₂, (if action.live tx.cells then [(action.serial, tx.world)] else []) ++ runs, ?_,
      hworld₂, ?_, ?_, hledger₂.trans hledger₁, hcommitted₂.trans hcommitted₁⟩
    · simp only [rewindEach, hinvoke, heach]
    · rw [hran₂, hran₁, append_assoc]
    · rw [filter_cons, hlive]
      by_cases hl : action.live tx.cells = true
      · rw [if_pos hl, if_pos hl]
        exact .cons ⟨rfl, hfits⟩ hruns
      · rw [if_neg hl, if_neg hl]
        exact hruns

/-- The entries that a running mutation put on the ledger lead back to where the first was put. -/
def Frame.Owns (cells : Nat → Option (Rewind W)) (frame : Frame W) (own : List (RewindAction W)) :
    Prop :=
  match frame.ledger with
  | none => own = []
  | some (below, above) => Unwinds (RewindAction.undo cells) RewindAction.Fits own above below

/-- The transaction while a mutation runs in it: the ledger holds what the mutation registered, on
top of what was there when it was enrolled. -/
structure Tx.Carries (mutation : Nat) (frame : Frame W) (base : List (RewindAction W)) (tx : Tx W) :
    Prop where
  world : tx.world = frame.world
  view : tx.ledgerView = frame.view
  cell : tx.cells mutation = some frame.rewind
  held : mutation < tx.cellCount
  own : ∃ own, tx.ledger = own ++ base ∧ frame.Owns tx.cells own ∧
    ∀ action ∈ own, ∀ c ∈ action.run.cell, mutation < c
  ordered : tx.Ordered

/-- What the code of a mutation leaves alone. -/
structure Tx.Quiet (mutation : Nat) (tx tx' : Tx W) : Prop where
  cells : ∀ c < mutation, tx'.cells c = tx.cells c
  ran : tx'.ran = tx.ran
  committed : tx'.committed = tx.committed
  transactionId : tx'.transactionId = tx.transactionId
  isolation : tx'.isolation = tx.isolation

theorem Tx.Quiet.refl (mutation : Nat) (tx : Tx W) : Tx.Quiet mutation tx tx :=
  ⟨fun _ _ => rfl, rfl, rfl, rfl, rfl⟩

theorem Tx.Quiet.trans (h : Tx.Quiet mutation tx tx') (h' : Tx.Quiet mutation tx' tx'') :
    Tx.Quiet mutation tx tx'' := by
  apply Tx.Quiet.mk
  · intro c hc
    exact (h'.cells c hc).trans (h.cells c hc)
  · exact h'.ran.trans h.ran
  · exact h'.committed.trans h.committed
  · exact h'.transactionId.trans h.transactionId
  · exact h'.isolation.trans h.isolation

theorem Tx.Carries.report (h : tx.Carries mutation frame base) (result : Except HeddleError α) :
    (Tx.report result tx).2.Carries mutation frame base :=
  ⟨h.world, h.view, h.cell, h.held, h.own, h.ordered.of_ledger rfl rfl rfl⟩

theorem Tx.Quiet.report {tx tx' : Tx W} (h : tx.Quiet mutation tx')
    (result : Except HeddleError α) : tx.Quiet mutation (Tx.report result tx').2 :=
  ⟨h.cells, h.ran, h.committed, h.transactionId, h.isolation⟩

theorem Tx.Quiet.world (mutation : Nat) (tx : Tx W) (world : W) :
    tx.Quiet mutation { tx with world } :=
  ⟨fun _ _ => rfl, rfl, rfl, rfl, rfl⟩

theorem Tx.Carries.unchanged {tx : Tx W} (h : tx.Carries mutation frame base) :
    ({ tx with world := frame.world } : Tx W).Carries mutation frame base :=
  ⟨rfl, h.view, h.cell, h.held, h.own, h.ordered.of_ledger rfl rfl rfl⟩

theorem Tx.Carries.unwinds {tx : Tx W} (h : tx.Carries mutation frame base)
    (hsettled : frame.Settled) (hwhole : whole.undo tx.cells = frame.rewind frame.view)
    (hfits : ∀ world, whole.Fits world) :
    ∃ own, tx.ledger = own ++ base ∧
      Unwinds (RewindAction.undo tx.cells) RewindAction.Fits (own ++ [whole]) tx.world frame.start ∧
      ∀ action ∈ own, ∀ c ∈ action.run.cell, mutation < c := by
  obtain ⟨own, hledger, howns, hcells⟩ := h.own
  refine ⟨own, hledger, ?_, hcells⟩
  rw [h.world]
  unfold Frame.Owns at howns
  unfold Frame.Settled at hsettled
  cases hf : frame.ledger with
  | none =>
    rw [hf] at howns hsettled
    change own = [] at howns
    subst howns
    exact .cons ((congrFun hwhole _).trans hsettled) (hfits _) .nil
  | some ledger =>
    obtain ⟨below, above⟩ := ledger
    rw [hf] at howns hsettled
    obtain ⟨hbelow, habove⟩ := hsettled
    rw [habove]
    exact Unwinds.append howns (.cons ((congrFun hwhole _).trans hbelow) (hfits _) .nil)

theorem Tx.Carries.push {tx tx' : Tx W} {world : W} (h : tx.Carries mutation frame base)
    (hsettled : frame.Settled) (upper : List (RewindAction W))
    (hledger : tx'.ledger = upper ++ tx.ledger)
    (hworld : tx'.world = world)
    (hupper : Unwinds (RewindAction.undo tx'.cells) RewindAction.Fits upper world frame.world)
    (hcells : ∀ c < tx.cellCount, tx'.cells c = tx.cells c)
    (hfresh : ∀ action ∈ upper, ∀ c ∈ action.run.cell, tx.cellCount ≤ c)
    (hview : tx'.ledgerView = tx.ledgerView) (hcount : tx.cellCount ≤ tx'.cellCount)
    (hordered : tx'.Ordered) : tx'.Carries mutation (frame.push world) base := by
  obtain ⟨own, hown, howns, habove⟩ := h.own
  have hlt : ∀ action ∈ own, ∀ c ∈ action.run.cell, c < tx.cellCount := by
    intro action hmem
    exact h.ordered.cell_lt action (hown ▸ mem_append_left _ hmem)
  refine ⟨hworld, hview.trans h.view, ?_, Nat.lt_of_lt_of_le h.held hcount, ?_, hordered⟩
  · rw [hcells _ h.held]
    exact h.cell
  · refine ⟨upper ++ own, ?_, ?_, ?_⟩
    · rw [hledger, hown, append_assoc]
    · unfold Frame.Owns Frame.push
      unfold Frame.Owns at howns
      unfold Frame.Settled at hsettled
      cases hf : frame.ledger with
      | none =>
        rw [hf] at howns
        change own = [] at howns
        subst howns
        rw [append_nil]
        exact hupper
      | some ledger =>
        obtain ⟨below, above⟩ := ledger
        rw [hf] at howns hsettled
        rw [hsettled.2] at hupper
        apply hupper.append
        apply Unwinds.congr howns
        intro action hmem
        apply action.undo_congr
        intro c hc
        exact hcells c (hlt action hmem c hc)
    · intro action hmem c hc
      rcases mem_append.1 hmem with hmem | hmem
      · exact Nat.lt_of_lt_of_le h.held (hfresh action hmem c hc)
      · exact habove action hmem c hc

def Tx.logged (label : String) (inverse : W → Outcome HeddleError W) (registeredAt world : W)
    (tx : Tx W) : Tx W :=
  { { tx with world := registeredAt }.onRewind label (.inverse inverse) with world }

theorem Tx.Carries.logged {tx : Tx W} (h : tx.Carries mutation frame base)
    (hsettled : frame.Settled) (label : String) {inverse : W → Outcome HeddleError W}
    {registeredAt world : W} (hinverse : inverse world = (.ok (), frame.world))
    (hfits : label = "step" ∨ label = "compensator" → registeredAt = world) :
    (tx.logged label inverse registeredAt world).Carries mutation (frame.push world) base := by
  refine h.push hsettled [⟨label, .inverse inverse, tx.registered, registeredAt⟩] rfl rfl
    (.cons hinverse hfits .nil) (fun _ _ => rfl) ?_ rfl (Nat.le_refl _) ?_
  · intro action hmem c hc
    rw [mem_singleton.1 hmem] at hc
    cases hc
  · have hordered : ({ tx with world := registeredAt } : Tx W).Ordered :=
      h.ordered.of_ledger rfl rfl rfl
    exact (hordered.onRewind_inverse label inverse).of_ledger rfl rfl rfl

theorem Tx.Quiet.logged (mutation : Nat) (tx : Tx W) (label : String)
    (inverse : W → Outcome HeddleError W) (registeredAt world : W) :
    tx.Quiet mutation (tx.logged label inverse registeredAt world) :=
  ⟨fun _ _ => rfl, rfl, rfl, rfl, rfl⟩

def Tx.wholeOp (tx : Tx W) : RewindAction W :=
  ⟨"enroll_whole_op", .wholeOp tx.cellCount tx.deeper.ledgerView, tx.registered, tx.world⟩

theorem Tx.wholeOp_fits (tx : Tx W) (world : W) : tx.wholeOp.Fits world := by
  intro h
  rcases h with h | h
  · exact absurd h (by decide : "enroll_whole_op" ≠ "step")
  · exact absurd h (by decide : "enroll_whole_op" ≠ "compensator")

theorem Tx.Carries.enter {tx : Tx W} (h : tx.Carries mutation frame base) (rewind : Rewind W) :
    (tx.deeper.enrollWholeOp rewind).2.Carries tx.cellCount (frame.enter rewind)
      (tx.wholeOp :: tx.ledger) := by
  apply Tx.Carries.mk
  · exact h.world
  · rw [Frame.enter, ← h.view]
    rfl
  · exact Function.update_self _ _ _
  · exact Nat.lt_succ_self _
  · exact ⟨[], rfl, rfl, fun _ hmem => absurd hmem not_mem_nil⟩
  · have hordered : tx.deeper.Ordered := h.ordered.of_ledger rfl rfl rfl
    exact hordered.onRewind_share rewind "enroll_whole_op" rfl

end Heddle.Atomic
