import Heddle.Atomic.BodyRun

namespace Heddle.Atomic
open Heddle.Lib List
open Heddle.Oplog

def RootMutation.frame (m : RootMutation W Out) (scope : String) (world : W) : Frame W :=
  ⟨⟨scope, 0⟩, world, m.rewind, world, none⟩

/-- The inverses in the tree of mutations under the root restore what their forwards changed. -/
def RootMutation.Restores (m : RootMutation W Out) (scope : String) (world : W) : Prop :=
  m.apply.Restores (fun _ => Frame.Settled) (m.frame scope world)

def rootAction (scope : String) (world : W) : RewindAction W :=
  ⟨"enroll_root", .root 0 ⟨scope, 0⟩, 0, world⟩

theorem rootAction_fits (scope : String) (registeredAt world : W) :
    (rootAction scope registeredAt).Fits world := by
  intro h
  rcases h with h | h
  · exact absurd h (by decide : "enroll_root" ≠ "step")
  · exact absurd h (by decide : "enroll_root" ≠ "compensator")

theorem RootMutation.enrolled (m : RootMutation W Out) (scope id : String)
    (isolation : IsolationPrecondition) (world : W) :
    ((Tx.begin scope id isolation world).enrollRoot m.rewind).2.Carries 0 (m.frame scope world)
      [rootAction scope world] := by
  refine ⟨rfl, rfl, rfl, Nat.one_pos, ⟨[], rfl, rfl, ?_⟩, ?_⟩
  · exact fun _ hmem => absurd hmem not_mem_nil
  · exact (Tx.Ordered.begin scope id isolation world).onRewind_share m.rewind "enroll_root" rfl

/-- The transaction `tx` is what rewinding `staged` leaves: the effects are `world`, and the
inverses of the live entries ran, each once and from the top. -/
structure Tx.Rewound (staged : Tx W) (world : W) (tx : Tx W) : Prop where
  world : tx.world = world
  ledger : tx.ledger = []
  committed : tx.committed = false
  ran : List.Forall₂ RewindAction.Ran (staged.ledger.filter (RewindAction.live staged.cells)) tx.ran

theorem Tx.Carries.rewindAll {tx : Tx W} {scope : String} {world : W} (h : tx.Carries 0 frame [rootAction scope world])
    (hview : frame.view = ⟨scope, 0⟩) (hsettled : frame.Settled) (hran : tx.ran = [])
    (hcommitted : tx.committed = false) :
    ∃ tx', tx.rewindAll = (.ok (), tx') ∧ tx.Rewound frame.start tx' := by
  have hroot : (rootAction scope world).undo tx.cells = frame.rewind frame.view := by
    simp only [RewindAction.undo, rootAction, h.cell, hview]
  obtain ⟨own, hledger, hunwinds, _⟩ := h.unwinds hsettled hroot (rootAction_fits scope world)
  rw [← hledger] at hunwinds
  obtain ⟨tx', runs, heach, hworld, hran', hruns, hledger', hcommitted'⟩ :=
    rewindEach_ok hunwinds h.ordered.cells { tx with ledger := [] } rfl fun _ _ _ _ => rfl
  refine ⟨tx', ?_, hworld, hledger', hcommitted'.trans hcommitted, ?_⟩
  · simp only [Tx.rewindAll, heach]
  · rw [hran', hran]
    exact hruns

theorem Tx.Rewound.drop {staged tx : Tx W} {world : W} (h : staged.Rewound world tx) : tx.drop = tx := by
  obtain ⟨scope, id, isolation, depth, ledger, committed, cells, count, w, registered, ran, failed⟩ :=
    tx
  obtain ⟨hworld, hledger, hcommitted, hran⟩ := h
  cases hledger
  cases hcommitted
  rfl

def Tx.Appends (append : AppendBatch) (records : List OpRecord) (tx : Tx W) : Prop :=
  ∃ ids, append (tx.batch records) (some tx.scope) tx.transactionId tx.isolation =
    .ok (.committed ids)

/-- What an attempt answers: the error of its `apply`, or what follows from the append. -/
def Attempt.Answers (append : AppendBatch) (m : RootMutation W Out) (made : Attempt W Out) : Prop :=
  match made.applied with
  | .error error => made.verdict = .returned (.error error)
  | .ok staged =>
    match append (made.staged.batch staged.oplog) (some made.staged.scope) made.staged.transactionId
        made.staged.isolation with
    | .error error => made.verdict = .returned (.error error)
    | .ok (.committed _) => made.verdict = .returned (.ok staged.output)
    | .ok (.alreadyCommitted prior) =>
      made.verdict = .returned (m.reconstructCommittedOutput prior staged.output)
    | .ok (.isolationConflict _ _ _) =>
      if made.number + 1 = maxAttempts then
        ∃ message, made.verdict = .returned (.error (.conflict message))
      else made.verdict = .retry

theorem attempt_answers {id : String}
    (hrun : m.apply.run 0 ((Tx.begin repo.opScope id isolation world).enrollRoot m.rewind).2 =
      (applied, staged))
    (hcommitted : staged.committed = false) (hrewind : staged.rewindAll = (.ok (), tx')) :
    (attempt repo m id number isolation world).Answers (repo.append number) m := by
  have hroot : ((Tx.begin repo.opScope id isolation world).enrollRoot m.rewind).1 = 0 := rfl
  unfold Attempt.Answers
  simp only [attempt, hroot, hrun]
  cases applied with
  | error error => simp only [rewindError, hrewind]
  | ok commit =>
    cases happend : repo.append number (staged.batch commit.oplog) (some staged.scope)
        staged.transactionId staged.isolation with
    | error error =>
      simp only [commitStaged, Tx.commit, hcommitted, Bool.false_eq_true, if_false, happend,
        rewindError, hrewind]
    | ok outcome =>
      cases outcome with
      | committed ids =>
        simp only [commitStaged, Tx.commit, hcommitted, Bool.false_eq_true, if_false, happend]
      | alreadyCommitted prior =>
        simp only [commitStaged, Tx.commit, hcommitted, Bool.false_eq_true, if_false, happend,
          hrewind]
        cases m.reconstructCommittedOutput prior commit.output <;> rfl
      | isolationConflict key since entry =>
        simp only [commitStaged, Tx.commit, hcommitted, Bool.false_eq_true, if_false, happend,
          hrewind]
        split
        · exact ⟨_, rfl⟩
        · rfl

theorem commitStaged_ends (hcommitted : tx.committed = false)
    (hrewind : tx.rewindAll = (.ok (), tx')) (hrewound : tx.Rewound world tx') :
    (tx.Appends (repo.append number) staged.oplog ∧
      (commitStaged repo number m staged tx).2 = { tx with committed := true }) ∨
    (¬tx.Appends (repo.append number) staged.oplog ∧
      tx.Rewound world (commitStaged repo number m staged tx).2) := by
  cases happend : repo.append number (tx.batch staged.oplog) (some tx.scope) tx.transactionId
      tx.isolation with
  | error error =>
    apply Or.inr
    apply And.intro
    · intro ⟨_, h⟩
      rw [happend] at h
      cases h
    · simp only [commitStaged, Tx.commit, hcommitted, Bool.false_eq_true, if_false, happend,
        rewindError, hrewind]
      exact hrewound
  | ok outcome =>
    cases outcome with
    | committed ids =>
      apply Or.inl
      refine ⟨⟨ids, happend⟩, ?_⟩
      simp only [commitStaged, Tx.commit, hcommitted, Bool.false_eq_true, if_false, happend]
    | alreadyCommitted prior =>
      apply Or.inr
      apply And.intro
      · intro ⟨_, h⟩
        rw [happend] at h
        cases h
      · simp only [commitStaged, Tx.commit, hcommitted, Bool.false_eq_true, if_false, happend,
          hrewind]
        cases m.reconstructCommittedOutput prior staged.output with
        | error error => exact hrewound
        | ok output => exact hrewound
    | isolationConflict key since entry =>
      apply Or.inr
      apply And.intro
      · intro ⟨_, h⟩
        rw [happend] at h
        cases h
      · simp only [commitStaged, Tx.commit, hcommitted, Bool.false_eq_true, if_false, happend,
          hrewind]
        split
        · exact hrewound
        · exact hrewound

/-- What all-or-nothing asks of one attempt. It commits exactly when its `apply` and the append go
through; then no inverse runs. Otherwise the effects are again those that it started from, the
ledger is empty, and the inverses of its live entries ran in the reverse order of registration, each
once. Nor does it commit when an operation failed and the code left at errors. -/
structure Attempt.AllOrNothing (append : AppendBatch) (m : RootMutation W Out)
    (made : Attempt W Out) : Prop where
  commits : made.final.committed = true ↔
    ∃ staged, made.applied = .ok staged ∧ made.staged.Appends append staged.oplog
  kept : made.final.committed = true → made.final.ran = [] ∧ made.final.world = made.staged.world
  rewound : made.final.committed = false → made.staged.Rewound made.started made.final
  once : (made.final.ran.map Prod.fst).Pairwise (· > ·)
  answers : made.Answers append m
  fails : m.apply.Propagates → made.staged.failed = true → made.final.committed = false

theorem RewindAction.ran_serials (h : List.Forall₂ RewindAction.Ran entries runs) :
    runs.map Prod.fst = entries.map RewindAction.serial := by
  induction h with
  | nil => rfl
  | cons hran _ ih => rw [map_cons, map_cons, hran.1, ih]

section
variable (repo : Repository) (m : RootMutation W Out) (id : String) (number : Nat)
  (isolation : IsolationPrecondition) (world : W) (h : m.Restores repo.opScope world)
include h

theorem attempt_ends :
    ∃ staged applied, m.apply.run 0
        ((Tx.begin repo.opScope id isolation world).enrollRoot m.rewind).2 = (applied, staged) ∧
      staged.ran = [] ∧ staged.Ordered ∧
      (attempt repo m id number isolation world).staged = staged ∧
      (attempt repo m id number isolation world).applied = applied ∧
      (attempt repo m id number isolation world).Answers (repo.append number) m ∧
      ((∃ commit, applied = .ok commit ∧ staged.Appends (repo.append number) commit.oplog ∧
          (attempt repo m id number isolation world).final = { staged with committed := true }) ∨
        (¬∃ commit, applied = .ok commit ∧ staged.Appends (repo.append number) commit.oplog) ∧
          staged.Rewound world (attempt repo m id number isolation world).final) := by
  obtain ⟨staged, hrun, hcarries, hquiet, hends⟩ :=
    m.apply.unwindable (m.enrolled repo.opScope id isolation world) h
  have hcommitted : staged.committed = false := hquiet.committed
  have hran : staged.ran = [] := hquiet.ran
  obtain ⟨hstart, hview⟩ := m.apply.effect_same (m.frame repo.opScope world)
  obtain ⟨rewound, hrewind, hrewound⟩ :=
    hcarries.rewindAll hview hends.settled hran hcommitted
  rw [hstart] at hrewound
  change staged.Rewound world rewound at hrewound
  generalize (m.apply.effect (m.frame repo.opScope world)).1 = applied at hrun
  have hroot : ((Tx.begin repo.opScope id isolation world).enrollRoot m.rewind).1 = 0 := rfl
  refine ⟨staged, applied, hrun, hran, hcarries.ordered, ?_, ?_,
    attempt_answers hrun hcommitted hrewind, ?_⟩
  · simp only [attempt, hroot, hrun]
  · simp only [attempt, hroot, hrun]
  · cases applied with
    | error error =>
      apply Or.inr
      apply And.intro
      · intro ⟨_, hok, _⟩
        cases hok
      · simp only [attempt, hroot, hrun, rewindError, hrewind, hrewound.drop]
        exact hrewound
    | ok commit =>
      rcases commitStaged_ends (m := m) hcommitted hrewind hrewound with
        ⟨happends, hfinal⟩ | ⟨hnot, hfinal⟩
      · apply Or.inl
        refine ⟨commit, rfl, happends, ?_⟩
        simp only [attempt, hroot, hrun, hfinal]
        rfl
      · apply Or.inr
        apply And.intro
        · intro ⟨_, hok, happends⟩
          cases hok
          exact hnot happends
        · simp only [attempt, hroot, hrun, hfinal.drop]
          exact hfinal

theorem attempt_allOrNothing :
    (attempt repo m id number isolation world).AllOrNothing (repo.append number) m := by
  obtain ⟨staged, applied, hrun, hran, hordered, hstaged, happlied, hanswers, hends⟩ :=
    attempt_ends repo m id number isolation world h
  have hstarted : (attempt repo m id number isolation world).started = world := rfl
  generalize attempt repo m id number isolation world = made at *
  subst hstaged happlied hstarted
  rcases hends with ⟨commit, hok, happends, hfinal⟩ | ⟨hnot, hrewound⟩
  · have hkept : made.final.ran = [] ∧ made.final.world = made.staged.world := by
      rw [hfinal]
      exact ⟨hran, rfl⟩
    have hcommitted : made.final.committed = true := by
      rw [hfinal]
    apply Attempt.AllOrNothing.mk
    · exact ⟨fun _ => ⟨commit, hok, happends⟩, fun _ => hcommitted⟩
    · exact fun _ => hkept
    · intro hfalse
      rw [hcommitted] at hfalse
      cases hfalse
    · rw [hkept.1]
      exact .nil
    · exact hanswers
    · intro hpropagates hfailed
      rw [hok] at hrun
      have hsame := hpropagates.failed hrun
      rw [hfailed] at hsame
      cases hsame
  · have hcommitted := hrewound.committed
    apply Attempt.AllOrNothing.mk
    · apply Iff.intro
      · intro htrue
        rw [hcommitted] at htrue
        cases htrue
      · exact fun hcommit => absurd hcommit hnot
    · intro htrue
      rw [hcommitted] at htrue
      cases htrue
    · exact fun _ => hrewound
    · rw [RewindAction.ran_serials hrewound.ran, pairwise_map]
      exact hordered.serials.sublist (filter_sublist)
    · exact hanswers
    · exact fun _ _ => hcommitted

end

theorem commitStaged_retry (hcommitted : tx.committed = false)
    (h : (commitStaged repo number m staged tx).1 = .retry) :
    ¬tx.Appends (repo.append number) staged.oplog ∧ number + 1 ≠ maxAttempts := by
  cases happend : repo.append number (tx.batch staged.oplog) (some tx.scope) tx.transactionId
      tx.isolation with
  | error error =>
    simp only [commitStaged, Tx.commit, hcommitted, Bool.false_eq_true, if_false, happend] at h
    cases h
  | ok outcome =>
    cases outcome with
    | committed ids =>
      simp only [commitStaged, Tx.commit, hcommitted, Bool.false_eq_true, if_false, happend] at h
      cases h
    | alreadyCommitted prior =>
      simp only [commitStaged, Tx.commit, hcommitted, Bool.false_eq_true, if_false, happend] at h
      split at h
      · cases h
      · cases h
      · cases h
    | isolationConflict key since entry =>
      apply And.intro
      · intro ⟨_, hok⟩
        rw [happend] at hok
        cases hok
      · intro hlast
        simp only [commitStaged, Tx.commit, hcommitted, Bool.false_eq_true, if_false, happend,
          hlast, if_true] at h
        split at h
        · cases h
        · cases h

theorem attempt_retry (repo : Repository) (m : RootMutation W Out) (id : String)
    (number : Nat) (isolation : IsolationPrecondition) (world : W)
    (h : m.Restores repo.opScope world)
    (hretry : (attempt repo m id number isolation world).verdict = .retry) :
    (attempt repo m id number isolation world).final.committed = false ∧
      number + 1 ≠ maxAttempts := by
  obtain ⟨staged, hrun, _, hquiet, _⟩ :=
    m.apply.unwindable (m.enrolled repo.opScope id isolation world) h
  have hcommitted : staged.committed = false := hquiet.committed
  generalize (m.apply.effect (m.frame repo.opScope world)).1 = applied at hrun
  have hroot : ((Tx.begin repo.opScope id isolation world).enrollRoot m.rewind).1 = 0 := rfl
  cases applied with
  | error error =>
    simp only [attempt, hroot, hrun] at hretry
    cases hretry
  | ok commit =>
    simp only [attempt, hroot, hrun] at hretry
    obtain ⟨hnot, hlast⟩ := commitStaged_retry hcommitted hretry
    refine ⟨eq_false_of_ne_true fun htrue => ?_, hlast⟩
    obtain ⟨commit', happlied, happends⟩ :=
      (attempt_allOrNothing repo m id number isolation world h).commits.1 htrue
    simp only [attempt, hroot, hrun] at happlied happends
    cases happlied
    exact hnot happends

/-- Every attempt is one at the root mutation that it finds, with the head and the isolation keys
that it finds. -/
def Attempt.IsAttempt (repo : Repository) (m : Nat → RootMutation W Out) (id : String) (world : W)
    (made : Attempt W Out) : Prop :=
  ∃ keys since, (m made.number).isolationKeys = .ok keys ∧ repo.headId made.number = .ok since ∧
    made = attempt repo (m made.number) id made.number ⟨since, keys⟩ world

/-- How a run of the executor from attempt `first` on ends. It returns what its last attempt
answers, unless the next attempt could not begin. -/
structure Execution.AllOrNothing (repo : Repository) (m : Nat → RootMutation W Out) (id : String)
    (world : W) (first : Nat) (run : Execution W Out) : Prop where
  returns : (∃ made result, run.attempts.getLast? = some made ∧
      made.verdict = .returned result ∧ run.result = some result) ∨
    ∃ error, run.result = some (.error error) ∧
      ((m (first + run.attempts.length)).isolationKeys = .error error ∨
        repo.headId (first + run.attempts.length) = .error error)
  numbers : run.attempts.map Attempt.number = range' first run.attempts.length
  attempts : ∀ made ∈ run.attempts, made.started = world ∧ made.IsAttempt repo m id world ∧
    made.AllOrNothing (repo.append made.number) (m made.number)
  earlier : ∀ made ∈ run.attempts.dropLast, made.final.committed = false
  ends : run.world = world ∨ ∃ made, run.attempts.getLast? = some made ∧
    made.final.committed = true ∧ run.world = made.staged.world

theorem mem_dropLast_cons (h : x ∈ (a :: xs).dropLast) :
    x = a ∨ x ∈ xs.dropLast := by
  cases xs with
  | nil => exact absurd h not_mem_nil
  | cons b xs => exact mem_cons.1 h

theorem getLast?_cons_of_getLast? (h : xs.getLast? = some x) :
    (a :: xs).getLast? = some x := by
  cases xs with
  | nil => cases h
  | cons b xs => rw [getLast?_cons_cons, h]

theorem executeFrom_allOrNothing (repo : Repository) (m : Nat → RootMutation W Out) (id : String)
    (world : W) (h : ∀ number < maxAttempts, (m number).Restores repo.opScope world)
    (left number : Nat) (hleft : 0 < left) (hsum : number + left = maxAttempts) :
    (executeFrom repo m id left number world).AllOrNothing repo m id world number := by
  induction left generalizing number with
  | zero => exact absurd hleft (Nat.lt_irrefl 0)
  | succ left ih =>
    have hlt : number < maxAttempts := by omega
    unfold executeFrom
    split
    · rename_i error hkeys
      refine ⟨.inr ⟨error, rfl, .inl ?_⟩, rfl, fun _ hmem => absurd hmem not_mem_nil,
        fun _ hmem => absurd hmem not_mem_nil, .inl rfl⟩
      exact hkeys
    · rename_i error _ hhead
      refine ⟨.inr ⟨error, rfl, .inr ?_⟩, rfl, fun _ hmem => absurd hmem not_mem_nil,
        fun _ hmem => absurd hmem not_mem_nil, .inl rfl⟩
      exact hhead
    · rename_i keys since hkeys hhead
      have hall := attempt_allOrNothing repo (m number) id number ⟨since, keys⟩ world (h number hlt)
      have hnext := attempt_retry repo (m number) id number ⟨since, keys⟩ world (h number hlt)
      have hstarted : (attempt repo (m number) id number ⟨since, keys⟩ world).started = world := rfl
      have hnumber : (attempt repo (m number) id number ⟨since, keys⟩ world).number = number := rfl
      have hmade : (attempt repo (m number) id number ⟨since, keys⟩ world).IsAttempt repo m id world :=
        ⟨keys, since, hkeys, hhead, rfl⟩
      generalize attempt repo (m number) id number ⟨since, keys⟩ world = made at *
      have hmade : made.started = world ∧ made.IsAttempt repo m id world ∧
          made.AllOrNothing (repo.append made.number) (m made.number) := by
        rw [hnumber]
        exact ⟨hstarted, hmade, hall⟩
      cases hverdict : made.verdict with
      | returned result =>
        simp only [hverdict]
        refine ⟨.inl ⟨made, result, rfl, hverdict, rfl⟩, ?_, ?_,
          fun _ hmem => absurd hmem not_mem_nil, ?_⟩
        · exact congrArg (fun n => [n]) hnumber
        · intro made' hmem
          rw [mem_singleton.1 hmem]
          exact hmade
        · cases hcommitted : made.final.committed with
          | false => exact .inl ((hall.rewound hcommitted).world.trans hstarted)
          | true => exact .inr ⟨made, rfl, hcommitted, (hall.kept hcommitted).2⟩
      | retry =>
        obtain ⟨hcommitted, hlast⟩ := hnext hverdict
        have hworld : made.final.world = world :=
          (hall.rewound hcommitted).world.trans hstarted
        have hrest := ih (number + 1) (by omega) (by omega)
        simp only [hverdict, hworld]
        generalize executeFrom repo m id left (number + 1) world = rest at hrest
        obtain ⟨returns, numbers, attempts, earlier, ends⟩ := hrest
        refine ⟨?_, ?_, ?_, ?_, ?_⟩
        · rcases returns with ⟨last, result, hlast', hreturned, hresult⟩ | ⟨error, hresult, hbegin⟩
          · exact .inl ⟨last, result, getLast?_cons_of_getLast? hlast', hreturned, hresult⟩
          · have hcount : number + (made :: rest.attempts).length =
                number + 1 + rest.attempts.length := by
              rw [length_cons]
              omega
            exact .inr ⟨error, hresult, by rwa [hcount]⟩
        · rw [map_cons, hnumber, numbers, length_cons, range'_succ]
        · intro made' hmem
          rcases mem_cons.1 hmem with rfl | hmem
          · exact hmade
          · exact attempts made' hmem
        · intro made' hmem
          rcases mem_dropLast_cons hmem with rfl | hmem
          · exact hcommitted
          · exact earlier made' hmem
        · apply ends.imp_right
          intro ⟨made', hlast', hcommitted', hworld'⟩
          exact ⟨made', getLast?_cons_of_getLast? hlast', hcommitted', hworld'⟩

/-- The executor is all-or-nothing over all its attempts. -/
theorem executeAttempts_allOrNothing (repo : Repository) (m : Nat → RootMutation W Out)
    (transactionId : String) (world : W)
    (h : ∀ number < maxAttempts, (m number).Restores repo.opScope world) :
    (executeAttempts repo m transactionId world).AllOrNothing repo m transactionId world 0 :=
  executeFrom_allOrNothing repo m transactionId world h maxAttempts 0 (by decide) (by decide)

/-- A root that moves a thread (first number) and reserves an operation (second number) eagerly. -/
def publishRoot : RootMutation (Nat × Nat) Unit where
  isolationKeys := .ok [.thread "main"]
  rewind := fun _ world => (.ok (), world)
  apply :=
    .step (fun world => (.ok (), (7, world.2))) (fun world => (.ok (), (0, world.2))) fun _ =>
    .enrollEager (fun _ world => (.ok (), world)) (.done (.ok ⟨(), []⟩))
      (fun _ => .stage (fun world rewind => (.ok (), (world.1, 1), rewind)) fun _ =>
        .done (.ok fun world => (.ok (), (world.1, 0)))) fun _ =>
    .stepNonatomic (fun world => (.ok world, world)) (fun prior _ => (.ok (), prior))
      (fun world => (.ok (), (8, world.2))) fun _ =>
    .done (.ok ⟨(), []⟩)
  reconstructCommittedOutput := fun _ output => .ok output

def conflictThenFault : Repository where
  opScope := "main"
  headId := fun number => .ok number
  append := fun number _ _ _ _ =>
    if number = 0 then .ok (.isolationConflict (.thread "main") 0 1)
    else .error (.io "disk full")
  debugKey := fun _ => "Thread(\"main\")"

theorem publishRoot_restores : publishRoot.Restores "main" (0, 0) :=
  ⟨rfl, rfl, ⟨rfl, rfl⟩, rfl, rfl, ⟨rfl, rfl⟩, rfl, rfl, rfl⟩

theorem executeAttempts_allOrNothing_conflictThenFault :
    (executeAttempts conflictThenFault (fun _ => publishRoot) "publish" (0, 0)).AllOrNothing
      conflictThenFault (fun _ => publishRoot) "publish" (0, 0) 0 :=
  executeAttempts_allOrNothing conflictThenFault (fun _ => publishRoot) "publish" (0, 0)
    fun _ _ => publishRoot_restores

end Heddle.Atomic
