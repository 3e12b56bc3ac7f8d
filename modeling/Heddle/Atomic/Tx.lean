import Heddle.Lib.StepTrace
import Heddle.Oplog.Record
import Mathlib.Logic.Function.Basic

namespace Heddle.Atomic
open Heddle.Lib
open Heddle.Oplog

/-- The transaction's scope and depth as they were when a mutation was enrolled. -/
structure RewindLedger where
  scope : String
  depth : Nat
  deriving DecidableEq

abbrev Rewind (W : Type) := RewindLedger → W → Outcome HeddleError W

/-- The closures that are put on the ledger. A mutation is shared through a numbered cell. -/
inductive RewindFn (W : Type) where
  | inverse (run : W → Outcome HeddleError W)
  | wholeOp (mutation : Nat) (ledger : RewindLedger)
  | root (mutation : Nat) (ledger : RewindLedger)

/-- An entry of the ledger. The serial number and the effects at registration are ghosts. -/
structure RewindAction (W : Type) where
  label : String
  run : RewindFn W
  serial : Nat
  registeredAt : W

/-- The transaction, the cells that its ledger shares with the running mutations, and the effects.
The last three fields are ghosts: how many actions were registered, the inverses that ran with the
effects they ran on, and whether some operation on the transaction failed. -/
structure Tx (W : Type) where
  scope : String
  transactionId : String
  isolation : IsolationPrecondition
  depth : Nat
  ledger : List (RewindAction W)
  committed : Bool
  cells : Nat → Option (Rewind W)
  cellCount : Nat
  world : W
  registered : Nat
  ran : List (Nat × W)
  failed : Bool

def Tx.begin (scope transactionId : String) (isolation : IsolationPrecondition) (world : W) :
    Tx W :=
  { scope, transactionId, isolation, depth := 0, ledger := [], committed := false
    cells := fun _ => none, cellCount := 0, world, registered := 0, ran := [], failed := false }

def Tx.ledgerView (tx : Tx W) : RewindLedger := ⟨tx.scope, tx.depth⟩

def Tx.onRewind (label : String) (run : RewindFn W) (tx : Tx W) : Tx W :=
  { tx with
    ledger := ⟨label, run, tx.registered, tx.world⟩ :: tx.ledger
    registered := tx.registered + 1 }

def Tx.report (result : Except HeddleError α) (tx : Tx W) : Except HeddleError α × Tx W :=
  (result, { tx with failed := tx.failed || !result.isOk })

/-- The inverse is registered once the forward effect has happened. -/
def Tx.step (forward : W → Except HeddleError α × W) (inverse : W → Outcome HeddleError W)
    (tx : Tx W) : Except HeddleError α × Tx W :=
  match forward tx.world with
  | (.error error, world) => Tx.report (.error error) { tx with world }
  | (.ok value, world) => (.ok value, { tx with world }.onRewind "step" (.inverse inverse))

/-- The restoring inverse is registered before the forward effect starts. -/
def Tx.stepNonatomic (capture : W → Except HeddleError σ × W)
    (restore : σ → W → Outcome HeddleError W) (forward : W → Except HeddleError α × W)
    (tx : Tx W) : Except HeddleError α × Tx W :=
  match capture tx.world with
  | (.error error, world) => Tx.report (.error error) { tx with world }
  | (.ok snapshot, world) =>
    let tx := { tx with world }.onRewind "step_nonatomic" (.inverse (restore snapshot))
    let (result, world) := forward tx.world
    Tx.report result { tx with world }

def Tx.share (rewind : Rewind W) (tx : Tx W) : Nat × Tx W :=
  (tx.cellCount,
    { tx with
      cells := Function.update tx.cells tx.cellCount (some rewind)
      cellCount := tx.cellCount + 1 })

def Tx.enrollWholeOp (rewind : Rewind W) (tx : Tx W) : Nat × Tx W :=
  let (mutation, tx) := tx.share rewind
  (mutation, tx.onRewind "enroll_whole_op" (.wholeOp mutation tx.ledgerView))

def Tx.enrollRoot (rewind : Rewind W) (tx : Tx W) : Nat × Tx W :=
  let (mutation, tx) := tx.share rewind
  (mutation, tx.onRewind "enroll_root" (.root mutation tx.ledgerView))

abbrev Code (W α : Type) := Nat → Tx W → Except HeddleError α × Tx W

def Tx.enrollThenApply (rewind : Rewind W) (apply : Code W α) (tx : Tx W) :
    Nat × Except HeddleError α × Tx W :=
  let (mutation, tx) := tx.enrollWholeOp rewind
  (mutation, apply mutation tx)

def Tx.deeper (tx : Tx W) : Tx W := { tx with depth := tx.depth + 1 }
def Tx.shallower (tx : Tx W) : Tx W := { tx with depth := tx.depth - 1 }

def Tx.enroll (rewind : Rewind W) (apply : Code W α) (tx : Tx W) : Except HeddleError α × Tx W :=
  let (_, staged, tx) := tx.deeper.enrollThenApply rewind apply
  Tx.report staged tx.shallower

/-- What `apply` hands back: the value for the caller and the records for the commit point. -/
structure StagedCommit (α : Type) where
  output : α
  oplog : List OpRecord

def Tx.release (mutation : Nat) (tx : Tx W) : Tx W :=
  { tx with cells := Function.update tx.cells mutation none }

def Tx.enrollEager (rewind : Rewind W) (apply : Code W (StagedCommit α))
    (commitEager : StagedCommit α → Code W (W → Outcome HeddleError W)) (tx : Tx W) :
    Except HeddleError α × Tx W :=
  match tx.deeper.enrollThenApply rewind apply with
  | (_, .error error, tx) => Tx.report (.error error) tx.shallower
  | (mutation, .ok staged, tx) =>
    match commitEager staged mutation tx with
    | (.error error, tx) => Tx.report (.error error) tx.shallower
    | (.ok compensator, tx) =>
      -- From here on the compensator is the mutation's only undo.
      let tx := tx.onRewind "compensator" (.inverse compensator)
      (.ok staged.output, (tx.release mutation).shallower)

def Tx.runInverse (serial : Nat) (inverse : W → Outcome HeddleError W) (tx : Tx W) :
    Outcome HeddleError (Tx W) :=
  let (result, world) := inverse tx.world
  (result, { tx with world, ran := tx.ran ++ [(serial, tx.world)] })

def RewindAction.invoke (action : RewindAction W) (tx : Tx W) : Outcome HeddleError (Tx W) :=
  match action.run with
  | .inverse run => tx.runInverse action.serial run
  | .wholeOp mutation ledger =>
    match tx.cells mutation with
    | none => (.ok (), tx)
    | some rewind => (tx.release mutation).runInverse action.serial (rewind ledger)
  | .root mutation ledger =>
    match tx.cells mutation with
    | none => (.ok (), tx)
    | some rewind => tx.runInverse action.serial (rewind ledger)

/-- Every inverse runs, also after one has failed; the first error is kept. -/
def rewindEach : List (RewindAction W) → Option HeddleError → Tx W → Option HeddleError × Tx W
  | [], firstErr, tx => (firstErr, tx)
  | action :: ledger, firstErr, tx =>
    match action.invoke tx with
    | (.ok (), tx) => rewindEach ledger firstErr tx
    | (.error error, tx) => rewindEach ledger (firstErr.or (some error)) tx

def Tx.rewindAll (tx : Tx W) : Outcome HeddleError (Tx W) :=
  match rewindEach tx.ledger none { tx with ledger := [] } with
  | (some error, tx) => (.error error, tx)
  | (none, tx) => (.ok (), tx)

def Tx.drop (tx : Tx W) : Tx W := if tx.committed then tx else tx.rewindAll.2

inductive CommitOutcome where
  | committed
  | alreadyCommitted (prior : List OpRecord)
  | isolationConflict (key : IsolationKey) (sinceHeadId conflictingEntryId : Nat)

/-- The oplog's conditional append of a batch: records, scope, transaction id, precondition. -/
abbrev AppendBatch :=
  List OpRecord → Option String → String → IsolationPrecondition →
    Except HeddleError ConditionalCommitOutcome

def Tx.batch (tx : Tx W) (records : List OpRecord) : List OpRecord :=
  let opCount := UInt32.ofNat records.length
  records ++ [.transactionCommit tx.transactionId opCount]

def Tx.commit (append : AppendBatch) (records : List OpRecord) (tx : Tx W) :
    Except HeddleError CommitOutcome × Tx W :=
  if tx.committed then (.ok .committed, tx)
  else
    match append (tx.batch records) (some tx.scope) tx.transactionId tx.isolation with
    | .error error => (.error error, tx)
    | .ok (.committed _) => (.ok .committed, { tx with committed := true })
    | .ok (.alreadyCommitted prior) => (.ok (.alreadyCommitted prior), tx)
    | .ok (.isolationConflict key since entry) => (.ok (.isolationConflict key since entry), tx)

/-- The code of a mutation, as a tree of its operations on the transaction. `stage` is code of its
own: it reads and changes the effects, and the mutation with them. Each operation hands its result
to the rest of the code, which may also go on after an error. -/
inductive Body (W : Type) : Type → Type 1 where
  | done (result : Except HeddleError ρ) : Body W ρ
  | stage (act : W → Rewind W → Except HeddleError τ × W × Rewind W)
      (next : Except HeddleError τ → Body W ρ) : Body W ρ
  | step (forward : W → Except HeddleError τ × W) (inverse : W → Outcome HeddleError W)
      (next : Except HeddleError τ → Body W ρ) : Body W ρ
  | stepNonatomic (capture : W → Except HeddleError σ × W)
      (restore : σ → W → Outcome HeddleError W) (forward : W → Except HeddleError τ × W)
      (next : Except HeddleError τ → Body W ρ) : Body W ρ
  | enroll (rewind : Rewind W) (apply : Body W τ)
      (next : Except HeddleError τ → Body W ρ) : Body W ρ
  | enrollEager (rewind : Rewind W) (apply : Body W (StagedCommit τ))
      (commitEager : StagedCommit τ → Body W (W → Outcome HeddleError W))
      (next : Except HeddleError τ → Body W ρ) : Body W ρ

def Tx.stage (act : W → Rewind W → Except HeddleError α × W × Rewind W) (mutation : Nat)
    (tx : Tx W) : Except HeddleError α × Tx W :=
  match tx.cells mutation with
  | none => (.error (.config "mutation taken"), tx)
  | some rewind =>
    let (result, world, rewind) := act tx.world rewind
    (result, { tx with world, cells := Function.update tx.cells mutation (some rewind) })

def Body.run : Body W ρ → Code W ρ
  | .done result => fun _ tx => (result, tx)
  | .stage act next => fun mutation tx =>
    let (result, tx) := tx.stage act mutation
    (next result).run mutation tx
  | .step forward inverse next => fun mutation tx =>
    let (result, tx) := tx.step forward inverse
    (next result).run mutation tx
  | .stepNonatomic capture restore forward next => fun mutation tx =>
    let (result, tx) := tx.stepNonatomic capture restore forward
    (next result).run mutation tx
  | .enroll rewind apply next => fun mutation tx =>
    let (result, tx) := tx.enroll rewind apply.run
    (next result).run mutation tx
  | .enrollEager rewind apply commitEager next => fun mutation tx =>
    let (result, tx) := tx.enrollEager rewind apply.run (fun staged => (commitEager staged).run)
    (next result).run mutation tx

/-- The effects as a running mutation sees them, without any ledger. `start` is what they were when
it was enrolled. Once it has registered something, `ledger` holds the effects that its registered
inverses lead to and the effects that they have to be run on. -/
structure Frame (W : Type) where
  view : RewindLedger
  start : W
  rewind : Rewind W
  world : W
  ledger : Option (W × W)

/-- Undoing what the mutation did so far leads back to where it started. -/
def Frame.Settled (frame : Frame W) : Prop :=
  match frame.ledger with
  | none => frame.rewind frame.view frame.world = (.ok (), frame.start)
  | some (below, above) =>
    frame.rewind frame.view below = (.ok (), frame.start) ∧ frame.world = above

/-- The compensator alone, on top of what the mutation registered, leads back to where it started. -/
def Frame.Compensated (compensator : W → Outcome HeddleError W) (frame : Frame W) : Prop :=
  match frame.ledger with
  | none => compensator frame.world = (.ok (), frame.start)
  | some (below, above) => below = frame.start ∧ compensator frame.world = (.ok (), above)

def Frame.enter (frame : Frame W) (rewind : Rewind W) : Frame W :=
  { view := { frame.view with depth := frame.view.depth + 1 }
    start := frame.world, rewind, world := frame.world, ledger := none }

def Frame.push (frame : Frame W) (world : W) : Frame W :=
  { frame with world, ledger := some ((frame.ledger.map Prod.fst).getD frame.world, world) }

def Body.effect : Body W ρ → Frame W → Except HeddleError ρ × Frame W
  | .done result => fun frame => (result, frame)
  | .stage act next => fun frame =>
    let (result, world, rewind) := act frame.world frame.rewind
    (next result).effect { frame with world, rewind }
  | .step forward _ next => fun frame =>
    match forward frame.world with
    | (.error error, world) => (next (.error error)).effect { frame with world }
    | (.ok value, world) => (next (.ok value)).effect (frame.push world)
  | .stepNonatomic capture _ forward next => fun frame =>
    match capture frame.world with
    | (.error error, world) => (next (.error error)).effect { frame with world }
    | (.ok _, world) =>
      let (result, world) := forward world
      (next result).effect (frame.push world)
  | .enroll rewind apply next => fun frame =>
    let (result, child) := apply.effect (frame.enter rewind)
    (next result).effect (frame.push child.world)
  | .enrollEager rewind apply commitEager next => fun frame =>
    match apply.effect (frame.enter rewind) with
    | (.error error, child) => (next (.error error)).effect (frame.push child.world)
    | (.ok staged, child) =>
      match (commitEager staged).effect child with
      | (.error error, child) => (next (.error error)).effect (frame.push child.world)
      | (.ok _, child) => (next (.ok staged.output)).effect (frame.push child.world)

/-- Every inverse in the code restores what its forward changed: the inverse of a `step` takes back
the step, whose forward changes nothing when it fails; the one of a `step_nonatomic` leads back to
the captured effects from wherever the forward stopped; and what a mutation does by itself is taken
back by its `rewind`, or by its compensator once it has committed eagerly. -/
def Body.Restores : Body W ρ → (ρ → Frame W → Prop) → Frame W → Prop
  | .done (.error _) => fun _ frame => frame.Settled
  | .done (.ok value) => fun post frame => post value frame
  | .stage act next => fun post frame =>
    let (result, world, rewind) := act frame.world frame.rewind
    (next result).Restores post { frame with world, rewind }
  | .step forward inverse next => fun post frame =>
    match forward frame.world with
    | (.error error, world) => world = frame.world ∧ (next (.error error)).Restores post frame
    | (.ok value, world) =>
      frame.Settled ∧ inverse world = (.ok (), frame.world) ∧
        (next (.ok value)).Restores post (frame.push world)
  | .stepNonatomic capture restore forward next => fun post frame =>
    match capture frame.world with
    | (.error error, world) => world = frame.world ∧ (next (.error error)).Restores post frame
    | (.ok snapshot, world) =>
      world = frame.world ∧ frame.Settled ∧
        restore snapshot (forward frame.world).2 = (.ok (), frame.world) ∧
        (next (forward frame.world).1).Restores post (frame.push (forward frame.world).2)
  | .enroll rewind apply next => fun post frame =>
    let (result, child) := apply.effect (frame.enter rewind)
    frame.Settled ∧ apply.Restores (fun _ => Frame.Settled) (frame.enter rewind) ∧
      (next result).Restores post (frame.push child.world)
  | .enrollEager rewind apply commitEager next => fun post frame =>
    frame.Settled ∧
      apply.Restores (fun staged => (commitEager staged).Restores Frame.Compensated)
        (frame.enter rewind) ∧
      match apply.effect (frame.enter rewind) with
      | (.error error, child) => (next (.error error)).Restores post (frame.push child.world)
      | (.ok staged, child) =>
        match (commitEager staged).effect child with
        | (.error error, child) => (next (.error error)).Restores post (frame.push child.world)
        | (.ok _, child) => (next (.ok staged.output)).Restores post (frame.push child.world)

/-- The code leaves at the first error of an operation. -/
def Body.Propagates : Body W ρ → Prop
  | .done _ => True
  | .stage _ next => ∀ result, (next result).Propagates
  | .step _ _ next | .stepNonatomic _ _ _ next =>
    (∀ error, ∃ error', next (.error error) = .done (.error error')) ∧
      ∀ value, (next (.ok value)).Propagates
  | .enroll _ apply next =>
    apply.Propagates ∧ (∀ error, ∃ error', next (.error error) = .done (.error error')) ∧
      ∀ value, (next (.ok value)).Propagates
  | .enrollEager _ apply commitEager next =>
    apply.Propagates ∧ (∀ staged, (commitEager staged).Propagates) ∧
      (∀ error, ∃ error', next (.error error) = .done (.error error')) ∧
      ∀ value, (next (.ok value)).Propagates

end Heddle.Atomic
