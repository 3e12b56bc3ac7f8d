import Mathlib.Data.List.Basic

namespace Heddle.Lib

/-- A program that changes a store, as the states it takes the store through, one for each step. -/
def Script (σ : Type) := σ → List σ

namespace Script

def final (p : Script σ) (s : σ) : σ := (p s).getLast?.getD s

def skip : Script σ := fun _ => []

def step (f : σ → σ) : Script σ := fun s => [f s]

def choose (p : σ → Script σ) : Script σ := fun s => p s s

def andThen (p q : Script σ) : Script σ := fun s => p s ++ q (p.final s)

/-- What a program leaves behind when it is cut off between two steps, before the first one or after
the last. -/
def Leaves (p : Script σ) (s s' : σ) : Prop := s' = s ∨ s' ∈ p s

@[simp] theorem final_skip (s : σ) : final skip s = s := rfl

@[simp] theorem final_step (f : σ → σ) (s : σ) : final (step f) s = f s := rfl

@[simp] theorem final_choose (p : σ → Script σ) (s : σ) : final (choose p) s = (p s).final s := rfl

@[simp] theorem final_andThen (p q : Script σ) (s : σ) :
    final (p.andThen q) s = q.final (p.final s) := by
  unfold final andThen
  rw [List.getLast?_append]
  cases hlast : (q (p.final s)).getLast? with
  | none =>
    rw [Option.none_or]
    unfold final at hlast
    rw [hlast]
    rfl
  | some last =>
    unfold final at hlast
    rw [hlast]
    rfl

theorem leaves_final (p : Script σ) (s : σ) : p.Leaves s (p.final s) := by
  unfold Leaves final
  cases hlast : (p s).getLast? with
  | none => exact .inl rfl
  | some last => exact .inr (List.mem_of_getLast? hlast)

theorem leaves_skip : Leaves skip s s' ↔ s' = s :=
  ⟨fun h => h.resolve_right List.not_mem_nil, .inl⟩

theorem leaves_step : Leaves (step f) s s' ↔ s' = s ∨ s' = f s :=
  or_congr Iff.rfl List.mem_singleton

theorem Leaves.andThen (h : Leaves (p.andThen q) s s') :
    Leaves p s s' ∨ Leaves q (p.final s) s' := by
  rcases h with h | h
  · exact .inl (.inl h)
  · rcases List.mem_append.1 h with h | h
    · exact .inl (.inr h)
    · exact .inr (.inr h)

def each (p : ι → Script σ) : List ι → Script σ
  | [] => skip
  | x :: xs => (p x).andThen (each p xs)

/-- From a state with `P` the program passes only through states with `I`, wherever it is cut off,
and it ends in one with `Q`. -/
def Runs (I P : σ → Prop) (p : Script σ) (Q : σ → Prop) : Prop :=
  ∀ s, P s → (∀ s', p.Leaves s s' → I s') ∧ Q (p.final s)

section Runs
variable {I P Q R : σ → Prop}

theorem Runs.weaken (h : Runs I P p Q) (hpre : ∀ s, P' s → P s) (hpost : ∀ s, Q s → Q' s) :
    Runs I P' p Q' :=
  fun s hs => ⟨(h s (hpre s hs)).1, hpost _ (h s (hpre s hs)).2⟩

theorem Runs.skip (hI : ∀ s, P s → I s) (hQ : ∀ s, P s → Q s) : Runs I P skip Q := by
  intro s hs
  constructor
  · intro s' h
    rw [leaves_skip.1 h]
    exact hI s hs
  · exact hQ s hs

theorem Runs.step (hI : ∀ s, P s → I s) (hf : ∀ s, P s → I (f s)) (hQ : ∀ s, P s → Q (f s)) :
    Runs I P (step f) Q := by
  intro s hs
  constructor
  · intro s' h
    rcases leaves_step.1 h with rfl | rfl
    · exact hI s' hs
    · exact hf s hs
  · exact hQ s hs

theorem Runs.choose (h : ∀ s, P s → Runs I (fun t => t = s) (p s) Q) :
    Runs I P (choose p) Q :=
  fun s hs => h s hs s rfl

theorem Runs.andThen (hp : Runs I P p Q) (hq : Runs I Q q R) :
    Runs I P (p.andThen q) R := by
  intro s hs
  obtain ⟨hfirst, hmiddle⟩ := hp s hs
  obtain ⟨hsecond, hlast⟩ := hq _ hmiddle
  constructor
  · intro s' h
    rcases h.andThen with h | h
    · exact hfirst s' h
    · exact hsecond s' h
  · rw [final_andThen]
    exact hlast

theorem Runs.each (hI : ∀ s, P s → I s) (h : ∀ x ∈ xs, Runs I P (p x) P) :
    Runs I P (each p xs) P := by
  induction xs with
  | nil => exact Runs.skip hI fun _ hs => hs
  | cons x xs ih =>
    obtain ⟨hx, hxs⟩ := List.forall_mem_cons.1 h
    exact hx.andThen (ih hxs)

end Runs

end Script

/-- A call on a shared store: reading sections and changing sections, one after the other. -/
inductive Call (A σ α : Type)
  | done (result : α)
  | look (next : σ → Call A σ α)
  | act (change : A) (next : Call A σ α)

structure Returned (σ α : Type) where
  before : List α
  store : σ
  result : α

/-- A store, the calls under way, each with the results that were there when it began, and what has
been returned. -/
structure Pool (A σ α : Type) where
  store : σ
  running : List (List α × Call A σ α)
  returned : List (Returned σ α)

namespace Pool

def init (store : σ) : Pool A σ α := ⟨store, [], []⟩

def resume (pool : Pool A σ α) (before : List α) : Call A σ α → Pool A σ α
  | .done result => { pool with returned := pool.returned ++ [⟨before, pool.store, result⟩] }
  | .look next => { pool with running := pool.running ++ [(before, .look next)] }
  | .act change next => { pool with running := pool.running ++ [(before, .act change next)] }

/-- A call begins, goes through its next section, or is lost with its process, between two sections
or in the middle of one. -/
inductive Step (exec : A → Script σ) (calls : Call A σ α → Prop) (may : A → σ → Prop) :
    Pool A σ α → Pool A σ α → Prop
  | start (h : calls call) :
      Step exec calls may pool (pool.resume (pool.returned.map Returned.result) call)
  | look (h : pool.running = front ++ (before, .look next) :: back) :
      Step exec calls may pool
        (resume { pool with running := front ++ back } before (next pool.store))
  | act (h : pool.running = front ++ (before, .act change next) :: back)
      (hmay : may change pool.store) :
      Step exec calls may pool (resume
        { pool with store := (exec change).final pool.store, running := front ++ back } before next)
  | cut (h : pool.running = front ++ (before, .act change next) :: back)
      (hmay : may change pool.store) (hleaves : (exec change).Leaves pool.store s) :
      Step exec calls may pool { pool with store := s, running := front ++ back }
  | crash (h : pool.running = front ++ call :: back) :
      Step exec calls may pool { pool with running := front ++ back }

inductive Reaches (exec : A → Script σ) (calls : Call A σ α → Prop) (may : A → σ → Prop) (s : σ) :
    Pool A σ α → Prop
  | init : Reaches exec calls may s (.init s)
  | step (h : Reaches exec calls may s pool) (hstep : Step exec calls may pool pool') :
      Reaches exec calls may s pool'

theorem Reaches.mono (hmay : ∀ change s, may change s → may' change s)
    (h : Reaches exec calls may s pool) :
    Reaches exec calls may' s pool := by
  induction h with
  | init => exact .init
  | step _ hstep ih =>
    apply ih.step
    cases hstep with
    | start h => exact .start h
    | look h => exact .look h
    | act h hallowed => exact .act h (hmay _ _ hallowed)
    | cut h hallowed hleaves => exact .cut h (hmay _ _ hallowed) hleaves
    | crash h => exact .crash h

end Pool

/-- What the calls on a store rely on and guarantee: the store keeps an invariant and only grows,
and a result says something about the store that it does not outgrow. -/
structure Contract (A σ α : Type) where
  exec : A → Script σ
  may : A → σ → Prop
  inv : σ → Prop
  grows : σ → σ → Prop
  kept : α → σ → Prop
  post : List α → α → σ → Prop
  grows_refl : ∀ s, grows s s
  grows_trans : ∀ {s s' s''}, grows s s' → grows s' s'' → grows s s''
  kept_grows : ∀ {result s s'}, kept result s → grows s s' → kept result s'
  kept_of_post : ∀ {before result s}, post before result s → kept result s

namespace Contract
variable (c : Contract A σ α)

/-- Whatever the others do between its sections, the call keeps the contract and returns a result
with the postcondition. -/
def Safe (before : List α) : Call A σ α → σ → Prop
  | .done result, s => c.post before result s
  | .look next, s => ∀ s', c.grows s s' → c.inv s' → Safe before (next s') s'
  | .act change next, s => ∀ s', c.grows s s' → c.inv s' → c.may change s' →
      (∀ t, (c.exec change).Leaves s' t → c.inv t ∧ c.grows s' t) ∧
        Safe before next ((c.exec change).final s')

variable {c}

theorem Safe.grows (h : c.Safe before call s) (hgrows : c.grows s s')
    (hcall : ∀ result, call ≠ .done result) : c.Safe before call s' := by
  cases call with
  | done result => exact absurd rfl (hcall result)
  | look next => exact fun t hlater => h t (c.grows_trans hgrows hlater)
  | act change next => exact fun t hlater => h t (c.grows_trans hgrows hlater)

structure PoolSafe (c : Contract A σ α) (pool : Pool A σ α) : Prop where
  inv : c.inv pool.store
  running : ∀ call ∈ pool.running, (∀ result, call.2 ≠ .done result) ∧
    c.Safe call.1 call.2 pool.store
  returned : ∀ r ∈ pool.returned, c.post r.before r.result r.store ∧ c.kept r.result pool.store

theorem PoolSafe.advance (h : c.PoolSafe pool) (hinv : c.inv s) (hgrows : c.grows pool.store s)
    (hrest : rest ⊆ pool.running) :
    c.PoolSafe { pool with store := s, running := rest } where
  inv := hinv
  running := fun call hcall => ⟨(h.running call (hrest hcall)).1,
    (h.running call (hrest hcall)).2.grows hgrows (h.running call (hrest hcall)).1⟩
  returned := fun r hr => ⟨(h.returned r hr).1, c.kept_grows (h.returned r hr).2 hgrows⟩

theorem PoolSafe.resume (h : c.PoolSafe pool) (hcall : c.Safe before call pool.store) :
    c.PoolSafe (pool.resume before call) := by
  have hadded : (∀ result, call ≠ .done result) →
      ∀ running ∈ pool.running ++ [(before, call)],
        (∀ result, running.2 ≠ .done result) ∧ c.Safe running.1 running.2 pool.store := by
    intro hunfinished running hrunning
    rcases List.mem_append.1 hrunning with hrunning | hrunning
    · exact h.running running hrunning
    · rw [List.mem_singleton.1 hrunning]
      exact ⟨hunfinished, hcall⟩
  cases call with
  | done result =>
    refine ⟨h.inv, h.running, ?_⟩
    intro r hr
    rcases List.mem_append.1 hr with hr | hr
    · exact h.returned r hr
    · rw [List.mem_singleton.1 hr]
      exact ⟨hcall, c.kept_of_post hcall⟩
  | look next => exact ⟨h.inv, hadded nofun, h.returned⟩
  | act change next => exact ⟨h.inv, hadded nofun, h.returned⟩

/-- Safe calls may run together: the invariant holds throughout, and every result meets its
postcondition. -/
theorem poolSafe_of_reaches (hinit : c.inv s₀)
    (hsafe : ∀ call, calls call → ∀ before s, c.inv s → (∀ result ∈ before, c.kept result s) →
      c.Safe before call s) (h : Pool.Reaches c.exec calls c.may s₀ pool) : c.PoolSafe pool := by
  induction h with
  | init => exact ⟨hinit, fun _ hcall => absurd hcall List.not_mem_nil,
      fun _ hr => absurd hr List.not_mem_nil⟩
  | @step pool _ _ hstep ih =>
    have hothers : ∀ {front back : List (List α × Call A σ α)} {call : List α × Call A σ α},
        pool.running = front ++ call :: back →
          front ++ back ⊆ pool.running ∧ call ∈ pool.running := by
      intro front back call hrunning
      rw [hrunning]
      exact ⟨(List.Sublist.append_left (List.sublist_cons_self _ _) _).subset,
        List.mem_append_right _ (.head _)⟩
    cases hstep with
    | start hcall =>
      apply ih.resume
      apply hsafe _ hcall _ _ ih.inv
      intro result hresult
      obtain ⟨r, hr, rfl⟩ := List.mem_map.1 hresult
      exact (ih.returned r hr).2
    | look hrunning =>
      obtain ⟨hrest, hmem⟩ := hothers hrunning
      apply (ih.advance ih.inv (c.grows_refl _) hrest).resume
      exact (ih.running _ hmem).2 _ (c.grows_refl _) ih.inv
    | act hrunning hmay =>
      obtain ⟨hrest, hmem⟩ := hothers hrunning
      obtain ⟨hleaves, hnext⟩ := (ih.running _ hmem).2 _ (c.grows_refl _) ih.inv hmay
      obtain ⟨hinv, hgrows⟩ := hleaves _ (Script.leaves_final _ _)
      exact (ih.advance hinv hgrows hrest).resume hnext
    | cut hrunning hmay hleaves =>
      obtain ⟨hrest, hmem⟩ := hothers hrunning
      obtain ⟨hinv, hgrows⟩ := ((ih.running _ hmem).2 _ (c.grows_refl _) ih.inv hmay).1 _ hleaves
      exact ih.advance hinv hgrows hrest
    | crash hrunning =>
      exact ih.advance ih.inv (c.grows_refl _) (hothers hrunning).1

end Contract

end Heddle.Lib
