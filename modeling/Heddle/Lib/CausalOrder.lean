import Heddle.Lib.Ancestry

namespace Heddle.Lib
open List

namespace ParentGraph

/-- The whole past of a vertex is in the graph. -/
inductive Grounded (g : ParentGraph V) : V → Prop
  | intro : g v = some parents → (∀ p ∈ parents, g.Grounded p) → g.Grounded v

def Ready (g : ParentGraph V) (done : List V) (v : V) : Prop :=
  ∃ parents, g v = some parents ∧ v ∉ done ∧ ∀ p ∈ parents, p ∈ done

inductive Ordered (g : ParentGraph V) : List V → Prop
  | nil : g.Ordered []
  | snoc : g.Ordered done → g.Ready done v → g.Ordered (done ++ [v])

def Precedes (g : ParentGraph V) (w v : V) : Prop := Relation.TransGen g.Step v w

variable {g g' : ParentGraph V} {done : List V}

/-- `g'` has the vertices of `g`, with the same parents. -/
def Within (g g' : ParentGraph V) : Prop := ∀ v parents, g v = some parents → g' v = some parents

def Closed (g : ParentGraph V) : Prop := ∀ v p, g.Step v p → g.Available p

theorem Grounded.mono (h : g.Grounded v) (hwithin : g.Within g') : g'.Grounded v := by
  induction h with
  | intro hv _ ih => exact .intro (hwithin _ _ hv) ih

theorem Grounded.avoid (h : g'.Grounded v) (hsame : ∀ w, w ≠ x → g' w = g w) (hne : v ≠ x)
    (hx : ¬ g'.Precedes x v) : g.Grounded v := by
  induction h with
  | intro hv _ ih =>
    rw [hsame _ hne] at hv
    refine .intro hv fun p hp => ih p hp ?_ fun hlater => ?_
    · rintro rfl
      exact hx (.single ⟨_, (hsame _ hne).trans hv, hp⟩)
    · exact hx (.head ⟨_, (hsame _ hne).trans hv, hp⟩ hlater)

theorem Within.eq_of_available (hwithin : g.Within g') (hv : g.Available v) : g' v = g v := by
  obtain ⟨parents, hparents⟩ := Option.isSome_iff_exists.1 hv
  rw [hparents, hwithin v parents hparents]

theorem Within.step_iff (hwithin : g.Within g') (hv : g.Available v) : g'.Step v p ↔ g.Step v p := by
  unfold Step
  rw [hwithin.eq_of_available hv]

theorem Grounded.restrict (h : g'.Grounded v) (hwithin : g.Within g') (hclosed : g.Closed)
    (hv : g.Available v) : g.Grounded v := by
  induction h with
  | intro hparents _ ih =>
    rw [hwithin.eq_of_available hv] at hparents
    exact .intro hparents fun p hp => ih p hp (hclosed _ p ((ParentGraph.step_iff hparents).2 hp))

theorem Within.precedes_iff (hwithin : g.Within g') (hclosed : g.Closed) (hv : g.Available v) :
    g'.Precedes w v ↔ g.Precedes w v := by
  constructor
  · intro h
    induction h with
    | single hs => exact .single ((hwithin.step_iff hv).1 hs)
    | tail hp hs ih =>
      obtain ⟨u, _, hlast⟩ := Relation.TransGen.tail'_iff.1 ih
      exact .tail ih ((hwithin.step_iff (hclosed u _ hlast)).1 hs)
  · intro h
    induction h with
    | single hs => exact .single ((hwithin.step_iff hs.available).2 hs)
    | tail _ hs ih => exact .tail ih ((hwithin.step_iff hs.available).2 hs)

namespace Ordered

section
variable (h : g.Ordered done)
include h

theorem nodup : done.Nodup := by
  induction h with
  | nil => exact nodup_nil
  | snoc _ hready ih =>
    obtain ⟨_, _, hnew, _⟩ := hready
    exact nodup_append.2 ⟨ih, nodup_singleton _, fun a ha b hb heq =>
      hnew (mem_singleton.1 hb ▸ heq ▸ ha)⟩

theorem grounded : ∀ v ∈ done, g.Grounded v := by
  induction h with
  | nil => exact fun v hv => absurd hv not_mem_nil
  | snoc _ hready ih =>
    obtain ⟨parents, hv, _, hparents⟩ := hready
    intro w hw
    rcases mem_append.1 hw with hw | hw
    · exact ih w hw
    · obtain rfl := mem_singleton.1 hw
      exact .intro hv fun p hp => ih p (hparents p hp)

theorem available (hv : v ∈ done) : g.Available v := by
  cases h.grounded v hv with
  | intro hv => exact available_of_some hv

theorem closed (hv : v ∈ done) (hs : g.Step v p) : p ∈ done := by
  induction h with
  | nil => exact absurd hv not_mem_nil
  | snoc _ hready ih =>
    obtain ⟨parents, hparents, _, hall⟩ := hready
    rcases mem_append.1 hv with hv | hv
    · exact mem_append_left _ (ih hv)
    · obtain rfl := mem_singleton.1 hv
      exact mem_append_left _ (hall p ((step_iff hparents).1 hs))

theorem closed_precedes (hv : v ∈ done) (hp : g.Precedes w v) : w ∈ done := by
  induction hp with
  | single hs => exact h.closed hv hs
  | tail _ hs ih => exact h.closed ih hs

theorem pairwise : done.Pairwise fun v w => ¬ g.Precedes w v := by
  induction h with
  | nil => exact .nil
  | snoc hdone hready ih =>
    obtain ⟨_, _, hnew, _⟩ := hready
    refine pairwise_append.2 ⟨ih, pairwise_singleton _ _, fun v hv w hw hp => ?_⟩
    obtain rfl := mem_singleton.1 hw
    exact hnew (hdone.closed_precedes hv hp)

theorem irrefl (hv : v ∈ done) : ¬ g.Precedes v v := by
  induction h with
  | nil => exact absurd hv not_mem_nil
  | snoc hdone hready ih =>
    obtain ⟨parents, hparents, hnew, hall⟩ := hready
    rcases mem_append.1 hv with hv | hv
    · exact ih hv
    · obtain rfl := mem_singleton.1 hv
      intro hp
      obtain ⟨p, hs, hrest⟩ := Relation.TransGen.head'_iff.1 hp
      have hmem := hall p ((step_iff hparents).1 hs)
      rcases Relation.reflTransGen_iff_eq_or_transGen.1 hrest with rfl | hrest
      · exact hnew hmem
      · exact hnew (hdone.closed_precedes hmem hrest)

end

end Ordered

theorem Grounded.mem (h : g.Grounded v) (hnone : ∀ v, ¬ g.Ready done v) : v ∈ done := by
  induction h with
  | intro hv _ ih =>
    by_contra hnew
    exact hnone _ ⟨_, hv, hnew, ih⟩

end ParentGraph

section Schedule
variable {g : ParentGraph V} {next : List V → Option V}

def schedule (next : List V → Option V) : Nat → List V → List V
  | 0, done => done
  | n + 1, done =>
    match next done with
    | none => done
    | some v => schedule next n (done ++ [v])

/-- `next` finds a vertex that is ready as long as there is one. -/
structure FindsReady (g : ParentGraph V) (next : List V → Option V) : Prop where
  ready : ∀ {done v}, next done = some v → g.Ready done v
  none : ∀ {done v}, next done = none → ¬ g.Ready done v

theorem FindsReady.ordered (h : FindsReady g next) (n : Nat) (hdone : g.Ordered done) :
    g.Ordered (schedule next n done) := by
  induction n generalizing done with
  | zero => exact hdone
  | succ n ih =>
    rw [schedule]
    split
    · exact hdone
    · exact ih (.snoc hdone (h.ready ‹_›))

theorem schedule_length (n : Nat) (done : List V) (hnext : next (schedule next n done) = some v) :
    done.length + n ≤ (schedule next n done).length := by
  induction n generalizing done with
  | zero => exact le_rfl
  | succ n ih =>
    rw [schedule] at hnext ⊢
    split
    · rename_i hnone
      rw [hnone] at hnext
      dsimp only at hnext
      rw [hnone] at hnext
      cases hnext
    · rename_i w hsome
      rw [hsome] at hnext
      have hlong := ih (done ++ [w]) hnext
      rw [length_append, length_singleton] at hlong
      omega

section
variable (h : FindsReady g next) {vertices : List V} (hfin : ∀ v, g.Available v → v ∈ vertices)
include h hfin

theorem FindsReady.schedule_done : ∀ v, ¬ g.Ready (schedule next vertices.length []) v := by
  cases hnext : next (schedule next vertices.length []) with
  | none => exact fun v => h.none hnext
  | some v =>
    have hordered := h.ordered vertices.length .nil
    have hmore := hordered.snoc (h.ready hnext)
    have hlong := schedule_length vertices.length [] hnext
    have hsub := (hmore.nodup.subperm fun w hw => hfin w (hmore.available hw)).length_le
    rw [length_append, length_singleton] at hsub
    omega

theorem FindsReady.mem_schedule_iff :
    v ∈ schedule next vertices.length [] ↔ g.Grounded v :=
  ⟨(h.ordered _ .nil).grounded v, fun hv => hv.mem (h.schedule_done hfin)⟩

end

end Schedule

namespace ParentGraph

def Frontier (g : ParentGraph V) (v : V) : Prop := g.Available v ∧ ∀ c, ¬ g.Step c v

def grow [DecidableEq V] (g : ParentGraph V) (v : V) (parents : List V) : ParentGraph V :=
  Function.update g v (some parents)

section Grow
variable [DecidableEq V] {g : ParentGraph V} {v : V} {parents : List V}

@[simp] theorem grow_self : g.grow v parents v = some parents := Function.update_self ..

theorem grow_of_ne (h : w ≠ v) : g.grow v parents w = g w := Function.update_of_ne h ..

theorem step_grow (hnew : g v = none) :
    (g.grow v parents).Step c w ↔ c = v ∧ w ∈ parents ∨ g.Step c w := by
  by_cases hc : c = v
  · subst hc
    rw [step_iff grow_self]
    constructor
    · exact fun hw => .inl ⟨rfl, hw⟩
    · rintro (⟨_, hw⟩ | hstep)
      · exact hw
      · exact absurd hstep.available (not_available hnew)
  · unfold Step
    rw [grow_of_ne hc]
    constructor
    · exact .inr
    · rintro (⟨heq, _⟩ | hstep)
      · exact absurd heq hc
      · exact hstep

theorem available_grow : (g.grow v parents).Available w ↔ w = v ∨ g.Available w := by
  by_cases hw : w = v
  · subst hw
    exact ⟨fun _ => .inl rfl, fun _ => available_of_some grow_self⟩
  · rw [Available, grow_of_ne hw]
    exact ⟨.inr, fun h => h.resolve_left hw⟩

section
variable (hclosed : g.Closed) (hnew : g v = none) (hparents : ∀ p ∈ parents, g.Available p)
include hclosed hnew hparents

theorem Closed.grow :
    (g.grow v parents).Closed := by
  intro c w hstep
  rw [step_grow hnew] at hstep
  rw [available_grow]
  rcases hstep with ⟨_, hw⟩ | hstep
  · exact .inr (hparents w hw)
  · exact .inr (hclosed c w hstep)

theorem frontier_grow :
    (g.grow v parents).Frontier w ↔ w = v ∨ g.Frontier w ∧ w ∉ parents := by
  unfold Frontier
  simp only [step_grow hnew, available_grow]
  constructor
  · rintro ⟨hw, hchild⟩
    rcases hw with hw | hw
    · exact .inl hw
    · refine .inr ⟨⟨hw, fun c hstep => hchild c (.inr hstep)⟩, fun hmem => ?_⟩
      exact hchild v (.inl ⟨rfl, hmem⟩)
  · rintro (rfl | ⟨⟨hw, hchild⟩, hmem⟩)
    · refine ⟨.inl rfl, fun c hstep => ?_⟩
      rcases hstep with ⟨_, hmem⟩ | hstep
      · exact not_available hnew (hparents w hmem)
      · exact not_available hnew (hclosed c w hstep)
    · refine ⟨.inr hw, fun c hstep => ?_⟩
      rcases hstep with ⟨_, hmem'⟩ | hstep
      · exact hmem hmem'
      · exact hchild c hstep

end

end Grow

/-- No child, or nothing after it: the same where children inherit `P`. -/
theorem childless_iff_maximal {g : ParentGraph V} {P : V → Prop}
    (hinherit : ∀ c w, g.Step c w → P w → P c) (hw : P w) :
    (∀ c, ¬ g.Step c w) ↔ ∀ d, P d → ¬ g.Precedes w d := by
  constructor
  · intro hchild d _ hprecedes
    obtain ⟨c, _, hstep⟩ := Relation.TransGen.tail'_iff.1 hprecedes
    exact hchild c hstep
  · intro hmaximal c hstep
    exact hmaximal c (hinherit c w hstep hw) (.single hstep)

end ParentGraph

end Heddle.Lib
