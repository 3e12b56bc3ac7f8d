import Heddle.Repo.GraphLoading

namespace Heddle
open Heddle.Lib List

namespace Paint

def has : Paint → Bool → Bool
  | p, false => p.a
  | p, true => p.b

theorem ext_has {p q : Paint} (h : ∀ side, p.has side = q.has side) : p = q := by
  cases p with
  | mk a b =>
    cases q with
    | mk a' b' =>
      have ha : a = a' := h false
      have hb : b = b' := h true
      rw [ha, hb]

theorem eq_both : p = both ↔ ∀ side, p.has side := by
  constructor
  · rintro rfl side
    cases side <;> rfl
  · intro h
    apply ext_has
    intro side
    rw [h side]
    cases side <;> rfl

theorem bare_has (side : Bool) : bare.has side = false := by
  cases side <;> rfl

theorem union_has (p q : Paint) (side : Bool) : (p.union q).has side = (p.has side || q.has side) := by
  cases side <;> rfl

theorem without_has (p q : Paint) (side : Bool) :
    (p.without q).has side = (p.has side && !q.has side) := by
  cases side <;> rfl

theorem without_eq_bare {p q : Paint} : p.without q = bare ↔ ∀ side, p.has side → q.has side := by
  constructor
  · intro h side hp
    have hside := congrArg (has · side) h
    rw [without_has, bare_has, hp, Bool.true_and] at hside
    rwa [Bool.not_eq_false'] at hside
  · intro h
    apply ext_has
    intro side
    rw [without_has, bare_has]
    cases hp : p.has side with
    | false => rfl
    | true => rw [h side hp]; rfl

def missing (p : Paint) : Nat := (if p.a then 0 else 1) + (if p.b then 0 else 1)

theorem missing_union_lt {p q : Paint} (h : p.union q ≠ p) : (p.union q).missing < p.missing := by
  rcases p with ⟨_ | _, _ | _⟩ <;> rcases q with ⟨_ | _, _ | _⟩ <;>
    first | exact absurd rfl h | decide

end Paint

section Search
variable [LinearOrder ι] {g : ParentGraph ι} {graph : MergeBaseGraph ι} {vertices : List ι}
  {walk walk' : PaintWalk ι} {roots : Bool → ι}

def MergeBaseGraph.entry (graph : MergeBaseGraph ι) (v : ι) : WithBot Nat ×ₗ ι :=
  toLex (graph.rank v, v)

def PaintWalk.work (vertices : List ι) (walk : PaintWalk ι) : Nat :=
  walk.queue.length + (vertices.map fun v => (walk.paint v).missing).sum

/-- The states `painted` got the colours; those that did not have them are queued. -/
structure Painted (graph : MergeBaseGraph ι) (vertices : List ι) (colors : Paint)
    (painted : List ι) (walk walk' : PaintWalk ι) : Prop where
  paint : ∀ v side, (walk'.paint v).has side =
    ((walk.paint v).has side || (decide (v ∈ painted) && colors.has side))
  queued : ∀ v, walk'.paint v ≠ walk.paint v → graph.entry v ∈ walk'.queue
  keeps : ∀ e ∈ walk.queue, e ∈ walk'.queue
  entries : ∀ e ∈ walk'.queue, e ∈ walk.queue ∨ ∃ v, e = graph.entry v
  sorted : walk.queue.Pairwise (· ≥ ·) → walk'.queue.Pairwise (· ≥ ·)
  propagated : walk'.propagated = walk.propagated
  best : walk'.best = walk.best
  work : (∀ v ∈ painted, v ∈ vertices) → walk'.work vertices ≤ walk.work vertices

theorem painted_nil : Painted graph vertices colors [] walk walk where
  paint v side := by rw [decide_eq_false not_mem_nil, Bool.false_and, Bool.or_false]
  queued v h := absurd rfl h
  keeps _ h := h
  entries _ h := .inl h
  sorted h := h
  propagated := rfl
  best := rfl
  work _ := le_rfl

theorem paintState_painted (graph : MergeBaseGraph ι) (vertices : List ι) (colors : Paint)
    (walk : PaintWalk ι) (v : ι) :
    Painted graph vertices colors [v] walk (paintState graph colors walk v) := by
  unfold paintState
  dsimp only
  split
  · rename_i hsame
    have hnil : Painted graph vertices colors [] walk walk := painted_nil
    refine { hnil with paint := fun w side => ?_, work := fun _ => le_rfl }
    by_cases hw : w = v
    · subst hw
      have hside := congrArg (Paint.has · side) hsame
      rw [Paint.union_has] at hside
      rw [decide_eq_true (mem_singleton_self w), Bool.true_and, hside]
    · rw [decide_eq_false (mt mem_singleton.1 hw), Bool.false_and, Bool.or_false]
  · rename_i hchanged
    constructor
    case paint =>
      intro w side
      dsimp only
      by_cases hw : w = v
      · subst hw
        rw [Function.update_self, Paint.union_has, decide_eq_true (mem_singleton_self w),
          Bool.true_and]
      · rw [Function.update_of_ne hw, decide_eq_false (mt mem_singleton.1 hw), Bool.false_and,
          Bool.or_false]
    case queued =>
      intro w hw
      dsimp only at hw
      by_cases heq : w = v
      · exact heq ▸ (mem_orderedInsert _).2 (.inl rfl)
      · rw [Function.update_of_ne heq] at hw
        exact absurd rfl hw
    case keeps => exact fun e he => (mem_orderedInsert _).2 (.inr he)
    case entries =>
      intro e he
      exact ((mem_orderedInsert _).1 he).symm.imp_right fun h => ⟨v, h⟩
    case sorted => exact fun h => h.orderedInsert _
    case propagated => rfl
    case best => rfl
    case work =>
      intro hv
      have hpaint : ∀ w, (Function.update walk.paint v ((walk.paint v).union colors) w).missing ≤
          (walk.paint w).missing := by
        intro w
        by_cases hw : w = v
        · subst hw
          rw [Function.update_self]
          exact (Paint.missing_union_lt hchanged).le
        · rw [Function.update_of_ne hw]
      have hlt : (vertices.map fun w =>
          (Function.update walk.paint v ((walk.paint v).union colors) w).missing).sum <
          (vertices.map fun w => (walk.paint w).missing).sum := by
        apply sum_lt_sum
        · exact fun w _ => hpaint w
        · refine ⟨v, hv v (mem_singleton_self v), ?_⟩
          rw [Function.update_self]
          exact Paint.missing_union_lt hchanged
      unfold PaintWalk.work
      dsimp only
      rw [orderedInsert_length]
      omega

theorem Painted.trans (h : Painted graph vertices colors painted walk walk')
    (h' : Painted graph vertices colors painted' walk' walk'') :
    Painted graph vertices colors (painted ++ painted') walk walk'' where
  paint v side := by
    rw [h'.paint, h.paint, Bool.or_assoc, ← Bool.and_or_distrib_right, ← Bool.decide_or]
    simp only [mem_append]
  queued v hv := by
    by_cases heq : walk'.paint v = walk.paint v
    · exact h'.queued v (heq ▸ hv)
    · exact h'.keeps _ (h.queued v heq)
  keeps e he := h'.keeps e (h.keeps e he)
  entries e he := (h'.entries e he).elim (h.entries e) .inr
  sorted hs := h'.sorted (h.sorted hs)
  propagated := h'.propagated.trans h.propagated
  best := h'.best.trans h.best
  work hv := (h'.work fun v hm => hv v (mem_append_right _ hm)).trans
    (h.work fun v hm => hv v (mem_append_left _ hm))

theorem foldl_painted (graph : MergeBaseGraph ι) (vertices : List ι) (colors : Paint)
    (states : List ι) (walk : PaintWalk ι) :
    Painted graph vertices colors states walk (states.foldl (paintState graph colors) walk) := by
  induction states generalizing walk with
  | nil => exact painted_nil
  | cons v states ih => exact (paintState_painted graph vertices colors walk v).trans (ih _)

def sideRoot (a b : ι) : Bool → ι
  | false => a
  | true => b

structure PaintInv (g : ParentGraph ι) (graph : MergeBaseGraph ι) (roots : Bool → ι)
    (walk : PaintWalk ι) : Prop where
  sound : ∀ v side, (walk.paint v).has side → g.Reaches (roots side) v
  within : ∀ v side, (walk.propagated v).has side → (walk.paint v).has side
  sorted : walk.queue.Pairwise (· ≥ ·)
  entries : ∀ e ∈ walk.queue, ∃ v, e = graph.entry v

structure Searching (g : ParentGraph ι) (graph : MergeBaseGraph ι) (roots : Bool → ι)
    (walk : PaintWalk ι) : Prop where
  best : walk.best = none
  roots : ∀ side, (walk.paint (roots side)).has side
  queued : ∀ v side, (walk.paint v).has side → (walk.propagated v).has side ∨
    graph.entry v ∈ walk.queue
  spread : ∀ v side, (walk.propagated v).has side → walk.propagated v ≠ .both ∧
    ∀ p, g.Step v p → (walk.paint p).has side

/-- `base` is of the greatest generation; only smaller states of that generation are looked for. -/
structure Draining (g : ParentGraph ι) (graph : MergeBaseGraph ι) (roots : Bool → ι)
    (walk : PaintWalk ι) (base : ι) : Prop where
  best : walk.best = some (graph.rank base, base)
  common : ∀ side, g.Reaches (roots side) base
  greatest : ∀ v, (∀ side, g.Reaches (roots side) v) → graph.rank v ≤ graph.rank base
  rest : ∀ v, (∀ side, g.Reaches (roots side) v) → graph.rank v = graph.rank base →
    base ≤ v ∨ (graph.entry v ∈ walk.queue ∧ walk.paint v = .both ∧ walk.propagated v ≠ .both)

def PaintInv.Phase (g : ParentGraph ι) (graph : MergeBaseGraph ι) (roots : Bool → ι)
    (walk : PaintWalk ι) : Prop :=
  PaintInv g graph roots walk ∧
    (Searching g graph roots walk ∨ ∃ base, Draining g graph roots walk base)

omit [LinearOrder ι] in
/-- While nothing is queued above it, a state that is reached has its colour. -/
theorem Searching.painted (h : Searching g graph roots walk)
    (hsettled : ∀ side, Settled g graph (roots side)) (hv : g.Reaches (roots side) v)
    (habove : ∀ w, graph.entry w ∈ walk.queue → graph.rank w ≤ graph.rank v) :
    (walk.paint v).has side := by
  induction hv with
  | refl => exact h.roots side
  | @tail w v hw hs ih =>
    have hlt := (hsettled side).rank_lt hw hs
    have hpaint := ih fun x hx => (habove x hx).trans hlt.le
    rcases h.queued w side hpaint with hpropagated | hqueued
    · exact (h.spread w side hpropagated).2 v hs
    · exact absurd (habove w hqueued) hlt.not_ge

omit [LinearOrder ι] in
theorem Searching.not_both (h : Searching g graph roots walk) (v : ι) :
    walk.propagated v ≠ .both := fun hboth =>
  (h.spread v false (Paint.eq_both.1 hboth false)).1 hboth

theorem Searching.both_queued (h : Searching g graph roots walk)
    (hv : ∀ side, (walk.paint v).has side) : graph.entry v ∈ walk.queue := by
  by_contra hqueued
  apply h.not_both v
  rw [Paint.eq_both]
  exact fun side => (h.queued v side (hv side)).resolve_right hqueued

section Pop
variable {top : WithBot Nat ×ₗ ι} {queue : List (WithBot Nat ×ₗ ι)}

section
variable (h : PaintInv g graph roots walk) (hqueue : walk.queue = top :: queue)
include h hqueue

theorem PaintInv.pop :
    PaintInv g graph roots { walk with queue := queue } where
  sound := h.sound
  within := h.within
  sorted := (pairwise_cons.1 (hqueue ▸ h.sorted)).2
  entries e he := h.entries e (hqueue ▸ mem_cons_of_mem top he)

theorem PaintInv.top_entry :
    top = graph.entry (ofLex top).2 := by
  obtain ⟨v, rfl⟩ := h.entries top (hqueue ▸ mem_cons_self)
  rfl

theorem PaintInv.le_top (hv : graph.entry v ∈ walk.queue) : graph.rank v ≤ (ofLex top).1 := by
  have hle : graph.entry v ≤ top := by
    rw [hqueue] at hv
    rcases mem_cons.1 hv with rfl | hv
    · exact le_rfl
    · have hsorted := h.sorted
      rw [hqueue] at hsorted
      exact (pairwise_cons.1 hsorted).1 _ hv
  exact Prod.Lex.monotone_fst _ _ hle

end

omit [LinearOrder ι] in
theorem mem_queue_of_ne (hqueue : walk.queue = top :: queue) (hv : graph.entry v ∈ walk.queue)
    (hne : v ≠ (ofLex top).2) : graph.entry v ∈ queue := by
  rw [hqueue] at hv
  refine (mem_cons.1 hv).resolve_left ?_
  rintro rfl
  exact hne rfl

theorem Searching.skip (h : Searching g graph roots walk) (hqueue : walk.queue = top :: queue)
    (hspread : ∀ side, (walk.paint (ofLex top).2).has side →
      (walk.propagated (ofLex top).2).has side) :
    Searching g graph roots { walk with queue := queue } where
  best := h.best
  roots := h.roots
  spread := h.spread
  queued v side hv := by
    by_cases heq : v = (ofLex top).2
    · subst heq
      exact .inl (hspread side hv)
    · exact (h.queued v side hv).imp_right fun hv => mem_queue_of_ne hqueue hv heq

theorem Draining.skip (h : Draining g graph roots walk base) (hqueue : walk.queue = top :: queue)
    (hspread : ∀ side, (walk.paint (ofLex top).2).has side →
      (walk.propagated (ofLex top).2).has side) :
    Draining g graph roots { walk with queue := queue } base where
  best := h.best
  common := h.common
  greatest := h.greatest
  rest v hv hrank := by
    refine (h.rest v hv hrank).imp_right fun ⟨hmem, hpaint, hpropagated⟩ => ?_
    refine ⟨mem_queue_of_ne hqueue hmem ?_, hpaint, hpropagated⟩
    rintro rfl
    apply hpropagated
    rw [Paint.eq_both]
    exact fun side => hspread side (Paint.eq_both.1 hpaint side)

section Spread
variable (hinv : PaintInv g graph roots walk) (hqueue : walk.queue = graph.entry v :: queue)
include hinv hqueue

/-- The first state that is popped with both colours is of the greatest generation. -/
theorem Searching.found (h : Searching g graph roots walk)
    (hsettled : ∀ side, Settled g graph (roots side)) (hboth : walk.paint v = .both) :
    Draining g graph roots { walk with
      queue := queue
      propagated := Function.update walk.propagated v (walk.paint v)
      best := some (graph.rank v, v)
      ancestorsVisited := visited } v where
  best := rfl
  common side := hinv.sound v side (Paint.eq_both.1 hboth side)
  greatest w hw := by
    by_contra habove
    have hpaint : ∀ side, (walk.paint w).has side := fun side =>
      h.painted hsettled (hw side) fun x hx => (hinv.le_top hqueue hx).trans (not_le.1 habove).le
    exact habove (hinv.le_top hqueue (h.both_queued hpaint))
  rest w hw hrank := by
    by_cases heq : w = v
    · exact .inl heq.ge
    · have hpaint : ∀ side, (walk.paint w).has side := fun side =>
        h.painted hsettled (hw side) fun x hx => (hinv.le_top hqueue hx).trans hrank.ge
      refine .inr ⟨mem_queue_of_ne hqueue (h.both_queued hpaint) heq, Paint.eq_both.2 hpaint, ?_⟩
      dsimp only
      rw [Function.update_of_ne heq]
      exact h.not_both w

theorem Searching.handOn (h : Searching g graph roots walk) (hboth : walk.paint v ≠ .both)
    (hpainted : Painted graph vertices (walk.paint v) parents { walk with
      queue := queue
      propagated := Function.update walk.propagated v (walk.paint v)
      ancestorsVisited := visited } walk') (hparents : ∀ p, p ∈ parents ↔ g.Step v p) :
    PaintInv g graph roots walk' ∧ Searching g graph roots walk' := by
  have hpaint : ∀ w side, (walk.paint w).has side → (walk'.paint w).has side := by
    intro w side hw
    rw [hpainted.paint, Bool.or_eq_true]
    exact .inl hw
  have hupdate : walk'.propagated = Function.update walk.propagated v (walk.paint v) :=
    hpainted.propagated
  have hpropagated : ∀ w side, (walk'.propagated w).has side →
      (w = v ∧ (walk.paint v).has side) ∨ (walk.propagated w).has side := by
    intro w side hw
    rw [hupdate] at hw
    by_cases heq : w = v
    · subst heq
      rw [Function.update_self] at hw
      exact .inl ⟨rfl, hw⟩
    · rw [Function.update_of_ne heq] at hw
      exact .inr hw
  constructor
  · constructor
    case sound =>
      intro w side hw
      rw [hpainted.paint, Bool.or_eq_true, Bool.and_eq_true] at hw
      rcases hw with hw | ⟨hw, hcolor⟩
      · exact hinv.sound w side hw
      · exact (hinv.sound v side hcolor).tail ((hparents w).1 (of_decide_eq_true hw))
    case within =>
      intro w side hw
      rcases hpropagated w side hw with ⟨rfl, hw⟩ | hw
      · exact hpaint w side hw
      · exact hpaint w side (hinv.within w side hw)
    case sorted => exact hpainted.sorted (hinv.pop hqueue).sorted
    case entries =>
      intro e he
      exact (hpainted.entries e he).elim ((hinv.pop hqueue).entries e) id
  · constructor
    case best => exact hpainted.best.trans h.best
    case roots => exact fun side => hpaint _ side (h.roots side)
    case queued =>
      intro w side hw
      by_cases hsame : walk'.paint w = walk.paint w
      · rw [hsame] at hw
        by_cases heq : w = v
        · subst heq
          rw [hupdate, Function.update_self]
          exact .inl hw
        · rw [hupdate, Function.update_of_ne heq]
          refine (h.queued w side hw).imp_right fun hw => ?_
          exact hpainted.keeps _ (mem_queue_of_ne hqueue hw heq)
      · exact .inr (hpainted.queued w hsame)
    case spread =>
      intro w side hw
      rcases hpropagated w side hw with ⟨rfl, hcolor⟩ | hw'
      · rw [hupdate, Function.update_self]
        refine ⟨hboth, fun p hp => ?_⟩
        rw [hpainted.paint, Bool.or_eq_true, Bool.and_eq_true]
        exact .inr ⟨decide_eq_true ((hparents p).2 hp), hcolor⟩
      · refine ⟨?_, fun p hp => hpaint p side ((h.spread w side hw').2 p hp)⟩
        rw [hupdate]
        by_cases heq : w = v
        · subst heq
          rw [Function.update_self]
          exact hboth
        · rw [Function.update_of_ne heq]
          exact h.not_both w

theorem Draining.better (h : Draining g graph roots walk base) (hboth : walk.paint v = .both)
    (hlevel : ¬ graph.rank v < graph.rank base) :
    ∃ base', betterBase walk.best (graph.rank v) v = (graph.rank base', base') ∧
      Draining g graph roots { walk with
        queue := queue
        propagated := Function.update walk.propagated v (walk.paint v)
        best := some (graph.rank base', base')
        ancestorsVisited := visited } base' := by
  have hcommon : ∀ side, g.Reaches (roots side) v := fun side =>
    hinv.sound v side (Paint.eq_both.1 hboth side)
  have hrank : graph.rank v = graph.rank base := le_antisymm (h.greatest v hcommon) (not_lt.1 hlevel)
  have hrest : ∀ base', base' ≤ base → base' ≤ v → ∀ w, (∀ side, g.Reaches (roots side) w) →
      graph.rank w = graph.rank base → base' ≤ w ∨ (graph.entry w ∈ queue ∧ walk.paint w = .both ∧
        Function.update walk.propagated v (walk.paint v) w ≠ .both) := by
    intro base' hbase hv w hw hwrank
    by_cases heq : w = v
    · exact .inl (heq ▸ hv)
    · rcases h.rest w hw hwrank with hle | ⟨hmem, hpaint, hpropagated⟩
      · exact .inl (hbase.trans hle)
      · rw [Function.update_of_ne heq]
        exact .inr ⟨mem_queue_of_ne hqueue hmem heq, hpaint, hpropagated⟩
  rw [h.best, betterBase]
  split
  · rename_i hkeep
    have hle : base ≤ v := (hkeep.resolve_left hlevel).2
    exact ⟨base, rfl, rfl, h.common, h.greatest, hrest base le_rfl hle⟩
  · rename_i hreplace
    have hle : v ≤ base := (le_total v base).resolve_right fun hle => hreplace (.inr ⟨hrank, hle⟩)
    refine ⟨v, rfl, rfl, hcommon, ?_, ?_⟩
    · exact fun w hw => (h.greatest w hw).trans hrank.ge
    · exact fun w hw hwrank => hrest v hle le_rfl w hw (hwrank.trans hrank)

omit hinv in
theorem Draining.pass (h : Draining g graph roots walk base) (hboth : walk.paint v ≠ .both) :
    Draining g graph roots { walk with
      queue := queue
      propagated := Function.update walk.propagated v (walk.paint v)
      ancestorsVisited := visited } base where
  best := h.best
  common := h.common
  greatest := h.greatest
  rest w hw hrank := by
    refine (h.rest w hw hrank).imp_right fun ⟨hmem, hpaint, hpropagated⟩ => ?_
    have hne : w ≠ v := by
      rintro rfl
      exact hboth hpaint
    dsimp only
    rw [Function.update_of_ne hne]
    exact ⟨mem_queue_of_ne hqueue hmem hne, hpaint, hpropagated⟩

theorem PaintInv.propagate (best : Option (WithBot Nat × ι)) (visited : Nat) :
    PaintInv g graph roots { walk with
      queue := queue
      propagated := Function.update walk.propagated v (walk.paint v)
      best := best
      ancestorsVisited := visited } where
  sound := hinv.sound
  within w side hw := by
    dsimp only at hw
    by_cases heq : w = v
    · subst heq
      rwa [Function.update_self] at hw
    · rw [Function.update_of_ne heq] at hw
      exact hinv.within w side hw
  sorted := (hinv.pop hqueue).sorted
  entries := (hinv.pop hqueue).entries

end Spread

variable (hvertices : ∀ x p, g.Step x p → p ∈ vertices)
include hvertices

section
variable (h : PaintInv.Phase g graph roots walk) (hsettled : ∀ side, Settled g graph (roots side))
include h hsettled

theorem spreadPaint_phase (hqueue : walk.queue = graph.entry v :: queue)
    (hlevel : ¬ (walk.best.any fun best => graph.rank v < best.1) = true)
    (hcolor : (walk.paint v).has side) :
    PaintInv.Phase g graph roots (spreadPaint graph { walk with queue := queue } (graph.rank v) v) ∧
      (spreadPaint graph { walk with queue := queue } (graph.rank v) v).work vertices <
        walk.work vertices := by
  have hpop : ∀ walk' : PaintWalk ι, walk'.queue = queue → walk'.paint = walk.paint →
      walk'.work vertices < walk.work vertices := by
    intro walk' hqueue' hpaint
    rw [PaintWalk.work, PaintWalk.work, hqueue', hpaint, hqueue, length_cons]
    omega
  obtain ⟨hinv, hphase⟩ := h
  by_cases hboth : walk.paint v = .both
  · unfold spreadPaint
    dsimp only
    rw [if_pos hboth]
    refine ⟨⟨hinv.propagate hqueue _ _, .inr ?_⟩, hpop _ rfl rfl⟩
    rcases hphase with hsearch | ⟨base, hdrain⟩
    · rw [hsearch.best]
      exact ⟨v, hsearch.found hinv hqueue hsettled hboth⟩
    · rw [hdrain.best, Option.any_some, decide_eq_true_iff] at hlevel
      obtain ⟨base', hbetter, hdrain'⟩ := hdrain.better hinv hqueue hboth hlevel
      rw [hbetter]
      exact ⟨base', hdrain'⟩
  · unfold spreadPaint
    dsimp only
    rw [if_neg hboth]
    rcases hphase with hsearch | ⟨base, hdrain⟩
    · have hreaches := hinv.sound v side hcolor
      have hparents := ((hsettled side).reaches hreaches).parents
      rw [hsearch.best, if_neg (by exact Bool.false_ne_true), hparents]
      have hmem : ∀ p, p ∈ (g v).getD [] ↔ g.Step v p := by
        intro p
        cases hg : g v with
        | none => exact ⟨nofun, fun hs => absurd hs.available (ParentGraph.not_available hg)⟩
        | some parents => exact (ParentGraph.step_iff hg).symm
      have hpainted := foldl_painted graph vertices (walk.paint v) ((g v).getD []) { walk with
          queue := queue
          propagated := Function.update walk.propagated v (walk.paint v)
          ancestorsVisited := walk.ancestorsVisited + 1 }
      obtain ⟨hinv', hsearch'⟩ := hsearch.handOn hinv hqueue hboth hpainted hmem
      rw [hsearch.best] at hpainted hinv' hsearch'
      refine ⟨⟨hinv', .inl hsearch'⟩, ?_⟩
      exact (hpainted.work fun p hp => hvertices v p ((hmem p).1 hp)).trans_lt (hpop _ rfl rfl)
    · rw [if_pos (by rw [hdrain.best]; rfl)]
      exact ⟨⟨hinv.propagate hqueue _ _, .inr ⟨base, hdrain.pass hqueue hboth⟩⟩, hpop _ rfl rfl⟩

theorem paintRound_next (hround : paintRound graph walk = .next walk') :
    PaintInv.Phase g graph roots walk' ∧ walk'.work vertices < walk.work vertices := by
  unfold paintRound at hround
  split at hround
  · cases hround
  · rename_i top queue hqueue
    have htop := h.1.top_entry hqueue
    split at hround
    · cases hround
    · rename_i hlevel
      split at hround
      · rename_i hskip
        obtain rfl := (Round.next.inj hround).symm
        have hspread := Paint.without_eq_bare.1 hskip
        refine ⟨⟨h.1.pop hqueue, ?_⟩, ?_⟩
        · exact h.2.imp (fun hsearch => hsearch.skip hqueue hspread)
            fun ⟨base, hdrain⟩ => ⟨base, hdrain.skip hqueue hspread⟩
        · rw [PaintWalk.work, PaintWalk.work, hqueue, length_cons]
          dsimp only
          omega
      · rename_i hspread
        rw [Paint.without_eq_bare, not_forall] at hspread
        obtain ⟨side, hside⟩ := hspread
        obtain rfl := (Round.next.inj hround).symm
        have hrank : (ofLex top).1 = graph.rank (ofLex top).2 := congrArg (fun e => (ofLex e).1) htop
        rw [hrank] at hlevel ⊢
        rw [htop] at hqueue
        exact spreadPaint_phase hvertices h hsettled hqueue hlevel (Classical.not_imp.1 hside).1

end

omit hvertices

theorem paintRound_done (h : PaintInv.Phase g graph (sideRoot a b) walk)
    (hsettled : ∀ side, Settled g graph (sideRoot a b side))
    (hround : paintRound graph walk = .done search) :
    g.IsMergeBase graph.rank a b search.mergeBase := by
  have hcommon : ∀ c, g.CommonAncestor a b c ↔ ∀ side, g.Reaches (sideRoot a b side) c := by
    intro c
    constructor
    · intro hc side
      cases side with
      | false => exact hc.1
      | true => exact hc.2
    · exact fun hc => ⟨hc false, hc true⟩
  have hfinal : ∀ base, Draining g graph (sideRoot a b) walk base →
      (∀ v, graph.entry v ∈ walk.queue → graph.rank v < graph.rank base) →
      g.IsMergeBase graph.rank a b (some base) := by
    intro base hdrain hbelow
    refine ⟨(hcommon base).2 hdrain.common, fun c hc => ?_⟩
    have hc := (hcommon c).1 hc
    rcases (hdrain.greatest c hc).lt_or_eq with hlt | heq
    · exact .inl hlt
    · refine .inr ⟨heq, (hdrain.rest c hc heq).resolve_right fun hqueued => ?_⟩
      exact absurd heq (hbelow c hqueued.1).ne
  obtain ⟨hinv, hphase⟩ := h
  unfold paintRound at hround
  split at hround
  · rename_i hqueue
    obtain rfl := (Round.done.inj hround).symm
    rcases hphase with hsearch | ⟨base, hdrain⟩
    · rw [PaintWalk.search, hsearch.best]
      intro c hc
      have hempty : ∀ v, graph.entry v ∉ walk.queue := fun v hv =>
        absurd (hqueue ▸ hv) not_mem_nil
      refine hempty c (hsearch.both_queued fun side => ?_)
      exact hsearch.painted hsettled ((hcommon c).1 hc side) fun w hw => absurd hw (hempty w)
    · rw [PaintWalk.search, hdrain.best]
      exact hfinal base hdrain fun v hv => absurd (hqueue ▸ hv) not_mem_nil
  · rename_i top queue hqueue
    split at hround
    · rename_i hlevel
      obtain rfl := (Round.done.inj hround).symm
      rcases hphase with hsearch | ⟨base, hdrain⟩
      · rw [hsearch.best] at hlevel
        exact absurd hlevel Bool.false_ne_true
      · rw [PaintWalk.search, hdrain.best]
        rw [hdrain.best, Option.any_some, decide_eq_true_iff] at hlevel
        exact hfinal base hdrain fun v hv => (hinv.le_top hqueue hv).trans_lt hlevel
    · split at hround <;> cases hround

end Pop

/-- On a graph that knows both ancestries the search ends with the merge base. -/
theorem findMergeBaseInGraph_returns (ha : Settled g graph a) (hb : Settled g graph b)
    (hvertices : ∀ x p, g.Step x p → p ∈ vertices) : ∃ search,
      Returns (fun fuel => findMergeBaseInGraph fuel graph a b) search ∧
      g.IsMergeBase graph.rank a b search.mergeBase := by
  have hsettled : ∀ side, Settled g graph (sideRoot a b side) := by
    intro side
    cases side with
    | false => exact ha
    | true => exact hb
  let start : PaintWalk ι := ⟨[], fun _ => .bare, fun _ => .bare, none, 0⟩
  have hA := paintState_painted graph [] .onlyA start a
  have hB := paintState_painted graph [] .onlyB (paintState graph .onlyA start a) b
  let walk := paintState graph .onlyB (paintState graph .onlyA start a) b
  have hpaint : ∀ v side, (walk.paint v).has side ↔ v = sideRoot a b side := by
    intro v side
    have hbare : (start.paint v).has side = false := Paint.bare_has side
    rw [hB.paint, hA.paint, hbare]
    cases side <;> simp [Paint.has, Paint.onlyA, Paint.onlyB, sideRoot]
  have hpropagated : ∀ v side, (walk.propagated v).has side = false := by
    intro v side
    rw [hB.propagated, hA.propagated]
    exact Paint.bare_has side
  have hqueued : ∀ v side, (walk.paint v).has side → graph.entry v ∈ walk.queue := by
    intro v side hv
    by_cases hsame : walk.paint v = (paintState graph .onlyA start a).paint v
    · refine hB.keeps _ (hA.queued v fun hbare => ?_)
      rw [hsame, hbare] at hv
      exact absurd hv (by rw [Paint.bare_has side]; exact Bool.false_ne_true)
    · exact hB.queued v hsame
  have hphase : PaintInv.Phase g graph (sideRoot a b) walk := by
    refine ⟨⟨?_, ?_, ?_, ?_⟩, .inl ⟨?_, ?_, ?_, ?_⟩⟩
    · intro v side hv
      exact (hpaint v side).1 hv ▸ .refl
    · exact fun v side hv => absurd hv (by rw [hpropagated]; exact Bool.false_ne_true)
    · exact hB.sorted (hA.sorted List.Pairwise.nil)
    · intro e he
      rcases hB.entries e he with he | he
      · exact (hA.entries e he).resolve_left not_mem_nil
      · exact he
    · exact hB.best.trans hA.best
    · exact fun side => (hpaint _ side).2 rfl
    · exact fun v side hv => .inr (hqueued v side hv)
    · exact fun v side hv => absurd hv (by rw [hpropagated]; exact Bool.false_ne_true)
  exact runLoop_returns (PaintWalk.work vertices)
    (fun _ _ h hround => paintRound_next hvertices h hsettled hround)
    (fun _ _ h hround => paintRound_done h hsettled hround) hphase

end Search

end Heddle
