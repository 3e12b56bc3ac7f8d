import Heddle.SourceTarget.Update

namespace Heddle.SourceTarget
open Heddle.Lib List

section Get
variable {blake3 : Bytes → ContentHash} {store : MapStore S E}
  {contents : S → ContentHash → Option Bytes} {W : Set Bytes} {also : MapError E → Prop}
  (hlawful : store.Lawful contents) {w : Work S}

theorem search_get (m : Bindings) (key : ContentHash) :
    (binarySearchBy Prod.fst key m.entries).toOption.map (·.2.2) = m.get key := by
  cases hsearch : binarySearchBy Prod.fst key m.entries with
  | error index =>
    rw [SortedMap.get, (binarySearchBy_error m.sorted hsearch).1]
    rfl
  | ok found =>
    obtain ⟨index, entry⟩ := found
    rw [SortedMap.get, (binarySearchBy_ok m.sorted hsearch).2.1]
    rfl

theorem get_under (m : Bindings) (key : ContentHash) (depth : Nat) :
    SortedMap.get (m.under depth (group key depth)) key = m.get key := by
  rw [Bindings.under, SortedMap.get_restrict, if_pos (decide_eq_true rfl)]

include hlawful

theorem getAt_ends (hfits : Fits route m) (hkey : outsideRoute route key = false)
    (hlen : route.length + below = levels) (hnil : m.entries ≠ [])
    (hlt : m.entries.length < 2 ^ 64) (hexpected : ∀ count ∈ expected, count = m.entries.length)
    (hsound : Sound blake3 contents W w.store)
    (hstored : Stored blake3 contents w.store below route.length m) :
    Ends (accounting blake3 contents W also) (1 + below, 0)
      (getAt blake3 store key below (blobHash blake3 (canonNode blake3 below route.length m).encode)
        expected route) w fun value _ => value = m.get key := by
  induction below generalizing m route expected w with
  | zero =>
    have hsmall : m.entries.length ≤ leafEntries := (hfits.length_le hlen).trans (by decide)
    rw [getAt]
    refine Ends.bind (b := 0) (load_canonNode_ends hlawful hfits hlen hnil hlt hexpected
      hstored) ?_
    intro node w' _ hnode
    rw [canonNode_small blake3 _ _ hsmall] at hnode
    subst hnode
    exact Ends.pure (search_get m key)
  | succ below ih =>
    rw [getAt]
    refine Ends.weaken (Ends.bind (b := (1 + below, 0)) (load_canonNode_ends hlawful hfits hlen hnil hlt hexpected
      hstored) ?_)
      ⟨?_, le_rfl⟩
    · intro node w' hkeeps hnode
      obtain ⟨hsound', hgrow⟩ := hkeeps.1 hsound
      rcases Nat.lt_or_ge leafEntries m.entries.length with hlarge | hsmall
      · rw [canonNode_large blake3 hlarge] at hnode
        subst hnode
        have hslot := group_lt key route.length
        have hlookup := lookup_canonChildren blake3 below route.length m hslot
        simp only
        cases hsearch : binarySearchBy Child.slot (group key route.length)
            (canonChildren blake3 below route.length m) with
        | error index =>
          rw [(binarySearchBy_error (canonChildren_sorted blake3 _ _ _) hsearch).1] at hlookup
          have hnone := (canonLink_eq_none blake3).1 (Option.map_eq_none_iff.1 hlookup.symm)
          refine Ends.weaken (Ends.pure ?_) zero_le
          rw [← get_under m key route.length, SortedMap.get, hnone]
          rfl
        | ok found =>
          obtain ⟨index, child⟩ := found
          rw [(binarySearchBy_ok (canonChildren_sorted blake3 _ _ _) hsearch).2.1] at hlookup
          obtain ⟨link, hlink, hchild⟩ := Option.map_eq_some_iff.1 hlookup.symm
          have hpart : (m.under route.length (group key route.length)).entries ≠ [] := by
            intro hpart
            rw [(canonLink_eq_none blake3).2 hpart] at hlink
            cases hlink
          rw [canonLink_of_ne blake3 hpart, Option.some.injEq] at hlink
          subst hchild hlink
          have hlen' : (route ++ [group key route.length]).length = route.length + 1 :=
            length_append
          have hcount : ∀ count ∈
              some (m.under route.length (group key route.length)).entries.length,
              count = (m.under route.length (group key route.length)).entries.length :=
            fun count hcount => (Option.mem_some.1 hcount).symm
          have hrec := ih (w := w') (hfits.under (group key route.length))
            ((outsideRoute_snoc hkey).2 rfl) (by omega) hpart ((length_under_le _ _ _).trans_lt hlt)
            hcount hsound'
          rw [hlen'] at hrec
          rw [← get_under m key route.length]
          exact hrec ((hstored.2 hlarge _ hslot).grows hgrow)
      · rw [canonNode_small blake3 _ _ hsmall] at hnode
        subst hnode
        exact Ends.weaken (Ends.pure (search_get m key)) zero_le
    · change 1 + (1 + below) ≤ 1 + (below + 1)
      omega

theorem get_ends (hkept : Kept blake3 contents w.store m)
    (hsound : Sound blake3 contents W w.store) :
    Ends (accounting blake3 contents W also) (1 + levels, 0)
      (SourceTargetMap.get blake3 store (canonRoot blake3 m) key) w
      fun value _ => value = m.get key := by
  by_cases hnil : m.entries = []
  · rw [canonRoot, (canonLink_eq_none blake3).2 hnil]
    refine Ends.weaken (Ends.pure ?_) zero_le
    rw [SortedMap.get, hnil]
    rfl
  · rw [canonRoot, canonLink_of_ne blake3 hnil]
    have hfits : Fits [] m := fun entry _ => outsideRoute_nil entry.1
    have hlen : ([] : List Nat).length + levels = levels := rfl
    have hget : ∀ expected : Option Nat, (∀ count ∈ expected, count = m.entries.length) →
        Ends (accounting blake3 contents W also) (1 + levels, 0)
          (getAt blake3 store key levels
            (blobHash blake3 (canonNode blake3 levels ([] : List Nat).length m).encode) expected []) w
          fun value _ => value = m.get key := by
      intro expected hexpected
      exact getAt_ends hlawful hfits (outsideRoute_nil key) hlen hnil hkept.counted hexpected hsound
        hkept.stored
    exact hget none fun _ h => by cases h

end Get

section Walk
variable (blake3 : Bytes → ContentHash)

/-- A part of the map that is still to be visited: the bindings on a route. -/
structure Part where
  route : List Nat
  bindings : Bindings

namespace Part

def below (part : Part) : Nat := levels - part.route.length

def nodeBound (part : Part) : Nat := 1 + part.below * part.bindings.entries.length

structure Ready (contents : S → ContentHash → Option Bytes) (s : S) (part : Part) : Prop where
  fits : Fits part.route part.bindings
  short : part.route.length ≤ levels
  filled : part.bindings.entries ≠ []
  counted : part.bindings.entries.length < 2 ^ 64
  stored : Stored blake3 contents s part.below part.route.length part.bindings

/-- The stack entry that stands for the part. -/
structure IsNext (next : Pending) (part : Part) : Prop where
  hash : next.hash =
    blobHash blake3 (canonNode blake3 part.below part.route.length part.bindings).encode
  count : ∀ count ∈ next.count, count = part.bindings.entries.length
  route : next.route = part.route

def children (part : Part) : List Part :=
  (canonChildren blake3 (part.below - 1) part.route.length part.bindings).map fun child =>
    ⟨part.route ++ [child.slot], part.bindings.under part.route.length child.slot⟩

end Part

namespace Part
variable {blake3 : Bytes → ContentHash} {contents : S → ContentHash → Option Bytes} {part : Part}

theorem Ready.route_add_below (h : part.Ready blake3 contents s) :
    part.route.length + part.below = levels := Nat.add_sub_cancel' h.short

theorem Ready.grows (h : part.Ready blake3 contents s) (hgrow : Grows contents s s') :
    part.Ready blake3 contents s' :=
  { h with stored := h.stored.grows hgrow }

theorem length_route_snoc (route : List Nat) (slot : Nat) :
    (route ++ [slot]).length = route.length + 1 := length_append

section Large
variable (hlarge : leafEntries < part.bindings.entries.length)
include hlarge

section
variable (h : part.Ready blake3 contents s)
include h

theorem Ready.below_pos : part.below = part.below - 1 + 1 := by
  have hpos := h.fits.below_pos h.route_add_below hlarge
  omega

theorem Ready.canonNode_eq :
    canonNode blake3 part.below part.route.length part.bindings =
      .branch part.route.length (canonChildren blake3 (part.below - 1) part.route.length part.bindings) := by
  rw [h.below_pos hlarge, canonNode_large blake3 hlarge, Nat.add_sub_cancel]

theorem Ready.children :
    ∀ child ∈ part.children blake3, child.Ready blake3 contents s := by
  intro child hchild
  obtain ⟨found, hfound, rfl⟩ := mem_map.1 hchild
  obtain ⟨hslot, hlink⟩ := (mem_canonChildren blake3).1 hfound
  have hpos := h.below_pos hlarge
  have hshort := h.short
  have hstored := h.stored
  rw [hpos] at hstored
  have hbelow : levels - (part.route ++ [found.slot]).length = part.below - 1 := by
    rw [length_route_snoc, below]
    omega
  refine ⟨h.fits.under found.slot, ?_, ?_, (length_under_le _ _ _).trans_lt h.counted, ?_⟩
  · rw [length_route_snoc]
    unfold below at hpos
    omega
  · intro hnil
    rw [(canonLink_eq_none blake3).2 hnil] at hlink
    cases hlink
  · rw [below, hbelow, length_route_snoc]
    exact hstored.2 hlarge found.slot hslot

theorem Ready.children_next {next : Pending}
    (hnext : next.route = part.route) :
    List.Forall₂ (IsNext blake3)
      ((canonChildren blake3 (part.below - 1) part.route.length part.bindings).map fun child =>
        (⟨child.link.hash, some child.link.count, next.route ++ [child.slot]⟩ : Pending))
      (part.children blake3) := by
  rw [Part.children, List.forall₂_map_left_iff, List.forall₂_map_right_iff, List.forall₂_same]
  intro child hchild
  have hready := h.children hlarge _ (mem_map_of_mem hchild)
  have hlink := ((mem_canonChildren blake3).1 hchild).2
  have hbelow : levels - (part.route ++ [child.slot]).length = part.below - 1 := by
    rw [length_route_snoc, below]
    omega
  rw [canonLink_of_ne blake3 hready.filled, Option.some.injEq] at hlink
  refine ⟨?_, ?_, by rw [hnext]⟩
  · rw [← hlink]
    change blobHash blake3 (canonNode blake3 (part.below - 1) (part.route.length + 1) _).encode =
      blobHash blake3 (canonNode blake3 (levels - (part.route ++ [child.slot]).length)
        (part.route ++ [child.slot]).length _).encode
    rw [hbelow, length_route_snoc]
  · intro count hcount
    rw [← Option.mem_some.1 hcount, ← hlink]

end

omit hlarge in
theorem children_perm (blake3 : Bytes → ContentHash) (part : Part) :
    ((part.children blake3).flatMap (·.bindings.entries)).Perm part.bindings.entries := by
  rw [Part.children, flatMap_map]
  exact flatMap_canonChildren blake3 _ _ _

theorem Ready.children_bound (h : part.Ready blake3 contents s) :
    1 + ((part.children blake3).map nodeBound).sum ≤ part.nodeBound := by
  have hbound : ∀ child ∈ part.children blake3,
      child.nodeBound ≤ child.bindings.entries.length * part.below := by
    intro child hchild
    have hpos := length_pos_of_ne_nil (h.children hlarge child hchild).filled
    have hbelow : child.below + 1 = part.below := by
      obtain ⟨found, _, rfl⟩ := mem_map.1 hchild
      have hpos := h.below_pos hlarge
      change levels - (part.route ++ [found.slot]).length + 1 = levels - part.route.length
      rw [length_route_snoc]
      unfold below at hpos
      omega
    rw [nodeBound, ← hbelow, Nat.mul_succ, Nat.mul_comm child.below]
    omega
  have hsum := sum_le_sum hbound
  have hlength := (children_perm blake3 part).length_eq
  rw [length_flatMap] at hlength
  rw [sum_map_mul_right, hlength] at hsum
  rw [nodeBound, Nat.mul_comm part.below]
  omega

end Large

end Part

variable {blake3} {store : MapStore S E}
  {contents : S → ContentHash → Option Bytes} {W : Set Bytes} {also : MapError E → Prop}
  (hlawful : store.Lawful contents)
include hlawful

theorem walk_ends {onLeaf : α → List Binding → MapM S E α} {P : List Binding → α → Prop}
    {total seen : List Binding}
    (hleaf : ∀ seen leaf rest result w, (seen ++ (leaf ++ rest)).Perm total → P seen result →
      Sound blake3 contents W w.store →
      Ends (accounting blake3 contents W also) 0 (onLeaf result leaf) w
        fun result' _ => P (seen ++ leaf) result')
    (hnext : List.Forall₂ (Part.IsNext blake3) pending parts)
    (hready : ∀ part ∈ parts, part.Ready blake3 contents w.store)
    (hperm : (seen ++ parts.flatMap (·.bindings.entries)).Perm total) (hP : P seen result)
    (hsound : Sound blake3 contents W w.store)
    (hrounds : rounds < (parts.map Part.nodeBound).sum → also .readBudget) :
    Ends (accounting blake3 contents W also) ((parts.map Part.nodeBound).sum, 0)
      (walk blake3 store onLeaf rounds pending result) w
      fun result' _ => ∃ order, order.Perm total ∧ P order result' := by
  induction rounds generalizing pending parts seen result w with
  | zero =>
    cases hnext with
    | nil =>
      rw [walk]
      refine Ends.weaken (Ends.pure ⟨seen, ?_, hP⟩) zero_le
      rwa [flatMap_nil, append_nil] at hperm
    | cons hfirst hrest =>
      rw [walk]
      refine Ends.weaken (Ends.throw (.inl (hrounds ?_))) zero_le
      rw [map_cons, sum_cons, Part.nodeBound]
      omega
  | succ rounds ih =>
    cases hnext with
    | nil =>
      rw [walk]
      refine Ends.weaken (Ends.pure ⟨seen, ?_, hP⟩) zero_le
      rwa [flatMap_nil, append_nil] at hperm
    | @cons next part pending parts hfirst hrest =>
      have hpart := hready part mem_cons_self
      have htail : ∀ {s'}, Grows contents w.store s' → ∀ part ∈ parts,
          part.Ready blake3 contents s' :=
        fun hgrow part hmem => (hready part (mem_cons_of_mem _ hmem)).grows hgrow
      rw [map_cons, sum_cons] at hrounds ⊢
      rw [flatMap_cons] at hperm
      rw [walk]
      have hload : Ends (accounting blake3 contents W also) (1, 0)
          (load blake3 store next.hash next.count next.route) w fun node _ =>
            node = canonNode blake3 part.below part.route.length part.bindings := by
        rw [hfirst.hash, hfirst.route]
        exact load_canonNode_ends hlawful hpart.fits hpart.route_add_below hpart.filled hpart.counted
          hfirst.count hpart.stored
      have hbound : 1 ≤ part.nodeBound := Nat.le_add_right 1 _
      refine Ends.weaken (Ends.bind
        (b := (part.nodeBound - 1 + (parts.map Part.nodeBound).sum, 0)) hload ?_) ?_
      · intro node w' hkeeps hnode
        obtain ⟨hsound', hgrow⟩ := hkeeps.1 hsound
        rcases Nat.lt_or_ge leafEntries part.bindings.entries.length with hlarge | hsmall
        · rw [hpart.canonNode_eq hlarge] at hnode
          subst hnode
          have hchildren := hpart.children_bound hlarge
          refine Ends.weaken (ih (rel_append (hpart.children_next hlarge hfirst.route) hrest) ?_ ?_
            hP hsound' ?_) ⟨?_, le_rfl⟩
          · intro child hchild
            rcases mem_append.1 hchild with hchild | hchild
            · exact (hpart.grows hgrow).children hlarge child hchild
            · exact htail hgrow child hchild
          · rw [flatMap_append]
            exact .trans (.append_left seen (.append_right _ (Part.children_perm blake3 part))) hperm
          · intro hlt
            rw [map_append, sum_append] at hlt
            apply hrounds
            omega
          · rw [map_append, sum_append]
            change _ ≤ part.nodeBound - 1 + (parts.map Part.nodeBound).sum
            omega
        · rw [canonNode_small blake3 _ _ hsmall] at hnode
          subst hnode
          refine Ends.weaken (Ends.bind (b := ((parts.map Part.nodeBound).sum, 0))
            (hleaf seen part.bindings.entries (parts.flatMap (·.bindings.entries)) result w' hperm hP
              hsound') ?_) ⟨?_, le_rfl⟩
          · intro result' w'' hkeeps' hP'
            obtain ⟨hsound'', hgrow'⟩ := hkeeps'.1 hsound'
            refine ih hrest ?_ ?_ hP' hsound'' ?_
            · exact fun part hmem => (htail hgrow part hmem).grows hgrow'
            · rwa [append_assoc]
            · intro hlt
              apply hrounds
              omega
          · change 0 + (parts.map Part.nodeBound).sum ≤ _
            omega
      · refine ⟨?_, le_rfl⟩
        change 1 + (part.nodeBound - 1 + (parts.map Part.nodeBound).sum) ≤ _
        omega

omit hlawful in
theorem also_mono (h : Ends (accounting blake3 contents W also) cost x w post)
    (himp : ∀ e, also e → also' e ∨ Excused also' cost w.budget e) :
    Ends (accounting blake3 contents W also') cost x w post := by
  refine Lib.Ends.excuse h (fun _ hkeeps => hkeeps) ?_
  intro e hexcused
  rcases hexcused with halso | hrest
  · rcases himp e halso with h | h
    · exact .inl h
    · exact h
  · exact .inr hrest

/-- Visiting a map of `n` bindings loads no more nodes than this. -/
def walkCost (n : Nat) : Nat × Nat := (1 + levels * n, 0)

theorem walkFrom_ends {onLeaf : α → List Binding → MapM S E α} {P : List Binding → α → Prop}
    (hkept : Kept blake3 contents w.store m) (hsound : Sound blake3 contents W w.store)
    (hleaf : ∀ seen leaf rest result w, (seen ++ (leaf ++ rest)).Perm m.entries → P seen result →
      Sound blake3 contents W w.store →
      Ends (accounting blake3 contents W also) 0 (onLeaf result leaf) w
        fun result' _ => P (seen ++ leaf) result') (hstart : P [] start) :
    Ends (accounting blake3 contents W also) (walkCost m.entries.length)
      (walkFrom blake3 store onLeaf (canonRoot blake3 m) start) w
      fun result _ => ∃ order, order.Perm m.entries ∧ P order result := by
  change Ends (accounting blake3 contents W also) (walkCost m.entries.length)
    (walk blake3 store onLeaf w.budget.nodeReads (pendingRoot (canonRoot blake3 m)) start) w
    fun result _ => ∃ order, order.Perm m.entries ∧ P order result
  by_cases hnil : m.entries = []
  · rw [canonRoot, (canonLink_eq_none blake3).2 hnil, hnil]
    have hpending : List.Forall₂ (Part.IsNext blake3) [] [] := .nil
    refine Ends.weaken (walk_ends hlawful ?_ hpending (fun _ h => by cases h) .nil
      hstart hsound fun h => by cases h) zero_le
    intro seen leaf rest result w hperm
    exact hleaf seen leaf rest result w (hnil ▸ hperm)
  · rw [canonRoot, canonLink_of_ne blake3 hnil]
    have hready : (⟨[], m⟩ : Part).Ready blake3 contents w.store :=
      ⟨fun entry _ => outsideRoute_nil entry.1, Nat.zero_le _, hnil, hkept.counted, hkept.stored⟩
    have hpending : List.Forall₂ (Part.IsNext blake3)
        (pendingRoot (some (blobHash blake3 (canonNode blake3 levels 0 m).encode))) [⟨[], m⟩] :=
      .cons ⟨rfl, fun _ h => (by cases h), rfl⟩ .nil
    have hwalk : Ends (accounting blake3 contents W fun e => also e ∨
          e = .readBudget ∧ w.budget.nodeReads < 1 + levels * m.entries.length)
        (walkCost m.entries.length) (walk blake3 store onLeaf w.budget.nodeReads
          (pendingRoot (some (blobHash blake3 (canonNode blake3 levels 0 m).encode))) start) w
        fun result _ => ∃ order, order.Perm m.entries ∧ P order result := by
      refine walk_ends hlawful ?_ hpending ?_ ?_ hstart hsound ?_
      · intro seen leaf rest result w hperm hP hsound
        exact also_mono (hleaf seen leaf rest result w hperm hP hsound) fun _ h => .inl (.inl h)
      · intro part hpart
        rw [mem_singleton.1 hpart]
        exact hready
      · rw [flatMap_singleton]
        exact .refl _
      · intro hlt
        exact .inr ⟨rfl, hlt⟩
    refine also_mono hwalk ?_
    intro e he
    rcases he with he | ⟨rfl, hlt⟩
    · exact .inl he
    · exact .inr (.inr (.inl hlt))

theorem entries_ends (hkept : Kept blake3 contents w.store m)
    (hsound : Sound blake3 contents W w.store)
    (halso : limit < m.entries.length → also .readBudget) :
    Ends (accounting blake3 contents W also) (walkCost m.entries.length)
      (SourceTargetMap.entries blake3 store (canonRoot blake3 m) limit) w
      fun result _ => result = m.entries := by
  refine Ends.weaken (Ends.bind (b := 0) (walkFrom_ends (P := fun seen result => result = seen) hlawful
    hkept hsound ?_ rfl) ?_) (add_zero _).le
  · intro seen leaf rest result w hperm hresult _
    subst hresult
    refine Ends.bind (b := 0) (Ends.failIf ?_) ?_
    · intro hlt
      have hlength := hperm.length_eq
      rw [length_append, length_append] at hlength
      exact .inl (halso (by omega))
    · intro _ _ _ _
      exact Ends.pure rfl
  · intro result w' _ ⟨order, hperm, hresult⟩
    subst hresult
    exact Ends.pure (SortedMap.sortBy_of_perm hperm)

/-- A visitor that leaves the stored nodes alone, and what it knows after the entries it has seen. -/
structure Visits (contents : S → ContentHash → Option Bytes) (W : Set Bytes)
    (visitor : ContentHash → ContentHash → V → S → Except E V × S) (P : List Binding → V → Prop) :
    Prop where
  keeps : Sound blake3 contents W s → Sound blake3 contents W (visitor key value v s).2 ∧
    Grows contents s (visitor key value v s).2
  step : P seen v → (visitor key value v s).1 = .ok v' → P (seen ++ [(key, value)]) v'

theorem visitEntries_ends (hvisits : @Visits S E blake3 V contents W visitor P)
    (hstart : P [] start) (hkept : Kept blake3 contents w.store m)
    (hsound : Sound blake3 contents W w.store) :
    Ends (accounting blake3 contents W also) (walkCost m.entries.length)
      (SourceTargetMap.visitEntries blake3 store (canonRoot blake3 m) visitor start) w
      fun v _ => ∃ order, order.Perm m.entries ∧ P order v := by
  apply walkFrom_ends hlawful hkept hsound _ hstart
  intro seen leaf rest v w _ hP hsound'
  refine (Ends.foldlM (c := fun _ => 0) (I := fun before v w' =>
    Sound blake3 contents W w'.store ∧ P (seen ++ before) v) ⟨hsound', ?_⟩ ?_).mono ?_ ?_
  · rwa [append_nil]
  · intro before entry after _ v' t ⟨hsound'', hP'⟩
    have hkeeps : Sound blake3 contents W (visitor entry.1 entry.2 v' t.store).2 ∧
        Grows contents t.store (visitor entry.1 entry.2 v' t.store).2 := hvisits.keeps hsound''
    have hstep : ∀ v'', (visitor entry.1 entry.2 v' t.store).1 = .ok v'' →
        P (seen ++ before ++ [entry]) v'' := fun _ hok => hvisits.step hP' hok
    cases hresult : visitor entry.1 entry.2 v' t.store with
    | mk result s' =>
      rw [hresult] at hkeeps hstep
      have hspent : (accounting blake3 contents W also).keeps 0 t { t with store := s' } :=
        ⟨fun _ => hkeeps, ((accounting blake3 contents W also).keeps_zero (s := t)).2⟩
      cases result with
      | ok v'' =>
        apply Ends.ok _ hspent
        · refine ⟨hkeeps.1, ?_⟩
          rw [← append_assoc]
          exact hstep v'' rfl
        · change onStore (visitor entry.1 entry.2 v') t = _
          rw [onStore, hresult]
      | error e =>
        apply Ends.error (e := .storage e) _ hspent (.inr trivial)
        change onStore (visitor entry.1 entry.2 v') t = _
        rw [onStore, hresult]
  · rw [map_const', sum_replicate, nsmul_zero]
  · intro v' _ _ hinv
    exact hinv.2

end Walk

end Heddle.SourceTarget
