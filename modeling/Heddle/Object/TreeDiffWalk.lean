import Heddle.Object.TreeDiff

namespace Heddle
open Heddle.Lib Option
open List hiding below head map_map max mem_map

section Walks
variable [DecidableEq H] (getTree : H → Option (Tree H))

inductive Walks : List (DiffFrame H) → List FileChange → Prop
  | nil : Walks [] []
  | emit {change : FileChange} : advanceMerge frame = (.emit change, frame') → Walks (frame' :: rest) changes →
      Walks (frame :: rest) (change :: changes)
  | descend : advanceMerge frame = (.descend fromHash toHash name, frame') →
      requireEntries getTree fromHash = .ok fromRest →
      requireEntries getTree toHash = .ok toRest →
      Walks (⟨fromRest, toRest, childPath frame'.pathPrefix name⟩ :: frame' :: rest) changes →
      Walks (frame :: rest) changes
  | done : advanceMerge frame = (.done, frame') → Walks rest changes →
      Walks (frame :: rest) changes

variable {getTree}

theorem Walks.returns (h : Walks getTree stack changes) (visitor : V → FileChange → V × Option B)
    (start : V) : Returns (fun fuel => runLoop (diffRound getTree visitor) fuel ⟨stack, start⟩)
      (.ok (feed visitor start changes)) := by
  induction h generalizing start with
  | nil => exact returns_done rfl
  | @emit _ _ _ _ change hstep _ ih =>
    cases hvisit : visitor start change with
    | mk seen broke =>
      cases broke with
      | some b =>
        rw [feed, hvisit]
        apply returns_done
        simp only [diffRound, hstep, hvisit]
      | none =>
        rw [feed, hvisit]
        apply returns_next _ (ih seen)
        simp only [diffRound, hstep, hvisit]
  | descend hstep hfrom hto _ ih =>
    apply returns_next _ (ih start)
    simp only [diffRound, hstep, hfrom, hto]
  | done hstep _ ih =>
    apply returns_next _ (ih start)
    simp only [diffRound, hstep]

theorem Walks.of_advance_eq (h : Walks getTree (frame :: rest) changes)
    (heq : advanceMerge other = advanceMerge frame) : Walks getTree (other :: rest) changes := by
  cases h with
  | emit hstep hrest => exact .emit (heq.trans hstep) hrest
  | descend hstep hfrom hto hrest => exact .descend (heq.trans hstep) hfrom hto hrest
  | done hstep hrest => exact .done (heq.trans hstep) hrest

end Walks

section Steps

/-- What is reported where two different targets stand; nothing where the walk goes below. -/
def reportKind : Option (TreeEntryTarget H) → Option (TreeEntryTarget H) → Option DiffKind
  | some f, some t => if (subtreeOf f).isSome ∧ (subtreeOf t).isSome then none else some .modified
  | some f, none => if (subtreeOf f).isSome then none else some .deleted
  | none, some t => if (subtreeOf t).isSome then none else some .added
  | none, none => none

def entryStep (pathPrefix name : String) (f t : Option (TreeEntryTarget H)) : DiffStep H :=
  match reportKind f t with
  | some kind => .emit ⟨childPath pathPrefix name, kind⟩
  | none => .descend (f.bind subtreeOf) (t.bind subtreeOf) name

theorem treeHash_eq (e : TreeEntry H) : e.treeHash = subtreeOf e.target := by
  unfold TreeEntry.treeHash subtreeOf
  cases e.target <;> rfl

theorem fromOnlyStep_eq (pathPrefix : String) (e : TreeEntry H) :
    fromOnlyStep pathPrefix e = entryStep pathPrefix e.name (some e.target) none := by
  rw [fromOnlyStep, treeHash_eq, entryStep, reportKind]
  cases h : subtreeOf e.target with
  | none => rfl
  | some hash => simp only [isSome_some, if_true, bind_some, h, bind_none]

theorem toOnlyStep_eq (pathPrefix : String) (e : TreeEntry H) :
    toOnlyStep pathPrefix e = entryStep pathPrefix e.name none (some e.target) := by
  rw [toOnlyStep, treeHash_eq, entryStep, reportKind]
  cases h : subtreeOf e.target with
  | none => rfl
  | some hash => simp only [isSome_some, if_true, bind_some, h, bind_none]

theorem bothStep_eq (pathPrefix : String) :
    bothStep pathPrefix f t = entryStep pathPrefix t.name (some f.target) (some t.target) := by
  rw [bothStep, treeHash_eq, treeHash_eq, entryStep, reportKind]
  cases hf : subtreeOf f.target with
  | none => simp only [isSome_none, Bool.false_eq_true, false_and, if_false]
  | some fromHash =>
    cases ht : subtreeOf t.target with
    | none => simp only [isSome_none, Bool.false_eq_true, and_false, if_false]
    | some toHash => simp only [isSome_some, and_self, if_true, bind_some, hf, ht]

end Steps

section Changes
variable (getTree : H → Option (Tree H))

/-- What the walk reports below a pair of targets. -/
def EntryChange : Option (TreeEntryTarget H) → Option (TreeEntryTarget H) → List String →
    DiffKind → Prop
  | f, t, [], kind => f ≠ t ∧ reportKind f t = some kind
  | f, t, name :: names, kind => ∃ fs ts, entriesBelow getTree f = some fs ∧
      entriesBelow getTree t = some ts ∧ EntryChange (targetOf fs name) (targetOf ts name) names kind

/-- The changes are what the walk reports for two lists of entries. -/
structure Describes (fs ts : List (TreeEntry H)) (changes : List (List String × DiffKind)) : Prop where
  sorted : changes.Pairwise fun a b => a.1 < b.1
  mem : ∀ names kind, (names, kind) ∈ changes ↔ ∃ name below, names = name :: below ∧
    EntryChange getTree (targetOf fs name) (targetOf ts name) below kind

variable {getTree}

theorem entryChange_self (target : Option (TreeEntryTarget H)) :
    ¬ EntryChange getTree target target names kind := by
  induction names generalizing target with
  | nil => exact fun h => h.1 rfl
  | cons name names ih =>
    rintro ⟨fs, ts, hfs, hts, h⟩
    rw [hfs, some.injEq] at hts
    subst hts
    exact ih _ h

theorem entriesBelow_leaf (h : subtreeOf target = none) :
    entriesBelow getTree (some target) = none := by
  cases target with
  | tree hash => cases h
  | blob hash executable => rfl
  | symlink hash => rfl
  | gitlink target => rfl
  | spoollink spoolId stateId => rfl

theorem not_below_of_report (h : reportKind f t = some kind') :
    ¬ EntryChange getTree f t (name :: names) kind := by
  rintro ⟨fs, ts, hfs, hts, _⟩
  have hleaf : (∃ l, f = some l ∧ subtreeOf l = none) ∨ ∃ l, t = some l ∧ subtreeOf l = none := by
    cases f with
    | none =>
      cases t with
      | none => cases h
      | some t =>
        rw [reportKind] at h
        split at h
        · cases h
        · rename_i hn
          exact .inr ⟨t, rfl, by simpa using hn⟩
    | some f =>
      cases t with
      | none =>
        rw [reportKind] at h
        split at h
        · cases h
        · rename_i hn
          exact .inl ⟨f, rfl, by simpa using hn⟩
      | some t =>
        rw [reportKind] at h
        split at h
        · cases h
        · rename_i hn
          rw [not_and_or, not_isSome_iff_eq_none, not_isSome_iff_eq_none] at hn
          rcases hn with hn | hn
          · exact .inl ⟨f, rfl, hn⟩
          · exact .inr ⟨t, rfl, hn⟩
  rcases hleaf with ⟨l, rfl, hl⟩ | ⟨l, rfl, hl⟩
  · rw [entriesBelow_leaf hl] at hfs
    cases hfs
  · rw [entriesBelow_leaf hl] at hts
    cases hts

theorem targetOf_cons_self (e : TreeEntry H) (es : List (TreeEntry H)) :
    targetOf (e :: es) e.name = some e.target := by
  simp only [targetOf, find?_cons, decide_true, map_some]

theorem targetOf_cons_ne (h : e.name ≠ name) (es : List (TreeEntry H)) :
    targetOf (e :: es) name = targetOf es name := by
  rw [targetOf, find?_cons_of_neg (by simpa using h)]
  rfl

theorem targetOf_eq_none {es : List (TreeEntry H)} (h : ∀ e ∈ es, e.name ≠ name) :
    targetOf es name = none := by
  rw [targetOf, map_eq_none_iff, find?_eq_none]
  intro e he
  simpa using h e he

theorem exists_of_targetOf (h : targetOf es name = some target) :
    ∃ e ∈ es, e.name = name ∧ e.target = target := by
  obtain ⟨e, hfind, rfl⟩ := map_eq_some_iff.1 h
  exact ⟨e, mem_of_find?_eq_some hfind, by simpa using find?_some hfind, rfl⟩

theorem describes_nil : Describes getTree [] [] [] where
  sorted := .nil
  mem := by
    intro names kind
    constructor
    · exact fun h => absurd h not_mem_nil
    · rintro ⟨name, below, _, h⟩
      exact absurd h (entryChange_self _)

theorem Describes.cons (hrest : Describes getTree fs' ts' rest)
    (hsorted : head.Pairwise fun a b => a.1 < b.1)
    (hhead : ∀ names kind, (names, kind) ∈ head ↔ ∃ below, names = name :: below ∧
      EntryChange getTree (targetOf fs name) (targetOf ts name) below kind)
    (hfs : ∀ other, other ≠ name → targetOf fs other = targetOf fs' other)
    (hts : ∀ other, other ≠ name → targetOf ts other = targetOf ts' other)
    (hfs' : ∀ e ∈ fs', name < e.name) (hts' : ∀ e ∈ ts', name < e.name) :
    Describes getTree fs ts (head ++ rest) := by
  have hafter : ∀ other below kind,
      EntryChange getTree (targetOf fs' other) (targetOf ts' other) below kind → name < other := by
    intro other below kind h
    by_cases hf : targetOf fs' other = none
    · by_cases ht : targetOf ts' other = none
      · rw [hf, ht] at h
        exact absurd h (entryChange_self _)
      · obtain ⟨target, ht⟩ := ne_none_iff_exists'.1 ht
        obtain ⟨e, he, rfl, _⟩ := exists_of_targetOf ht
        exact hts' e he
    · obtain ⟨target, hf⟩ := ne_none_iff_exists'.1 hf
      obtain ⟨e, he, rfl, _⟩ := exists_of_targetOf hf
      exact hfs' e he
  constructor
  · rw [pairwise_append]
    refine ⟨hsorted, hrest.sorted, ?_⟩
    rintro ⟨a, k⟩ ha ⟨b, l⟩ hb
    obtain ⟨below, rfl, _⟩ := (hhead a k).1 ha
    obtain ⟨other, below', rfl, h⟩ := (hrest.mem b l).1 hb
    exact List.Lex.rel (hafter other below' l h)
  · intro names kind
    rw [mem_append, hhead, hrest.mem]
    constructor
    · rintro (⟨below, rfl, h⟩ | ⟨other, below, rfl, h⟩)
      · exact ⟨name, below, rfl, h⟩
      · have hne := (hafter other below kind h).ne'
        rw [← hfs other hne, ← hts other hne] at h
        exact ⟨other, below, rfl, h⟩
    · rintro ⟨other, below, rfl, h⟩
      by_cases hname : other = name
      · subst hname
        exact .inl ⟨below, rfl, h⟩
      · rw [hfs other hname, hts other hname] at h
        exact .inr ⟨other, below, rfl, h⟩

end Changes

section Frames
variable {getTree : H → Option (Tree H)} {hash : H}

/-- A stored valid tree whose subtrees are stored and valid, no more than `depth` levels deep. -/
def PresentTo (getTree : H → Option (Tree H)) : Nat → H → Prop
  | 0, _ => False
  | depth + 1, hash => ∃ tree, getTree hash = some tree ∧ tree.validate = .ok () ∧
      ∀ e ∈ tree.entries, ∀ sub, e.treeHash = some sub → PresentTo getTree depth sub

theorem PresentTo.succ (h : PresentTo getTree depth hash) : PresentTo getTree (depth + 1) hash := by
  induction depth generalizing hash with
  | zero => exact absurd h id
  | succ depth ih =>
    obtain ⟨tree, hget, hvalid, hsub⟩ := h
    exact ⟨tree, hget, hvalid, fun e he sub hs => ih (hsub e he sub hs)⟩

theorem PresentTo.mono (h : PresentTo getTree depth hash) (hle : depth ≤ depth') :
    PresentTo getTree depth' hash := by
  induction hle with
  | refl => exact h
  | step _ ih => exact ih.succ

theorem Present.depth (h : Present getTree hash) :
    ∃ depth, PresentTo getTree depth hash := by
  induction h with
  | @intro tree hash hget hvalid _ ih =>
    have hall : ∀ es : List (TreeEntry H), (∀ e ∈ es, e ∈ tree.entries) →
        ∃ depth, ∀ e ∈ es, ∀ sub, e.treeHash = some sub → PresentTo getTree depth sub := by
      intro es hes
      induction es with
      | nil => exact ⟨0, fun e he => absurd he not_mem_nil⟩
      | cons e es ihes =>
        obtain ⟨he, hes⟩ := forall_mem_cons.1 hes
        obtain ⟨m, hm⟩ := ihes hes
        have hone : ∃ n, ∀ sub, e.treeHash = some sub → PresentTo getTree n sub := by
          cases hs : e.treeHash with
          | none => exact ⟨0, fun sub h => by cases h⟩
          | some sub =>
            obtain ⟨n, hn⟩ := ih e he sub hs
            refine ⟨n, fun sub' h => ?_⟩
            obtain rfl := some.inj h
            exact hn
        obtain ⟨n, hn⟩ := hone
        refine ⟨max m n, forall_mem_cons.2 ⟨fun sub hs => ?_, fun e' he' sub hs => ?_⟩⟩
        · exact (hn sub hs).mono (Nat.le_max_right m n)
        · exact (hm e' he' sub hs).mono (Nat.le_max_left m n)
    obtain ⟨depth, hdepth⟩ := hall tree.entries fun _ he => he
    exact ⟨depth + 1, tree, hget, hvalid, hdepth⟩

structure Side (getTree : H → Option (Tree H)) (depth : Nat) (entries : List (TreeEntry H)) :
    Prop where
  sorted : entries.Pairwise fun a b => a.name < b.name
  present : ∀ e ∈ entries, ∀ sub, e.treeHash = some sub → PresentTo getTree depth sub

theorem Side.nil : Side getTree depth [] := ⟨.nil, fun _ he => absurd he not_mem_nil⟩

theorem Side.tail (h : Side getTree depth (e :: es)) : Side getTree depth es :=
  ⟨h.sorted.of_cons, fun e' he' => h.present e' (mem_cons_of_mem e he')⟩

theorem Side.head_lt (h : Side getTree depth (e :: es)) : ∀ e' ∈ es, e.name < e'.name :=
  (pairwise_cons.1 h.sorted).1

theorem Side.below
    (h : ∀ sub, target.bind subtreeOf = some sub → PresentTo getTree (depth + 1) sub)
    (hdir : ∀ t, target = some t → (subtreeOf t).isSome) :
    ∃ entries, requireEntries getTree (target.bind subtreeOf) = .ok entries ∧
      entriesBelow getTree target = some entries ∧ Side getTree depth entries := by
  cases target with
  | none => exact ⟨[], rfl, rfl, .nil⟩
  | some t =>
    cases t with
    | tree hash =>
      obtain ⟨tree, hget, hvalid, hsub⟩ := h hash rfl
      refine ⟨tree.entries, ?_, ?_, (Tree.validate_entries hvalid).2, hsub⟩
      · change (requireTree getTree hash).map Tree.entries = .ok tree.entries
        rw [requireTree, hget]
        rfl
      · rw [entriesBelow, hget]
        rfl
    | blob hash executable => exact absurd (hdir _ rfl) Bool.false_ne_true
    | symlink hash => exact absurd (hdir _ rfl) Bool.false_ne_true
    | gitlink target => exact absurd (hdir _ rfl) Bool.false_ne_true
    | spoollink spoolId stateId => exact absurd (hdir _ rfl) Bool.false_ne_true

theorem isDir_of_no_report (h : reportKind f t = none) (hne : f ≠ t) :
    (∀ x, f = some x → (subtreeOf x).isSome) ∧ ∀ x, t = some x → (subtreeOf x).isSome := by
  cases f with
  | none =>
    cases t with
    | none => exact absurd rfl hne
    | some t =>
      rw [reportKind] at h
      split at h
      · rename_i ht
        exact ⟨fun x hx => absurd hx (some_ne_none x).symm, fun x hx => some.inj hx ▸ ht⟩
      · cases h
  | some f =>
    cases t with
    | none =>
      rw [reportKind] at h
      split at h
      · rename_i hf
        exact ⟨fun x hx => some.inj hx ▸ hf, fun x hx => absurd hx (some_ne_none x).symm⟩
      · cases h
    | some t =>
      rw [reportKind] at h
      split at h
      · rename_i hd
        exact ⟨fun x hx => some.inj hx ▸ hd.1, fun x hx => some.inj hx ▸ hd.2⟩
      · cases h

theorem Side.head_present (h : Side getTree depth (e :: es)) :
    ∀ sub, (some e.target).bind subtreeOf = some sub → PresentTo getTree depth sub := by
  intro sub hsub
  exact h.present e mem_cons_self sub ((treeHash_eq e).trans hsub)

variable [DecidableEq H]

def prefixedChange (pathPrefix : String) (change : List String × DiffKind) : FileChange :=
  ⟨pathText pathPrefix change.1, change.2⟩

/-- What the walk shows for a frame whose sides are at most `depth` levels deep. -/
def FrameWalked (getTree : H → Option (Tree H)) (depth : Nat) : Prop :=
  ∀ fs ts, Side getTree depth fs → Side getTree depth ts →
    ∃ changes, Describes getTree fs ts changes ∧
      ∀ pathPrefix rest more, Walks getTree rest more →
        Walks getTree (⟨fs, ts, pathPrefix⟩ :: rest) (changes.map (prefixedChange pathPrefix) ++ more)

/-- What the walk shows for two different targets of one name. -/
theorem head_walked (ih : ∀ lower, depth = lower + 1 → FrameWalked getTree lower) (hne : f ≠ t)
    (hf : ∀ sub, f.bind subtreeOf = some sub → PresentTo getTree depth sub)
    (ht : ∀ sub, t.bind subtreeOf = some sub → PresentTo getTree depth sub) (name : String) :
    ∃ head : List (List String × DiffKind), (head.Pairwise fun a b => a.1 < b.1) ∧
      (∀ names kind, (names, kind) ∈ head ↔
        ∃ below, names = name :: below ∧ EntryChange getTree f t below kind) ∧
      ∀ frame frame' rest more,
        advanceMerge frame = (entryStep frame'.pathPrefix name f t, frame') →
        Walks getTree (frame' :: rest) more →
        Walks getTree (frame :: rest) (head.map (prefixedChange frame'.pathPrefix) ++ more) := by
  cases hreport : reportKind f t with
  | some kind =>
    refine ⟨[([name], kind)], pairwise_singleton _ _, fun names kind' => ?_, ?_⟩
    · rw [mem_singleton, Prod.mk.injEq]
      constructor
      · rintro ⟨rfl, rfl⟩
        exact ⟨[], rfl, hne, hreport⟩
      · rintro ⟨below, rfl, h⟩
        cases below with
        | nil => exact ⟨rfl, some.inj (h.2.symm.trans hreport)⟩
        | cons next below => exact absurd h (not_below_of_report hreport)
    · intro frame frame' rest more hstep hrest
      rw [entryStep, hreport] at hstep
      exact .emit hstep hrest
  | none =>
    obtain ⟨hfdir, htdir⟩ := isDir_of_no_report hreport hne
    have hdeep : ∃ lower, depth = lower + 1 := by
      cases depth with
      | succ lower => exact ⟨lower, rfl⟩
      | zero =>
        cases f with
        | some x =>
          obtain ⟨sub, hsub⟩ := isSome_iff_exists.1 (hfdir x rfl)
          exact absurd (hf sub hsub) id
        | none =>
          cases t with
          | some x =>
            obtain ⟨sub, hsub⟩ := isSome_iff_exists.1 (htdir x rfl)
            exact absurd (ht sub hsub) id
          | none => exact absurd rfl hne
    obtain ⟨lower, rfl⟩ := hdeep
    obtain ⟨fs, hreadf, hfs, hsidef⟩ := Side.below hf hfdir
    obtain ⟨ts, hreadt, hts, hsidet⟩ := Side.below ht htdir
    obtain ⟨changes, hdesc, hwalk⟩ := ih lower rfl fs ts hsidef hsidet
    refine ⟨changes.map fun change => (name :: change.1, change.2), ?_, fun names kind => ?_, ?_⟩
    · rw [pairwise_map]
      exact hdesc.sorted.imp fun h => List.Lex.cons h
    · rw [List.mem_map]
      constructor
      · rintro ⟨⟨below, kind'⟩, hmem, heq⟩
        cases heq
        obtain ⟨next, deeper, rfl, h⟩ := (hdesc.mem below kind').1 hmem
        exact ⟨next :: deeper, rfl, fs, ts, hfs, hts, h⟩
      · rintro ⟨below, rfl, h⟩
        refine ⟨(below, kind), (hdesc.mem below kind).2 ?_, rfl⟩
        cases below with
        | nil =>
          rw [EntryChange, hreport] at h
          cases h.2
        | cons next deeper =>
          obtain ⟨fs', ts', hfs', hts', h⟩ := h
          rw [hfs, some.injEq] at hfs'
          rw [hts, some.injEq] at hts'
          subst hfs' hts'
          exact ⟨next, deeper, rfl, h⟩
    · intro frame frame' rest more hstep hrest
      rw [entryStep, hreport] at hstep
      have hmap : (changes.map fun change => (name :: change.1, change.2)).map
          (prefixedChange frame'.pathPrefix) =
          changes.map (prefixedChange (childPath frame'.pathPrefix name)) := by
        rw [List.map_map]
        rfl
      rw [hmap]
      exact .descend hstep hreadf hreadt (hwalk _ _ _ hrest)

theorem advanceMerge_of_step {step : DiffStep H}
    (h : mergeFrom pathPrefix fs ts = (step, fs', ts')) :
    advanceMerge ⟨fs, ts, pathPrefix⟩ = (step, ⟨fs', ts', pathPrefix⟩) := by
  rw [advanceMerge, h]

theorem frame_walked (getTree : H → Option (Tree H)) (depth : Nat) : FrameWalked getTree depth := by
  induction depth using Nat.strongRecOn with
  | ind depth ihdepth =>
  have ih : ∀ lower, depth = lower + 1 → FrameWalked getTree lower :=
    fun lower hlower => ihdepth lower (by omega)
  have hnone : ∀ sub, (none : Option (TreeEntryTarget H)).bind subtreeOf = some sub →
      PresentTo getTree depth sub := fun sub h => by cases h
  have hfromOnly : ∀ (f : TreeEntry H) (fs ts : List (TreeEntry H)),
      Side getTree depth (f :: fs) → Side getTree depth ts → (∀ e ∈ ts, f.name < e.name) →
      (∀ pathPrefix, mergeFrom pathPrefix (f :: fs) ts = (fromOnlyStep pathPrefix f, fs, ts)) →
      (∃ changes, Describes getTree fs ts changes ∧ ∀ pathPrefix rest more,
        Walks getTree rest more → Walks getTree (⟨fs, ts, pathPrefix⟩ :: rest)
          (changes.map (prefixedChange pathPrefix) ++ more)) →
      ∃ changes, Describes getTree (f :: fs) ts changes ∧ ∀ pathPrefix rest more,
        Walks getTree rest more → Walks getTree (⟨f :: fs, ts, pathPrefix⟩ :: rest)
          (changes.map (prefixedChange pathPrefix) ++ more) := by
    intro f fs ts hf ht hlt hstep hrest
    obtain ⟨changes, hdesc, hwalk⟩ := hrest
    obtain ⟨head, hsorted, hmem, hhead⟩ :=
      head_walked ih (some_ne_none f.target) hf.head_present hnone f.name
    refine ⟨head ++ changes, hdesc.cons hsorted ?_ ?_ ?_ hf.head_lt hlt, ?_⟩
    · rw [targetOf_cons_self, targetOf_eq_none fun e he => (hlt e he).ne']
      exact hmem
    · exact fun other hother => targetOf_cons_ne hother.symm fs
    · exact fun _ _ => rfl
    · intro pathPrefix rest more h
      rw [map_append, append_assoc]
      apply hhead _ ⟨fs, ts, pathPrefix⟩ _ _ _ (hwalk pathPrefix rest more h)
      rw [advanceMerge_of_step (hstep pathPrefix), fromOnlyStep_eq]
  have htoOnly : ∀ (t : TreeEntry H) (fs ts : List (TreeEntry H)),
      Side getTree depth fs → Side getTree depth (t :: ts) → (∀ e ∈ fs, t.name < e.name) →
      (∀ pathPrefix, mergeFrom pathPrefix fs (t :: ts) = (toOnlyStep pathPrefix t, fs, ts)) →
      (∃ changes, Describes getTree fs ts changes ∧ ∀ pathPrefix rest more,
        Walks getTree rest more → Walks getTree (⟨fs, ts, pathPrefix⟩ :: rest)
          (changes.map (prefixedChange pathPrefix) ++ more)) →
      ∃ changes, Describes getTree fs (t :: ts) changes ∧ ∀ pathPrefix rest more,
        Walks getTree rest more → Walks getTree (⟨fs, t :: ts, pathPrefix⟩ :: rest)
          (changes.map (prefixedChange pathPrefix) ++ more) := by
    intro t fs ts hf ht hlt hstep hrest
    obtain ⟨changes, hdesc, hwalk⟩ := hrest
    obtain ⟨head, hsorted, hmem, hhead⟩ :=
      head_walked ih (some_ne_none t.target).symm hnone ht.head_present t.name
    refine ⟨head ++ changes, hdesc.cons hsorted ?_ ?_ ?_ hlt ht.head_lt, ?_⟩
    · rw [targetOf_cons_self, targetOf_eq_none fun e he => (hlt e he).ne']
      exact hmem
    · exact fun _ _ => rfl
    · exact fun other hother => targetOf_cons_ne hother.symm ts
    · intro pathPrefix rest more h
      rw [map_append, append_assoc]
      apply hhead _ ⟨fs, ts, pathPrefix⟩ _ _ _ (hwalk pathPrefix rest more h)
      rw [advanceMerge_of_step (hstep pathPrefix), toOnlyStep_eq]
  intro fs
  induction fs with
  | nil =>
    intro ts
    induction ts with
    | nil =>
      intro _ _
      exact ⟨[], describes_nil, fun pathPrefix rest more h => .done (advanceMerge_of_step rfl) h⟩
    | cons t ts iht =>
      intro hf ht
      exact htoOnly t [] ts hf ht (fun e he => absurd he not_mem_nil) (fun _ => rfl)
        (iht hf ht.tail)
  | cons f fs ihf =>
    intro ts
    induction ts with
    | nil =>
      intro hf ht
      exact hfromOnly f fs [] hf ht (fun e he => absurd he not_mem_nil) (fun _ => rfl)
        (ihf [] hf.tail ht)
    | cons t ts iht =>
      intro hf ht
      rcases lt_trichotomy f.name t.name with hlt | heq | hgt
      · apply hfromOnly f fs (t :: ts) hf ht _ _ (ihf (t :: ts) hf.tail ht)
        · exact forall_mem_cons.2 ⟨hlt, fun e he => hlt.trans (ht.head_lt e he)⟩
        · intro pathPrefix
          rw [mergeFrom, if_pos hlt]
      · obtain ⟨changes, hdesc, hwalk⟩ := ihf ts hf.tail ht.tail
        by_cases htarget : f.target = t.target
        · refine ⟨changes, ?_, fun pathPrefix rest more h => ?_⟩
          · have hnone : ([] : List (List String × DiffKind)).Pairwise fun a b => a.1 < b.1 := .nil
            apply hdesc.cons hnone _ _ _ hf.head_lt
              (fun e he => heq ▸ ht.head_lt e he)
            · intro names kind
              rw [targetOf_cons_self, heq, targetOf_cons_self, htarget]
              constructor
              · exact fun h => absurd h not_mem_nil
              · rintro ⟨below, _, h⟩
                exact absurd h (entryChange_self _)
            · exact fun other hother => targetOf_cons_ne hother.symm fs
            · exact fun other hother => targetOf_cons_ne (heq ▸ hother.symm) ts
          · apply (hwalk pathPrefix rest more h).of_advance_eq
            rw [advanceMerge, advanceMerge, mergeFrom, if_neg heq.not_lt, if_neg heq.not_gt,
              if_pos htarget]
        · obtain ⟨head, hsorted, hmem, hhead⟩ :=
            head_walked ih (fun h => htarget (some.inj h)) hf.head_present ht.head_present
              t.name
          refine ⟨head ++ changes, hdesc.cons hsorted ?_ ?_ ?_ (fun e he => heq ▸ hf.head_lt e he)
            ht.head_lt, fun pathPrefix rest more h => ?_⟩
          · rw [targetOf_cons_self, ← heq, targetOf_cons_self, heq]
            exact hmem
          · exact fun other hother => targetOf_cons_ne (heq ▸ hother.symm) fs
          · exact fun other hother => targetOf_cons_ne hother.symm ts
          · rw [map_append, append_assoc]
            apply hhead _ ⟨fs, ts, pathPrefix⟩ _ _ _ (hwalk pathPrefix rest more h)
            rw [advanceMerge, mergeFrom, if_neg heq.not_lt, if_neg heq.not_gt, if_neg htarget,
              bothStep_eq]
      · apply htoOnly t (f :: fs) ts hf ht _ _ (iht hf ht.tail)
        · exact forall_mem_cons.2 ⟨hgt, fun e he => hgt.trans (hf.head_lt e he)⟩
        · intro pathPrefix
          rw [mergeFrom, if_neg hgt.asymm, if_pos hgt]

end Frames

end Heddle
