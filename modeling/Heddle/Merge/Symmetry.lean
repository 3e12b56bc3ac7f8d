import Heddle.Merge.Diff3Partition
import Heddle.Merge.Slots

namespace Heddle.Merge
open Heddle.Lib List

def Segment.swap (s : Segment) : Segment := { s with ours := s.theirs, theirs := s.ours }

/-- Where a region lies in the base and in the two sides, the sides exchanged. -/
def TextConflictRegion.swapSource (r : TextConflictRegion) : Range × Range × Range :=
  (r.base, r.theirs, r.ours)

/-- Lines that differ in trailing whitespace only, with equally much of it on both sides. -/
def TrailingTie (ours theirs : List Line) : Prop :=
  ours.map trailingWsKey = theirs.map trailingWsKey ∧
    (ours.map countTrailingWs).sum = (theirs.map countTrailingWs).sum

/-- What a piece of the walk puts out, and what it puts out when the sides are exchanged: the same,
or two insertions at one place in either order, or either side of a tie in trailing whitespace. -/
inductive SwapPiece (base ours theirs : List Line) : Bytes → Bytes → Prop
  | same (out : Bytes) : SwapPiece base ours theirs out out
  | order (h : base = []) : SwapPiece base ours theirs (ours.flatten ++ theirs.flatten)
      (theirs.flatten ++ ours.flatten)
  | spacing (h : TrailingTie ours theirs) : SwapPiece base ours theirs ours.flatten theirs.flatten

/-- Two outputs made of the pieces of one walk, each as it is put out with the sides exchanged. -/
def SwapText (base ours theirs : List Line) (trace : List Segment) (out out' : Bytes) : Prop :=
  ∃ pieces : List (Bytes × Bytes),
    List.Forall₂ (fun s p => SwapPiece (s.base.slice base) (s.ours.slice ours)
      (s.theirs.slice theirs) p.1 p.2) trace pieces ∧
    out = (pieces.map Prod.fst).flatten ∧ out' = (pieces.map Prod.snd).flatten

theorem SwapText.snoc (h : SwapText base ours theirs trace out out')
    (hpiece : SwapPiece (s.base.slice base) (s.ours.slice ours) (s.theirs.slice theirs) x y) :
    SwapText base ours theirs (trace ++ [s]) (out ++ x) (out' ++ y) := by
  obtain ⟨pieces, hpieces, rfl, rfl⟩ := h
  exact ⟨pieces ++ [(x, y)], rel_append hpieces (.cons hpiece .nil), by simp, by simp⟩

theorem any_zip_ne [DecidableEq β] {a b : List α} (f : α → β) (hlen : a.length = b.length) :
    (a.zip b).any (fun p => f p.1 ≠ f p.2) = true ↔ a.map f ≠ b.map f := by
  induction a generalizing b with
  | nil =>
    obtain rfl := length_eq_zero_iff.1 hlen.symm
    simp
  | cons x a ih =>
    cases b with
    | nil => cases hlen
    | cons y b =>
      have hrest := ih (Nat.succ.inj hlen)
      simp only [zip_cons_cons, any_cons, Bool.or_eq_true, hrest, decide_eq_true_eq,
        map_cons, ne_eq, List.cons.injEq, not_and_or]

theorem compareTrailingWs_eq_ite (a b : List Line) :
    compareTrailingWs a b =
      if a.map trailingWsKey = b.map trailingWsKey then
        if (a.map countTrailingWs).sum ≤ (b.map countTrailingWs).sum then some a else some b
      else none := by
  unfold compareTrailingWs
  by_cases hlen : a.length = b.length
  · rw [if_neg (not_not.2 hlen)]
    by_cases hkeys : a.map trailingWsKey = b.map trailingWsKey
    · rw [if_neg fun h => (any_zip_ne trailingWsKey hlen).1 h hkeys, if_pos hkeys]
    · rw [if_pos ((any_zip_ne trailingWsKey hlen).2 hkeys), if_neg hkeys]
  · rw [if_pos hlen, if_neg]
    intro hkeys
    have hmap := congrArg List.length hkeys
    rw [length_map, length_map] at hmap
    exact hlen hmap

theorem composeGap_comm (out : Bytes) (ours theirs : List Line) :
    composeGap out ours theirs = composeGap out theirs ours := by
  unfold composeGap
  cases ours with
  | nil => cases theirs <;> rfl
  | cons l ours =>
    cases theirs with
    | nil => rfl
    | cons m theirs =>
      by_cases h : l :: ours = m :: theirs
      · rw [h]
      · simp only [isEmpty_cons, Bool.and_self, Bool.false_eq_true, if_false, if_neg h,
          if_neg fun hsame => h (Eq.symm hsame)]

theorem composeAction_comm (out : Bytes) (line : Line) (a b : LineAction) :
    composeAction out line a b = composeAction out line b a := by
  cases a <;> cases b <;> rfl

section Walk
variable {captureDiffSlices : List Line → List Line → List DiffOp} {markers : ConflictMarkers}

theorem composeDisjoint_comm (base ours theirs : List Line) :
    composeDisjoint captureDiffSlices base ours theirs =
      composeDisjoint captureDiffSlices base theirs ours := by
  unfold composeDisjoint
  simp only [composeGap_comm _ (List.getD (classifyAgainstBase captureDiffSlices base ours).2 _ []),
    composeAction_comm _ _ (List.getD (classifyAgainstBase captureDiffSlices base ours).1 _ .keep)]

theorem resolveHunk_swap (captureDiffSlices : List Line → List Line → List DiffOp)
    (base ours theirs : List Line) :
    (∃ x y, resolveHunk captureDiffSlices base ours theirs = some x ∧
        resolveHunk captureDiffSlices base theirs ours = some y ∧
        SwapPiece base ours theirs x y) ∨
      (resolveHunk captureDiffSlices base ours theirs = none ∧
        resolveHunk captureDiffSlices base theirs ours = none) := by
  by_cases hours : ours = base
  · left
    refine ⟨theirs.flatten, theirs.flatten, by rw [resolveHunk, if_pos hours], ?_, .same _⟩
    by_cases htheirs : theirs = base
    · rw [resolveHunk, if_pos htheirs, hours, htheirs]
    · rw [resolveHunk, if_neg htheirs, if_pos (.inl hours)]
  by_cases htheirs : theirs = base
  · exact .inl ⟨ours.flatten, ours.flatten,
      by rw [resolveHunk, if_neg hours, if_pos (.inl htheirs)],
      by rw [resolveHunk, if_pos htheirs], .same _⟩
  by_cases hsame : ours = theirs
  · subst hsame
    exact .inl ⟨ours.flatten, ours.flatten,
      by rw [resolveHunk, if_neg hours, if_pos (.inr rfl)],
      by rw [resolveHunk, if_neg hours, if_pos (.inr rfl)], .same _⟩
  have hsame' : ¬ theirs = ours := fun h => hsame h.symm
  simp only [resolveHunk, hours, htheirs, hsame, hsame', or_self, if_false,
    compareTrailingWs_eq_ite ours theirs, compareTrailingWs_eq_ite theirs ours,
    composeDisjoint_comm base theirs ours]
  by_cases hkeys : ours.map trailingWsKey = theirs.map trailingWsKey
  · left
    rw [if_pos hkeys, if_pos hkeys.symm]
    rcases Nat.lt_trichotomy (ours.map countTrailingWs).sum (theirs.map countTrailingWs).sum with
      hlt | heq | hgt
    · rw [if_pos hlt.le, if_neg (not_le.2 hlt)]
      exact ⟨_, _, rfl, rfl, .same _⟩
    · rw [if_pos heq.le, if_pos heq.ge]
      exact ⟨_, _, rfl, rfl, .spacing ⟨hkeys, heq⟩⟩
    · rw [if_neg (not_le.2 hgt), if_pos hgt.le]
      exact ⟨_, _, rfl, rfl, .same _⟩
  · have hkeys' : ¬ theirs.map trailingWsKey = ours.map trailingWsKey := fun h => hkeys h.symm
    rw [if_neg hkeys, if_neg hkeys']
    cases composeDisjoint captureDiffSlices base ours theirs with
    | some composed => exact .inl ⟨_, _, rfl, rfl, .same _⟩
    | none =>
      dsimp only
      by_cases hempty : base.isEmpty ∧ ¬ ours.isEmpty ∧ ¬ theirs.isEmpty
      · rw [if_pos hempty, if_pos ⟨hempty.1, hempty.2.2, hempty.2.1⟩]
        exact .inl ⟨_, _, rfl, rfl, .order (isEmpty_iff.1 hempty.1)⟩
      · rw [if_neg hempty, if_neg fun h => hempty ⟨h.1, h.2.2, h.2.1⟩]
        exact .inr ⟨rfl, rfl⟩

variable {base ours theirs : List Line} {ourAlign theirAlign : List (Option Nat)}

structure WalkSwap (base ours theirs : List Line) (st st' : WalkState) : Prop where
  i : st'.i = st.i
  ourPos : st'.ourPos = st.theirPos
  theirPos : st'.theirPos = st.ourPos
  trace : st'.trace = st.trace.map Segment.swap
  regions : st'.regions.map TextConflictRegion.source =
    st.regions.map TextConflictRegion.swapSource
  output : st.regions = [] → SwapText base ours theirs st.trace st.output st'.output

theorem WalkSwap.isStable (ourAlign theirAlign : List (Option Nat))
    (h : WalkSwap base ours theirs st st') :
    isStable theirAlign ourAlign st' = isStable ourAlign theirAlign st := by
  simp only [Merge.isStable, h.i, h.ourPos, h.theirPos]
  exact Bool.and_comm ..

theorem stableStep_swap (h : WalkSwap base ours theirs st st') :
    WalkSwap base ours theirs (stableStep base st) (stableStep base st') := by
  obtain ⟨hi, ho, ht, htrace, hregions, houtput⟩ := h
  refine ⟨?_, ?_, ?_, ?_, hregions, fun hnone => ?_⟩
  · simp only [stableStep, hi]
  · simp only [stableStep, ho]
  · simp only [stableStep, ht]
  · simp only [stableStep, htrace, map_append, hi, ho, ht]
    rfl
  · simp only [stableStep, hi]
    exact (houtput hnone).snoc (.same _)

theorem hunkStep_swap (h : WalkSwap base ours theirs st st') (j o t : Nat) :
    WalkSwap base ours theirs (hunkStep captureDiffSlices markers base ours theirs st j o t)
      (hunkStep captureDiffSlices markers base theirs ours st' j t o) := by
  obtain ⟨hi, ho, ht, htrace, hregions, houtput⟩ := h
  simp only [hunkStep, emitHunk_eq, hi, ho, ht]
  rcases resolveHunk_swap captureDiffSlices (Range.slice ⟨st.i, j⟩ base)
      (Range.slice ⟨st.ourPos, o⟩ ours) (Range.slice ⟨st.theirPos, t⟩ theirs) with
    ⟨x, y, hx, hy, hpiece⟩ | ⟨hx, hy⟩
  · rw [hx, hy]
    refine ⟨rfl, rfl, rfl, ?_, hregions, fun hnone => (houtput hnone).snoc hpiece⟩
    rw [htrace, map_append]
    rfl
  · rw [hx, hy]
    refine ⟨rfl, rfl, rfl, ?_, ?_, fun hnone => absurd hnone (by simp)⟩
    · rw [htrace, map_append]
      rfl
    · simp only [map_append, hregions]
      rfl

theorem scanHunk_swap (ourLen theirLen ourPos theirPos left j : Nat) :
    scanHunk theirAlign ourAlign theirLen ourLen theirPos ourPos left j =
      let (k, o, t) := scanHunk ourAlign theirAlign ourLen theirLen ourPos theirPos left j
      (k, t, o) := by
  induction left generalizing j with
  | zero => rfl
  | succ left ih =>
    unfold scanHunk
    cases ourAlign.getD j none with
    | none => cases theirAlign.getD j none <;> exact ih (j + 1)
    | some o =>
      cases theirAlign.getD j none with
      | none => exact ih (j + 1)
      | some t =>
        dsimp only
        by_cases hpos : ourPos ≤ o ∧ theirPos ≤ t
        · rw [if_pos hpos, if_pos hpos.symm]
        · rw [if_neg hpos, if_neg fun h => hpos h.symm]
          exact ih (j + 1)

theorem walkStep_swap (h : WalkSwap base ours theirs st st') :
    WalkSwap base ours theirs
      (walkStep captureDiffSlices markers base ours theirs ourAlign theirAlign st)
      (walkStep captureDiffSlices markers base theirs ours theirAlign ourAlign st') := by
  have hstable := h.isStable ourAlign theirAlign
  unfold walkStep
  rw [hstable]
  split
  · exact stableStep_swap h
  · have hend : hunkEnd base theirs ours theirAlign ourAlign st' =
        let (k, o, t) := hunkEnd base ours theirs ourAlign theirAlign st
        (k, t, o) := by
      simp only [hunkEnd, h.i, h.ourPos, h.theirPos]
      exact scanHunk_swap ..
    rw [hend]
    exact hunkStep_swap h ..

theorem walkLoop_swap (h : WalkSwap base ours theirs st st')
    (hl : walkLoop captureDiffSlices markers base ours theirs ourAlign theirAlign fuel st = some w)
    (hl' : walkLoop captureDiffSlices markers base theirs ours theirAlign ourAlign fuel st' =
      some w') : WalkSwap base ours theirs w w' := by
  induction fuel generalizing st st' with
  | zero => cases hl
  | succ fuel ih =>
    unfold walkLoop at hl hl'
    by_cases hi : st.i < base.length
    · rw [if_pos hi] at hl
      rw [if_pos (h.i ▸ hi)] at hl'
      exact ih (walkStep_swap h) hl hl'
    · rw [if_neg hi] at hl
      rw [if_neg (h.i ▸ hi)] at hl'
      cases hl
      cases hl'
      exact h

theorem walkSwap_start : WalkSwap base ours theirs {} {} :=
  ⟨rfl, rfl, rfl, rfl, rfl, fun _ => ⟨[], .nil, rfl, rfl⟩⟩

theorem walk_swap : WalkSwap base ours theirs
    (walk captureDiffSlices markers base ours theirs ourAlign theirAlign)
    (walk captureDiffSlices markers base theirs ours theirAlign ourAlign) := by
  obtain ⟨st, hst⟩ := Option.isSome_iff_exists.1 (walkLoop_start_isSome captureDiffSlices markers
    base ours theirs ourAlign theirAlign le_rfl)
  obtain ⟨st', hst'⟩ := Option.isSome_iff_exists.1 (walkLoop_start_isSome captureDiffSlices markers
    base theirs ours theirAlign ourAlign le_rfl)
  have hswap : WalkSwap base ours theirs st st' := walkLoop_swap walkSwap_start hst hst'
  simp only [walk, hst, hst', Option.get_some, finishWalk, hswap.ourPos, hswap.theirPos]
  by_cases hleft : st.ourPos < ours.length ∨ st.theirPos < theirs.length
  · rw [if_pos hleft, if_pos hleft.symm]
    exact hunkStep_swap hswap ..
  · rw [if_neg hleft, if_neg fun h => hleft h.symm]
    exact hswap

end Walk

section TextMerge
variable (captureDiffSlices : List Line → List Line → List DiffOp)

/-- What exchanging the sides leaves of the outcome of a merge. -/
def OutcomeSwap (base ours theirs : List Line) (trace : List Segment) :
    MergeOutcome → MergeOutcome → Prop
  | .clean out, .clean out' => out = out' ∨ SwapText base ours theirs trace out out'
  | .conflicts _ count, .conflicts _ count' => count = count'
  | .binary, .binary => True
  | _, _ => False

theorem anyBinary_comm (base ours theirs : Bytes) :
    anyBinary base ours theirs = anyBinary base theirs ours := by
  simp only [anyBinary, Bool.or_right_comm]

theorem outcome_swap (h : WalkSwap base ours theirs st st') :
    OutcomeSwap base ours theirs st.trace st.outcome st'.outcome := by
  have hlength := congrArg List.length h.regions
  rw [length_map, length_map] at hlength
  unfold WalkState.outcome
  cases hregions : st.regions with
  | nil =>
    rw [hregions] at hlength
    rw [length_eq_zero_iff.1 hlength]
    exact .inr (h.output hregions)
  | cons r rs =>
    rw [hregions] at hlength
    obtain ⟨r', rs', hregions'⟩ := exists_cons_of_length_eq_add_one hlength
    rw [hregions'] at hlength ⊢
    exact hlength.symm

/-- Text merge is symmetric in the sides, up to the order of two insertions at one place and up to
the side that is kept when both have equally much trailing whitespace and differ in nothing else. -/
theorem textHunkMerge_swap (base ours theirs : Bytes) :
    OutcomeSwap (splitLines base) (splitLines ours) (splitLines theirs)
        (walkTexts captureDiffSlices base ours theirs .default).trace
        (textHunkMerge captureDiffSlices base ours theirs)
        (textHunkMerge captureDiffSlices base theirs ours) ∧
      (textConflictRegions captureDiffSlices base theirs ours).map TextConflictRegion.source =
        (textConflictRegions captureDiffSlices base ours theirs).map
          TextConflictRegion.swapSource := by
  have hwalk : WalkSwap (splitLines base) (splitLines ours) (splitLines theirs)
      (walkTexts captureDiffSlices base ours theirs .default)
      (walkTexts captureDiffSlices base theirs ours .default) := walk_swap
  unfold textHunkMerge textHunkMergeWithMarkers textConflictRegions
  rw [anyBinary_comm base theirs ours]
  split
  · exact ⟨trivial, rfl⟩
  · unfold Diff3.run Diff3.regions
    by_cases hours : base = ours
    · by_cases htheirs : base = theirs
      · subst hours htheirs
        simp [OutcomeSwap]
      · simp [OutcomeSwap, hours.symm, htheirs]
    · by_cases htheirs : base = theirs
      · simp [OutcomeSwap, hours, htheirs.symm]
      · by_cases hsame : ours = theirs
        · subst hsame
          simp [OutcomeSwap, hours]
        · have hsame' : ¬ theirs = ours := fun h => hsame h.symm
          simp only [hours, htheirs, hsame, hsame', and_self, or_self, if_false]
          exact ⟨outcome_swap hwalk, hwalk.regions⟩

end TextMerge

/-- Two sides that leave equally much whitespace behind a line: each branch keeps its own. -/
theorem textHunkMerge_tie :
    ¬ ∀ (captureDiffSlices : List Line → List Line → List DiffOp)
        (base ours theirs out out' : Bytes),
      (∀ old new, ValidScript old new (captureDiffSlices old new)) →
      textHunkMerge captureDiffSlices base ours theirs = .clean out →
      textHunkMerge captureDiffSlices base theirs ours = .clean out' → out.Perm out' := by
  intro h
  have hperm := h wholeDiff (utf8 "y\n") (utf8 "x \n") (utf8 "x\t\n") (utf8 "x \n") (utf8 "x\t\n")
    wholeDiff_valid (by decide) (by decide)
  exact absurd (hperm.mem_iff (a := 32)) (by decide)

end Heddle.Merge
