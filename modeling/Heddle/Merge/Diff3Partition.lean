import Heddle.Merge.Diff3Walk

namespace Heddle.Merge
open Heddle.Lib
open List hiding after count diff getElem?_eq_some_iff partition

def Segment.source (s : Segment) : Range × Range × Range := (s.base, s.ours, s.theirs)

def TextConflictRegion.source (r : TextConflictRegion) : Range × Range × Range :=
  (r.base, r.ours, r.theirs)

def SplitText (lines : List Line) : Prop :=
  ∀ k l, lines[k]? = some l → k + 1 < lines.length → Terminated l

theorem splitLines_splitText (bytes : Bytes) : SplitText (splitLines bytes) :=
  fun _ _ h hk => splitLines_terminated h hk

theorem mem_slice {r : Range} (h : x ∈ r.slice xs) :
    ∃ k, r.Contains k ∧ xs[k]? = some x := by
  obtain ⟨k, hk⟩ := getElem?_of_mem h
  rw [Range.slice, getElem?_drop, getElem?_take] at hk
  split at hk
  · rename_i hlt
    exact ⟨r.start + k, ⟨Nat.le_add_right .., hlt⟩, hk⟩
  · cases hk

theorem slice_closed {r : Range} (hs : SplitText lines) (hstop : r.stop < lines.length)
    (hl : l ∈ r.slice lines) : Closed l := by
  obtain ⟨k, hk, hget⟩ := mem_slice hl
  exact (hs k l hget (by have := hk.2; omega)).closed

def BlockAt (output : Bytes) (r : TextConflictRegion) (block : Bytes) : Prop :=
  ∃ before after, output = before ++ block ++ after ∧ Closed before ∧
    r.merged = ⟨outputLineCount before, outputLineCount (before ++ block)⟩

theorem BlockAt.append (h : BlockAt output r block) (rest : Bytes) :
    BlockAt (output ++ rest) r block := by
  obtain ⟨before, after, rfl, hc, hm⟩ := h
  exact ⟨before, after ++ rest, by simp only [append_assoc], hc, hm⟩

theorem BlockAt.slice (h : BlockAt output r block) (hb : Terminated block) :
    r.merged.slice (splitLines output) = splitLines block := by
  obtain ⟨before, after, rfl, hc, hm⟩ := h
  have hcb : Closed (before ++ block) := hc.append hb.closed
  have hlines : splitLines (before ++ block ++ after) =
      splitLines before ++ splitLines block ++ splitLines after := by
    rw [splitLines_append hcb, splitLines_append hc]
  rw [hm, Range.slice, hlines]
  simp only [outputLineCount_eq_length, splitLines_append hc]
  rw [take_left, drop_left]

def StableLine (base ours theirs : List Line) (s : Segment) : Prop :=
  ∃ i o t l, s.source = (⟨i, i + 1⟩, ⟨o, o + 1⟩, ⟨t, t + 1⟩) ∧
    base[i]? = some l ∧ ours[o]? = some l ∧ theirs[t]? = some l

/-- The three texts are cut into the segments, in order, with no line left out or shared. -/
structure Partition (base ours theirs : List Line) (trace : List Segment) (i o t : Nat) :
    Prop where
  tilesBase : Tiles 0 (trace.map Segment.base) i
  tilesOurs : Tiles 0 (trace.map Segment.ours) o
  tilesTheirs : Tiles 0 (trace.map Segment.theirs) t
  base_le : i ≤ base.length
  ours_le : o ≤ ours.length
  theirs_le : t ≤ theirs.length
  stableLines : ∀ s ∈ trace, s.stable = true → StableLine base ours theirs s

theorem Partition.snoc (h : Partition base ours theirs trace i o t) (hi : i ≤ i') (ho : o ≤ o')
    (ht : t ≤ t') (hi' : i' ≤ base.length) (ho' : o' ≤ ours.length) (ht' : t' ≤ theirs.length)
    (hs : stable = true →
      StableLine base ours theirs ⟨stable, ⟨i, i'⟩, ⟨o, o'⟩, ⟨t, t'⟩⟩) :
    Partition base ours theirs (trace ++ [⟨stable, ⟨i, i'⟩, ⟨o, o'⟩, ⟨t, t'⟩⟩]) i' o' t' := by
  refine ⟨?_, ?_, ?_, hi', ho', ht', fun s hmem hstable => ?_⟩
  · rw [map_append]; exact h.tilesBase.snoc hi
  · rw [map_append]; exact h.tilesOurs.snoc ho
  · rw [map_append]; exact h.tilesTheirs.snoc ht
  · rcases mem_append.1 hmem with hmem | hmem
    · exact h.stableLines s hmem hstable
    · obtain rfl := mem_singleton.1 hmem
      exact hs hstable

/-- What the conflict regions say about the output and the segments walked. -/
structure RegionsIn (ours theirs : List Line) (markers : ConflictMarkers)
    (trace : List Segment) (output : Bytes) (regions : List TextConflictRegion) : Prop where
  source : (regions.map TextConflictRegion.source).Sublist (trace.map Segment.source)
  block : ∀ r ∈ regions, BlockAt output r
    (conflictBlock (r.ours.slice ours) (r.theirs.slice theirs) markers)
  ascending : regions.Pairwise (fun r s => r.merged.Before s.merged)
  bounds : ∀ r ∈ regions, r.merged.start ≤ r.merged.stop ∧ r.merged.stop ≤ outputLineCount output

section
variable (h : RegionsIn ours theirs markers trace output regions) (hc : Closed output) (s : Segment)
include h hc

theorem RegionsIn.append (added : Bytes) :
    RegionsIn ours theirs markers (trace ++ [s]) (output ++ added) regions := by
  refine ⟨?_, fun r hr => (h.block r hr).append added, h.ascending, fun r hr => ?_⟩
  · rw [map_append]
    exact h.source.trans (sublist_append_left ..)
  · rw [outputLineCount_append hc]
    exact ⟨(h.bounds r hr).1, (h.bounds r hr).2.trans (Nat.le_add_right ..)⟩

theorem RegionsIn.push (hm : merged = ⟨outputLineCount output, outputLineCount
      (output ++ conflictBlock (s.ours.slice ours) (s.theirs.slice theirs) markers)⟩) :
    RegionsIn ours theirs markers (trace ++ [s])
      (output ++ conflictBlock (s.ours.slice ours) (s.theirs.slice theirs) markers)
      (regions ++ [⟨s.base, s.ours, s.theirs, merged⟩]) := by
  have hold := h.append hc s (conflictBlock (s.ours.slice ours) (s.theirs.slice theirs) markers)
  refine ⟨?_, fun r hr => ?_, ?_, fun r hr => ?_⟩
  · rw [map_append, map_append]
    exact h.source.append (List.Sublist.refl _)
  · rcases mem_append.1 hr with hr | hr
    · exact hold.block r hr
    · obtain rfl := mem_singleton.1 hr
      exact ⟨output, [], by rw [append_nil], hc, hm⟩
  · rw [pairwise_append]
    refine ⟨h.ascending, pairwise_singleton _ _, fun r hr s' hs' => ?_⟩
    obtain rfl := mem_singleton.1 hs'
    show r.merged.stop ≤ merged.start
    rw [hm]
    exact (h.bounds r hr).2
  · rcases mem_append.1 hr with hr | hr
    · exact hold.bounds r hr
    · obtain rfl := mem_singleton.1 hr
      show merged.start ≤ merged.stop ∧ merged.stop ≤ _
      rw [hm, outputLineCount_append hc]
      exact ⟨Nat.le_add_right .., le_rfl⟩

end

section Walk
variable {captureDiffSlices : List Line → List Line → List DiffOp} {markers : ConflictMarkers}
variable {base ours theirs : List Line} {ourAlign theirAlign : List (Option Nat)}

/-- The loop invariant. While a line is left in some text, the output ends at a line break. -/
structure WalkInv (base ours theirs : List Line) (markers : ConflictMarkers) (st : WalkState) :
    Prop where
  partition : Partition base ours theirs st.trace st.i st.ourPos st.theirPos
  regions : RegionsIn ours theirs markers st.trace st.output st.regions
  closed : st.i < base.length ∨ st.ourPos < ours.length ∨ st.theirPos < theirs.length →
    Closed st.output

theorem walkInv_start : WalkInv base ours theirs markers {} :=
  ⟨⟨rfl, rfl, rfl, Nat.zero_le _, Nat.zero_le _, Nat.zero_le _,
      fun _ hs => absurd hs not_mem_nil⟩,
    ⟨List.Sublist.refl _, fun _ hr => absurd hr not_mem_nil, .nil,
      fun _ hr => absurd hr not_mem_nil⟩,
    fun _ => .inl rfl⟩

section
variable (hbase : SplitText base) (hours : SplitText ours) (htheirs : SplitText theirs)
include hbase hours htheirs

theorem stableStep_inv (ho : Aligned base ours ourAlign)
    (ht : Aligned base theirs theirAlign) (h : WalkInv base ours theirs markers st)
    (hs : isStable ourAlign theirAlign st = true) :
    WalkInv base ours theirs markers (stableStep base st) := by
  simp only [isStable, Bool.and_eq_true, decide_eq_true_eq] at hs
  obtain ⟨l, hl, hol⟩ := ho _ _ hs.1
  obtain ⟨l', hl', htl⟩ := ht _ _ hs.2
  obtain rfl : l = l' := Option.some.inj (hl.symm.trans hl')
  have hi := (List.getElem?_eq_some_iff.1 hl).1
  have hour := (List.getElem?_eq_some_iff.1 hol).1
  have htheir := (List.getElem?_eq_some_iff.1 htl).1
  have hc : Closed st.output := h.closed (.inl hi)
  have hline : base.getD st.i [] = l := by rw [getD_eq_getElem?_getD, hl]; rfl
  refine ⟨?_, h.regions.append hc _ _, fun hleft => ?_⟩
  · exact h.partition.snoc (Nat.le_succ _) (Nat.le_succ _) (Nat.le_succ _) hi hour htheir
      fun _ => ⟨_, _, _, l, rfl, hl, hol, htl⟩
  · have hterm : Terminated l := by
      rcases hleft with hleft | hleft | hleft
      · exact hbase _ _ hl hleft
      · exact hours _ _ hol hleft
      · exact htheirs _ _ htl hleft
    simp only [stableStep, hline]
    exact hc.append hterm.closed

theorem hunkStep_inv (h : WalkInv base ours theirs markers st)
    (hc : Closed st.output) (hj : st.i ≤ j) (ho : st.ourPos ≤ o) (ht : st.theirPos ≤ t)
    (hend : (j < base.length ∧ o < ours.length ∧ t < theirs.length) ∨
      (j = base.length ∧ o = ours.length ∧ t = theirs.length)) :
    WalkInv base ours theirs markers
      (hunkStep captureDiffSlices markers base ours theirs st j o t) := by
  have hpart : Partition base ours theirs
      (st.trace ++ [⟨false, ⟨st.i, j⟩, ⟨st.ourPos, o⟩, ⟨st.theirPos, t⟩⟩]) j o t :=
    h.partition.snoc hj ho ht (by omega) (by omega) (by omega) (by simp)
  have hslices : j < base.length ∨ o < ours.length ∨ t < theirs.length →
      (∀ l ∈ Range.slice ⟨st.i, j⟩ base, Closed l) ∧
        (∀ l ∈ Range.slice ⟨st.ourPos, o⟩ ours, Closed l) ∧
        (∀ l ∈ Range.slice ⟨st.theirPos, t⟩ theirs, Closed l) := by
    intro hleft
    obtain ⟨h1, h2, h3⟩ : j < base.length ∧ o < ours.length ∧ t < theirs.length := by omega
    exact ⟨fun l => slice_closed hbase h1, fun l => slice_closed hours h2,
      fun l => slice_closed htheirs h3⟩
  simp only [hunkStep, emitHunk_eq]
  cases hr : resolveHunk captureDiffSlices (Range.slice ⟨st.i, j⟩ base)
      (Range.slice ⟨st.ourPos, o⟩ ours) (Range.slice ⟨st.theirPos, t⟩ theirs) with
  | some added =>
    refine ⟨hpart, h.regions.append hc _ added, fun hleft => ?_⟩
    obtain ⟨hb, ho, ht⟩ := hslices hleft
    exact hc.append (resolveHunk_closed hr hb ho ht)
  | none =>
    refine ⟨hpart, h.regions.push hc _ rfl, fun _ => ?_⟩
    exact hc.append (conflictBlock_terminated ..).closed

section
variable (ho : Aligned base ours ourAlign) (ht : Aligned base theirs theirAlign)
  (h : WalkInv base ours theirs markers st)
include ho ht h

theorem walkStep_inv (hi : st.i < base.length) :
    WalkInv base ours theirs markers
      (walkStep captureDiffSlices markers base ours theirs ourAlign theirAlign st) := by
  unfold walkStep
  split
  · rename_i hs
    exact stableStep_inv hbase hours htheirs ho ht h hs
  · obtain ⟨⟨j, o, t⟩, hend⟩ : ∃ e, hunkEnd base ours theirs ourAlign theirAlign st = e :=
      ⟨_, rfl⟩
    rw [hend]
    obtain ⟨hle, hcase⟩ := hunkEnd_spec base ours theirs ourAlign theirAlign hi.le hend
    obtain ⟨hj, hoj, htj, hop, htp⟩ | ⟨rfl, rfl, rfl⟩ := hcase
    · obtain ⟨_, _, hoget⟩ := ho _ _ hoj
      obtain ⟨_, _, htget⟩ := ht _ _ htj
      have holt := (List.getElem?_eq_some_iff.1 hoget).1
      have htlt := (List.getElem?_eq_some_iff.1 htget).1
      exact hunkStep_inv hbase hours htheirs h (h.closed (.inl hi)) hle hop htp
        (.inl ⟨hj, holt, htlt⟩)
    · exact hunkStep_inv hbase hours htheirs h (h.closed (.inl hi)) hle h.partition.ours_le
        h.partition.theirs_le (.inr ⟨rfl, rfl, rfl⟩)

theorem walkLoop_inv
    (hl : walkLoop captureDiffSlices markers base ours theirs ourAlign theirAlign fuel st =
      some st') :
    WalkInv base ours theirs markers st' ∧ st'.i = base.length := by
  induction fuel generalizing st with
  | zero => cases hl
  | succ fuel ih =>
    unfold walkLoop at hl
    split at hl
    · rename_i hi
      exact ih (walkStep_inv hbase hours htheirs ho ht h hi) hl
    · rename_i hi
      cases hl
      exact ⟨h, Nat.le_antisymm h.partition.base_le (le_of_not_gt hi)⟩

end

end

theorem finishWalk_inv (captureDiffSlices : List Line → List Line → List DiffOp)
    (hbase : SplitText base) (hours : SplitText ours)
    (htheirs : SplitText theirs) (h : WalkInv base ours theirs markers st)
    (hi : st.i = base.length) :
    WalkInv base ours theirs markers (finishWalk captureDiffSlices markers base ours theirs st) ∧
      (finishWalk captureDiffSlices markers base ours theirs st).i = base.length ∧
      (finishWalk captureDiffSlices markers base ours theirs st).ourPos = ours.length ∧
      (finishWalk captureDiffSlices markers base ours theirs st).theirPos = theirs.length := by
  unfold finishWalk
  split
  · rename_i hleft
    exact ⟨hunkStep_inv hbase hours htheirs h (h.closed (.inr hleft)) hi.le h.partition.ours_le
      h.partition.theirs_le (.inr ⟨rfl, rfl, rfl⟩), rfl, rfl, rfl⟩
  · have := h.partition.ours_le
    have := h.partition.theirs_le
    exact ⟨h, hi, by omega, by omega⟩

theorem walk_inv (hbase : SplitText base) (hours : SplitText ours)
    (htheirs : SplitText theirs) (ho : Aligned base ours ourAlign)
    (ht : Aligned base theirs theirAlign) :
    WalkInv base ours theirs markers
        (walk captureDiffSlices markers base ours theirs ourAlign theirAlign) ∧
      Partition base ours theirs
        (walk captureDiffSlices markers base ours theirs ourAlign theirAlign).trace
        base.length ours.length theirs.length := by
  obtain ⟨st, hst⟩ := Option.isSome_iff_exists.1 (walkLoop_start_isSome captureDiffSlices markers
    base ours theirs ourAlign theirAlign le_rfl)
  have hwalk : walk captureDiffSlices markers base ours theirs ourAlign theirAlign =
      finishWalk captureDiffSlices markers base ours theirs st := by
    simp only [walk, hst, Option.get_some]
  obtain ⟨hinv, hi⟩ := walkLoop_inv hbase hours htheirs ho ht walkInv_start hst
  obtain ⟨hinv', hi', hour, htheir⟩ := finishWalk_inv captureDiffSlices hbase hours
    htheirs hinv hi
  rw [hwalk]
  refine ⟨hinv', ?_⟩
  have := hinv'.partition
  rwa [hi', hour, htheir] at this

/-- Two walks that differ in their marker labels only. -/
structure WalkAgree (st st' : WalkState) : Prop where
  i : st.i = st'.i
  ourPos : st.ourPos = st'.ourPos
  theirPos : st.theirPos = st'.theirPos
  trace : st.trace = st'.trace
  regions : st.regions = st'.regions
  lineCount : outputLineCount st.output = outputLineCount st'.output

theorem hunkStep_agree (hm : markers.SingleLine) (hm' : markers'.SingleLine)
    (h : WalkAgree st st') (hc : Closed st.output) (hc' : Closed st'.output) (j o t : Nat) :
    WalkAgree (hunkStep captureDiffSlices markers base ours theirs st j o t)
      (hunkStep captureDiffSlices markers' base ours theirs st' j o t) := by
  obtain ⟨hi, ho, ht, htrace, hregions, hcount⟩ := h
  simp only [hunkStep, emitHunk_eq, hi, ho, ht]
  cases resolveHunk captureDiffSlices (Range.slice ⟨st'.i, j⟩ base)
      (Range.slice ⟨st'.ourPos, o⟩ ours) (Range.slice ⟨st'.theirPos, t⟩ theirs) with
  | some added =>
    refine ⟨rfl, rfl, rfl, by rw [htrace], hregions, ?_⟩
    rw [outputLineCount_append hc, outputLineCount_append hc', hcount]
  | none =>
    have hblock : ∀ b o, outputLineCount (st.output ++ conflictBlock b o markers) =
        outputLineCount (st'.output ++ conflictBlock b o markers') := by
      intro b o
      rw [outputLineCount_append hc, outputLineCount_append hc', hcount,
        conflictBlock_count hm, conflictBlock_count hm']
    refine ⟨rfl, rfl, rfl, by rw [htrace], ?_, hblock _ _⟩
    simp only [hregions, hcount, hblock]

theorem walkStep_agree (hm : markers.SingleLine) (hm' : markers'.SingleLine)
    (h : WalkAgree st st') (hc : Closed st.output) (hc' : Closed st'.output) :
    WalkAgree (walkStep captureDiffSlices markers base ours theirs ourAlign theirAlign st)
      (walkStep captureDiffSlices markers' base ours theirs ourAlign theirAlign st') := by
  have hstable : isStable ourAlign theirAlign st = isStable ourAlign theirAlign st' := by
    simp only [isStable, h.i, h.ourPos, h.theirPos]
  have hend : hunkEnd base ours theirs ourAlign theirAlign st =
      hunkEnd base ours theirs ourAlign theirAlign st' := by
    simp only [hunkEnd, h.i, h.ourPos, h.theirPos]
  unfold walkStep
  rw [hstable, hend]
  split
  · obtain ⟨hi, ho, ht, htrace, hregions, hcount⟩ := h
    refine ⟨?_, ?_, ?_, ?_, hregions, ?_⟩
    · simp only [stableStep, hi]
    · simp only [stableStep, ho]
    · simp only [stableStep, ht]
    · simp only [stableStep, hi, ho, ht, htrace]
    · simp only [stableStep, hi]
      rw [outputLineCount_append hc, outputLineCount_append hc', hcount]
  · exact hunkStep_agree hm hm' h hc hc' _ _ _

theorem walkLoop_agree (hm : markers.SingleLine) (hm' : markers'.SingleLine)
    (hbase : SplitText base) (hours : SplitText ours) (htheirs : SplitText theirs)
    (ho : Aligned base ours ourAlign) (ht : Aligned base theirs theirAlign) (h : WalkAgree st st')
    (hinv : WalkInv base ours theirs markers st) (hinv' : WalkInv base ours theirs markers' st')
    (hl : walkLoop captureDiffSlices markers base ours theirs ourAlign theirAlign fuel st =
      some w)
    (hl' : walkLoop captureDiffSlices markers' base ours theirs ourAlign theirAlign fuel st' =
      some w') : WalkAgree w w' := by
  induction fuel generalizing st st' with
  | zero => cases hl
  | succ fuel ih =>
    unfold walkLoop at hl hl'
    by_cases hi : st.i < base.length
    · have hi' : st'.i < base.length := h.i ▸ hi
      rw [if_pos hi] at hl
      rw [if_pos hi'] at hl'
      exact ih (walkStep_agree hm hm' h (hinv.closed (.inl hi)) (hinv'.closed (.inl hi')))
        (walkStep_inv hbase hours htheirs ho ht hinv hi)
        (walkStep_inv hbase hours htheirs ho ht hinv' hi') hl hl'
    · rw [if_neg hi] at hl
      rw [if_neg (h.i ▸ hi)] at hl'
      cases hl
      cases hl'
      exact h

theorem walk_agree (hm : markers.SingleLine) (hm' : markers'.SingleLine) (hbase : SplitText base)
    (hours : SplitText ours) (htheirs : SplitText theirs) (ho : Aligned base ours ourAlign)
    (ht : Aligned base theirs theirAlign) :
    WalkAgree (walk captureDiffSlices markers base ours theirs ourAlign theirAlign)
      (walk captureDiffSlices markers' base ours theirs ourAlign theirAlign) := by
  obtain ⟨st, hst⟩ := Option.isSome_iff_exists.1 (walkLoop_start_isSome captureDiffSlices markers
    base ours theirs ourAlign theirAlign le_rfl)
  obtain ⟨st', hst'⟩ := Option.isSome_iff_exists.1 (walkLoop_start_isSome captureDiffSlices
    markers' base ours theirs ourAlign theirAlign le_rfl)
  have hag : WalkAgree st st' := walkLoop_agree hm hm' hbase hours htheirs ho ht
    ⟨rfl, rfl, rfl, rfl, rfl, rfl⟩ walkInv_start walkInv_start hst hst'
  obtain ⟨hinv, _⟩ := walkLoop_inv hbase hours htheirs ho ht walkInv_start hst
  obtain ⟨hinv', _⟩ := walkLoop_inv hbase hours htheirs ho ht walkInv_start hst'
  simp only [walk, hst, hst', Option.get_some, finishWalk]
  by_cases hleft : st.ourPos < ours.length ∨ st.theirPos < theirs.length
  · have hleft' : st'.ourPos < ours.length ∨ st'.theirPos < theirs.length := by
      rwa [← hag.ourPos, ← hag.theirPos]
    rw [if_pos hleft, if_pos hleft']
    exact hunkStep_agree hm hm' hag (hinv.closed (.inr hleft)) (hinv'.closed (.inr hleft')) _ _ _
  · rw [if_neg hleft, if_neg (by rwa [← hag.ourPos, ← hag.theirPos])]
    exact hag

end Walk

/-- The ranges cut `lines` into pieces, each line in exactly one of them. -/
structure LinesOnce (lines : List Line) (ranges : List Range) : Prop where
  tiles : Tiles 0 ranges lines.length
  once : ∀ k < lines.length, ∃! i : Fin ranges.length, (ranges.get i).Contains k
  joined : (ranges.map (fun r => r.slice lines)).flatten = lines

theorem linesOnce_of_tiles {ranges : List Range} (h : Tiles 0 ranges lines.length) :
    LinesOnce lines ranges :=
  ⟨h, fun _ hk => h.existsUnique (Nat.zero_le _) hk, h.flatten_slice_all lines⟩

/-- `ranges` ascend, do not overlap and stay inside a text of `len` lines. -/
def AscendingIn (len : Nat) (ranges : List Range) : Prop :=
  ranges.Pairwise Range.Before ∧ ∀ r ∈ ranges, r.start ≤ r.stop ∧ r.stop ≤ len

theorem Tiles.ascendingIn {ranges : List Range} (h : Tiles 0 rs len)
    (hsub : List.Sublist ranges rs) : AscendingIn len ranges :=
  ⟨h.pairwise_before.sublist hsub, fun _ hr => (h.bounds (hsub.subset hr)).2⟩

structure ConflictReport (base ours theirs : List Line) (markers : ConflictMarkers)
    (trace : List Segment) (output : Bytes) (regions : List TextConflictRegion) : Prop where
  hunks : (regions.map TextConflictRegion.source).Sublist (trace.map Segment.source)
  baseRanges : AscendingIn base.length (regions.map TextConflictRegion.base)
  ourRanges : AscendingIn ours.length (regions.map TextConflictRegion.ours)
  theirRanges : AscendingIn theirs.length (regions.map TextConflictRegion.theirs)
  mergedRanges : AscendingIn (splitLines output).length (regions.map TextConflictRegion.merged)
  block : ∀ r ∈ regions, (r.merged.slice (splitLines output)).flatten =
    conflictBlock (r.ours.slice ours) (r.theirs.slice theirs) markers

theorem RegionsIn.report
    (hp : Partition base ours theirs trace base.length ours.length theirs.length)
    (h : RegionsIn ours theirs markers trace output regions) :
    ConflictReport base ours theirs markers trace output regions := by
  have hbase := h.source.map Prod.fst
  have hours := h.source.map (fun s => s.2.1)
  have htheirs := h.source.map (fun s => s.2.2)
  simp only [map_map] at hbase hours htheirs
  refine ⟨h.source, Tiles.ascendingIn hp.tilesBase hbase, Tiles.ascendingIn hp.tilesOurs hours,
    Tiles.ascendingIn hp.tilesTheirs htheirs, ⟨?_, fun r hr => ?_⟩, fun r hr => ?_⟩
  · exact pairwise_map.2 h.ascending
  · obtain ⟨region, hregion, rfl⟩ := mem_map.1 hr
    rw [← outputLineCount_eq_length]
    exact h.bounds region hregion
  · rw [(h.block r hr).slice (conflictBlock_terminated ..), splitLines_flatten]

section Written
variable (captureDiffSlices : List Line → List Line → List DiffOp) (markers : ConflictMarkers)
variable (base ours theirs : List Line)

/-- What the walk writes for a segment: the line, or the hunk as it is emitted. -/
def Segment.text (s : Segment) : Bytes :=
  if s.stable then (s.base.slice base).flatten
  else (emitHunk captureDiffSlices [] [] (s.base.slice base) (s.ours.slice ours)
    (s.theirs.slice theirs) ⟨s.base, s.ours, s.theirs, ⟨0, 0⟩⟩ markers).1

def WalkState.Written (st : WalkState) : Prop :=
  st.output = st.trace.flatMap (Segment.text captureDiffSlices markers base ours theirs)

variable {captureDiffSlices markers base ours theirs} {ourAlign theirAlign : List (Option Nat)}

theorem slice_one (hi : i < base.length) :
    Range.slice ⟨i, i + 1⟩ base = [base.getD i []] := by
  rw [Range.slice, drop_take, Nat.add_sub_cancel_left, getD_eq_getElem?_getD, drop_eq_getElem_cons hi,
    getElem?_eq_getElem hi]
  rfl

theorem hunkStep_written (h : st.Written captureDiffSlices markers base ours theirs) (j o t : Nat) :
    (hunkStep captureDiffSlices markers base ours theirs st j o t).Written captureDiffSlices markers
      base ours theirs := by
  unfold WalkState.Written at h ⊢
  simp only [hunkStep, flatMap_append, flatMap_singleton, ← h, Segment.text, Bool.false_eq_true,
    if_false, emitHunk_eq]
  split
  · rfl
  · rfl

theorem walkStep_written (hi : st.i < base.length)
    (h : st.Written captureDiffSlices markers base ours theirs) :
    (walkStep captureDiffSlices markers base ours theirs ourAlign theirAlign st).Written
      captureDiffSlices markers base ours theirs := by
  unfold walkStep
  split
  · unfold WalkState.Written at h ⊢
    simp only [stableStep, flatMap_append, flatMap_singleton, ← h, Segment.text, if_true,
      slice_one hi, flatten_singleton]
  · exact hunkStep_written h _ _ _

theorem walkLoop_written (h : st.Written captureDiffSlices markers base ours theirs)
    (hl : walkLoop captureDiffSlices markers base ours theirs ourAlign theirAlign fuel st =
      some st') : st'.Written captureDiffSlices markers base ours theirs := by
  induction fuel generalizing st with
  | zero => cases hl
  | succ fuel ih =>
    unfold walkLoop at hl
    split at hl
    · rename_i hi
      exact ih (walkStep_written hi h) hl
    · cases hl
      exact h

theorem walk_written :
    (walk captureDiffSlices markers base ours theirs ourAlign theirAlign).Written captureDiffSlices
      markers base ours theirs := by
  obtain ⟨st, hst⟩ := Option.isSome_iff_exists.1 (walkLoop_start_isSome captureDiffSlices markers
    base ours theirs ourAlign theirAlign le_rfl)
  have hstart : ({} : WalkState).Written captureDiffSlices markers base ours theirs := rfl
  have h := walkLoop_written hstart hst
  simp only [walk, hst, Option.get_some]
  unfold finishWalk
  split
  · exact hunkStep_written h _ _ _
  · exact h

end Written

section TextMerge
variable {captureDiffSlices : List Line → List Line → List DiffOp}

/-- The lines of the texts, and the alignments that the walk follows. -/
theorem walkTexts_inv (markers : ConflictMarkers)
    (hours : ValidScript (splitLines base) (splitLines ours)
      (captureDiffSlices (splitLines base) (splitLines ours)))
    (htheirs : ValidScript (splitLines base) (splitLines theirs)
      (captureDiffSlices (splitLines base) (splitLines theirs))) :
    let w := walkTexts captureDiffSlices base ours theirs markers
    WalkInv (splitLines base) (splitLines ours) (splitLines theirs) markers w ∧
      Partition (splitLines base) (splitLines ours) (splitLines theirs) w.trace
        (splitLines base).length (splitLines ours).length (splitLines theirs).length :=
  walk_inv (splitLines_splitText _) (splitLines_splitText _) (splitLines_splitText _)
    (buildAlignment_aligned hours) (buildAlignment_aligned htheirs)

theorem textHunkMerge_conflicts
    (h : textHunkMergeWithMarkers captureDiffSlices base ours theirs markers =
      .conflicts output count) :
    let w := walkTexts captureDiffSlices base ours theirs markers
    output = w.output ∧ count = w.regions.length ∧
      textConflictRegions captureDiffSlices base ours theirs =
        (walkTexts captureDiffSlices base ours theirs .default).regions := by
  unfold textHunkMergeWithMarkers at h
  split at h
  · cases h
  · rename_i hbin
    unfold Diff3.run at h
    repeat' split at h
    all_goals try cases h
    rename_i h1 h2 h3 h4
    unfold WalkState.outcome at h
    split at h
    · cases h
    · obtain ⟨rfl, rfl⟩ := MergeOutcome.conflicts.inj h
      refine ⟨rfl, rfl, ?_⟩
      rw [textConflictRegions, if_neg hbin, Diff3.regions, if_neg (by tauto)]

theorem textHunkMerge_walked
    (h : textHunkMergeWithMarkers captureDiffSlices base ours theirs markers = .clean output) :
    base = ours ∨ base = theirs ∨ ours = theirs ∨
      let w := walkTexts captureDiffSlices base ours theirs markers
      output = w.output ∧ w.regions = [] := by
  unfold textHunkMergeWithMarkers Diff3.run WalkState.outcome at h
  split at h
  · cases h
  · repeat' split at h
    · rename_i hsame
      exact .inl hsame.1
    · rename_i hsame
      exact .inl hsame
    · rename_i hsame
      exact .inr (.inl hsame)
    · rename_i hsame
      exact .inr (.inr (.inl hsame))
    · rename_i hempty
      cases h
      exact .inr (.inr (.inr ⟨rfl, isEmpty_iff.1 hempty⟩))
    · cases h

/-- The diff3 walk partitions the three texts, writes the output segment by segment, and reports its
conflicts where they are. -/
theorem textHunkMerge_partition (captureDiffSlices : List Line → List Line → List DiffOp)
    (base ours theirs : Bytes) (markers : ConflictMarkers)
    (hm : markers.SingleLine)
    (hours : ValidScript (splitLines base) (splitLines ours)
      (captureDiffSlices (splitLines base) (splitLines ours)))
    (htheirs : ValidScript (splitLines base) (splitLines theirs)
      (captureDiffSlices (splitLines base) (splitLines theirs))) :
    let w := walkTexts captureDiffSlices base ours theirs markers
    (∀ fuel, walkFuel (splitLines base) ≤ fuel →
      (walkLoop captureDiffSlices markers (splitLines base) (splitLines ours) (splitLines theirs)
        (buildAlignment captureDiffSlices (splitLines base) (splitLines ours))
        (buildAlignment captureDiffSlices (splitLines base) (splitLines theirs)) fuel {}).isSome) ∧
    LinesOnce (splitLines base) (w.trace.map Segment.base) ∧
    LinesOnce (splitLines ours) (w.trace.map Segment.ours) ∧
    LinesOnce (splitLines theirs) (w.trace.map Segment.theirs) ∧
    (∀ s ∈ w.trace, s.stable = true →
      StableLine (splitLines base) (splitLines ours) (splitLines theirs) s) ∧
    w.Written captureDiffSlices markers (splitLines base) (splitLines ours) (splitLines theirs) ∧
    (∀ output, textHunkMergeWithMarkers captureDiffSlices base ours theirs markers = .clean output →
      base = ours ∨ base = theirs ∨ ours = theirs ∨ output = w.output ∧ w.regions = []) ∧
    ∀ output count,
      textHunkMergeWithMarkers captureDiffSlices base ours theirs markers =
        .conflicts output count →
      output = w.output ∧
      ConflictReport (splitLines base) (splitLines ours) (splitLines theirs) markers w.trace output
        w.regions ∧
      count = w.regions.length ∧
      textConflictRegions captureDiffSlices base ours theirs = w.regions := by
  intro w
  obtain ⟨hinv, hpart⟩ := walkTexts_inv markers hours htheirs
  refine ⟨fun fuel hf => walkLoop_start_isSome _ _ _ _ _ _ _ hf,
    linesOnce_of_tiles hpart.tilesBase, linesOnce_of_tiles hpart.tilesOurs,
    linesOnce_of_tiles hpart.tilesTheirs, hpart.stableLines, walk_written,
    fun output hc => textHunkMerge_walked hc, fun output count hc => ?_⟩
  obtain ⟨rfl, hcount, hregions⟩ := textHunkMerge_conflicts hc
  have hagree : WalkAgree (walkTexts captureDiffSlices base ours theirs .default) w := walk_agree
    ConflictMarkers.default_singleLine hm (splitLines_splitText base) (splitLines_splitText ours)
    (splitLines_splitText theirs) (buildAlignment_aligned hours) (buildAlignment_aligned htheirs)
  exact ⟨rfl, hinv.regions.report hpart, hcount, hregions.trans hagree.regions⟩

/-- One edit behind the first line and in front of the last one. -/
def middleDiff (old new : List Line) : List DiffOp :=
  if old.length = 3 then
    [.equal 0 0 1, .replace 1 1 1 (new.length - 2), .equal 2 (new.length - 1) 1]
  else [.replace 0 old.length 0 new.length]

/-- A conflict between two stable lines. -/
theorem textHunkMerge_partition_replace :
    let w := walkTexts middleDiff (utf8 "a\nb\nc\n") (utf8 "a\nx\ny\nc\n") (utf8 "a\nz\nc\n") .default
    w.trace.map Segment.stable = [true, false, true] ∧
      w.output = w.trace.flatMap (Segment.text middleDiff .default (splitLines (utf8 "a\nb\nc\n"))
        (splitLines (utf8 "a\nx\ny\nc\n")) (splitLines (utf8 "a\nz\nc\n"))) ∧
      textConflictRegions middleDiff (utf8 "a\nb\nc\n") (utf8 "a\nx\ny\nc\n") (utf8 "a\nz\nc\n") =
        [⟨⟨1, 2⟩, ⟨1, 3⟩, ⟨1, 2⟩, ⟨1, 7⟩⟩] := by
  intro w
  have hbase : splitLines (utf8 "a\nb\nc\n") = [utf8 "a\n", utf8 "b\n", utf8 "c\n"] := by decide
  have hour : splitLines (utf8 "a\nx\ny\nc\n") =
      [utf8 "a\n", utf8 "x\n", utf8 "y\n", utf8 "c\n"] := by decide
  have htheir : splitLines (utf8 "a\nz\nc\n") = [utf8 "a\n", utf8 "z\n", utf8 "c\n"] := by decide
  obtain ⟨_, _, _, _, _, hwritten, _, hreport⟩ := textHunkMerge_partition middleDiff
    (utf8 "a\nb\nc\n") (utf8 "a\nx\ny\nc\n") (utf8 "a\nz\nc\n") .default
    ConflictMarkers.default_singleLine
    (by simp [ValidScript, ValidFrom, middleDiff, hbase, hour])
    (by simp [ValidScript, ValidFrom, middleDiff, hbase, htheir])
  have hconflict : textHunkMergeWithMarkers middleDiff (utf8 "a\nb\nc\n") (utf8 "a\nx\ny\nc\n")
      (utf8 "a\nz\nc\n") .default = .conflicts
        (utf8 "a\n<<<<<<< CURRENT\nx\ny\n=======\nz\n>>>>>>> INCOMING\nc\n") 1 := by decide +kernel
  exact ⟨by decide +kernel, hwritten, (hreport _ _ hconflict).2.2.2.trans (by decide +kernel)⟩

end TextMerge

end Heddle.Merge
