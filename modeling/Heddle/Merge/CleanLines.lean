import Heddle.Merge.LastHunk

namespace Heddle.Merge
open Heddle.Lib Heddle.Lib.Patch List

def changedLines (es : List (RangeEdit Line)) (k : Nat) : List Line := lineLines (fun _ => []) es k

/-- Without a newline, `u` ends what `es` puts in front of a line or in its place, and `v` is the
first line that `fs` inserts behind that line. -/
def Overtakes (len : Nat) (es fs : List (RangeEdit Line)) (u v : Line) : Prop :=
  ¬ Terminated u ∧ ∃ k < len, (gapLines es k ++ changedLines es k).getLast? = some u ∧
    (slots (gapLines fs) (fun _ => []) (k + 1) (len - (k + 1))).head? = some v

theorem changedLines_eq (h : coverOf es k = some e) (line : Nat → List Line) :
    changedLines es k = lineLines line es k := lineLines_of_some h ..

theorem changedLines_sublist (line : Nat → List Line) (es : List (RangeEdit Line)) (k : Nat) :
    List.Sublist (changedLines es k) (lineLines line es k) := by
  cases h : coverOf es k with
  | none =>
    rw [changedLines, lineLines_of_none h]
    exact nil_sublist _
  | some e => rw [changedLines_eq h]

theorem splitLines_seam (hxs : ∀ l ∈ xs, IsLine l ∧ Terminated l) (hu : IsLine u)
    (hopen : ¬ Terminated u) (hys : LinesOnly (v :: ys)) :
    splitLines (xs ++ u :: v :: ys).flatten = xs ++ (u ++ v) :: ys := by
  rw [flatten_append, splitLines_flatten_append hxs, flatten_cons,
    splitLines_glue hu hopen hys.splitLines_flatten]

section Slots
variable {base : List Line} {es fs : List (RangeEdit Line)}

theorem textLine_eq (hk : k < base.length) : textLine base k = [base[k]] := by
  rw [textLine, getElem?_eq_getElem hk]
  rfl

theorem mem_bothGaps (h : l ∈ bothGaps es fs k) : l ∈ gapLines es k ∨ l ∈ gapLines fs k := by
  unfold bothGaps at h
  split at h
  · exact .inr h
  · exact .inl h

theorem bothLines_eq (base : List Line) (h : coverOf es k = none ∨ coverOf fs k = none) :
    bothLines base es fs k = lineLines (textLine base) es k ∨
      bothLines base es fs k = lineLines (textLine base) fs k := by
  rcases h with h | h
  · right
    rw [bothLines_comm (.inl h), bothLines, lineLines_of_none h]
  · left
    rw [bothLines, lineLines_of_none h]

theorem mem_bothSlots (hcommute : Commute es fs base.length) (hm : m ≤ base.length)
    (h : l ∈ slotsBefore (bothGaps es fs) (bothLines base es fs) 0 m) :
    l ∈ slotsBefore (gapLines es) (lineLines (textLine base) es) 0 m ∨
      l ∈ slotsBefore (gapLines fs) (lineLines (textLine base) fs) 0 m := by
  obtain ⟨j, hj, hlt, hl⟩ := mem_slotsBefore h
  rcases hl with hl | hl
  · exact (mem_bothGaps hl).imp (fun hl => mem_slotsBefore_of hj hlt (.inl hl))
      fun hl => mem_slotsBefore_of hj hlt (.inl hl)
  · rcases bothLines_eq base (hcommute.2 j (by omega)) with heq | heq
    · exact .inl (mem_slotsBefore_of hj hlt (.inr (heq ▸ hl)))
    · exact .inr (mem_slotsBefore_of hj hlt (.inr (heq ▸ hl)))

/-- What `es` puts at line `k` in a text whose lines are split: an unterminated line ends the text,
so `es` changes every line from there on. -/
theorem openLine_covers (hours : LinesOnly
      (slots (gapLines es) (lineLines (textLine base) es) 0 base.length))
    (hk : k < base.length) (hopen : ¬ Terminated u)
    (hlast : gapLines es k ++ changedLines es k = ys ++ [u]) :
    (∃ e, coverOf es k = some e) ∧
      (∀ j, k < j → j ≤ base.length → gapLines es j = []) ∧
      (∀ j, k < j → j < base.length → lineLines (textLine base) es j = []) ∧
      ∀ l ∈ slotsBefore (gapLines es) (lineLines (textLine base) es) 0 k ++ ys, Terminated l := by
  rw [slots_split _ _ hk] at hours
  have hcover : ∃ e, coverOf es k = some e := by
    cases hnone : coverOf es k with
    | some e => exact ⟨e, rfl⟩
    | none =>
      rw [changedLines, lineLines_of_none hnone, append_nil] at hlast
      rw [lineLines_of_none hnone, hlast, textLine_eq hk] at hours
      have hbehind : LinesOnly (slotsBefore (gapLines es) (lineLines (textLine base) es) 0 k ++
          (ys ++ [u]) ++ (base[k] :: slots (gapLines es) (lineLines (textLine base) es) (k + 1)
            (base.length - (k + 1)))) := by
        simpa only [append_assoc, cons_append, nil_append] using hours
      exact absurd (hbehind.terminated (cons_ne_nil _ _) u (by simp)) hopen
  obtain ⟨e, he⟩ := hcover
  rw [← changedLines_eq he, hlast] at hours
  have hend : slots (gapLines es) (lineLines (textLine base) es) (k + 1)
      (base.length - (k + 1)) = [] := by
    by_contra hne
    rw [← append_assoc] at hours
    exact hopen (hours.terminated hne u (by simp))
  obtain ⟨hgaps, hlines⟩ := slots_eq_nil hend
  refine ⟨⟨e, he⟩, fun j hj hle => hgaps j hj (by omega), fun j hj hlt => hlines j hj (by omega),
    ?_⟩
  rw [hend, append_nil, ← append_assoc] at hours
  exact hours.terminated (cons_ne_nil _ _)

theorem bothSlots_open (hcommute : Commute es fs base.length)
    (hours : LinesOnly (slots (gapLines es) (lineLines (textLine base) es) 0 base.length))
    (htheirs : LinesOnly (slots (gapLines fs) (lineLines (textLine base) fs) 0 base.length))
    (hk : k < base.length) (hopen : ¬ Terminated u)
    (hlast : (gapLines es k ++ changedLines es k).getLast? = some u) :
    ∃ xs, slots (bothGaps es fs) (bothLines base es fs) 0 base.length =
        xs ++ u :: slots (gapLines fs) (fun _ => []) (k + 1) (base.length - (k + 1)) ∧
      (∀ l ∈ xs, IsLine l ∧ Terminated l) ∧ IsLine u ∧
      LinesOnly (slots (gapLines fs) (fun _ => []) (k + 1) (base.length - (k + 1))) := by
  obtain ⟨ys, hys⟩ := getLast?_eq_some_iff.1 hlast
  obtain ⟨⟨e, he⟩, hgaps, hlines, hbefore⟩ := openLine_covers hours hk hopen hys
  have huncovered : ∀ j, k ≤ j → j < base.length → coverOf fs j = none := by
    intro j hj hlt
    refine (hcommute.2 j hlt).resolve_left fun hnone => ?_
    rcases Nat.lt_or_eq_of_le hj with hj | rfl
    · have hempty := hlines j hj hlt
      rw [lineLines_of_none hnone, textLine_eq hlt] at hempty
      cases hempty
    · rw [he] at hnone
      cases hnone
  have hourAll := hours.1
  have htheirAll := htheirs.1
  rw [slots_split _ _ hk] at hourAll htheirs htheirAll ⊢
  have htheirBefore : ∀ l ∈ slotsBefore (gapLines fs) (lineLines (textLine base) fs) 0 k ++
      gapLines fs k, Terminated l := by
    rw [lineLines_of_none (huncovered k le_rfl hk), textLine_eq hk, append_assoc,
      ← append_assoc] at htheirs
    exact htheirs.terminated (by simp)
  have hafter : slots (bothGaps es fs) (bothLines base es fs) (k + 1) (base.length - (k + 1)) =
      slots (gapLines fs) (fun _ => []) (k + 1) (base.length - (k + 1)) := by
    refine slots_congr (fun j hj hle => ?_) fun j hj hlt => ?_
    · rw [bothGaps, if_pos (hgaps j hj (by omega))]
    · rw [bothLines, lineLines_of_none (huncovered j (by omega) (by omega)), hlines j hj (by omega)]
  have hhere : ∃ zs, bothGaps es fs k ++ bothLines base es fs k = zs ++ [u] ∧
      ∀ l ∈ zs, l ∈ ys ∨ l ∈ gapLines fs k := by
    rw [bothLines, lineLines_of_none (huncovered k le_rfl hk), ← changedLines_eq he, bothGaps]
    split
    · rename_i hgap
      rw [hgap, nil_append] at hys
      exact ⟨gapLines fs k ++ ys, by rw [hys, append_assoc],
        fun l hl => (mem_append.1 hl).symm⟩
    · exact ⟨ys, hys, fun l hl => .inl hl⟩
  obtain ⟨zs, hzs, hmem⟩ := hhere
  have hline : gapLines es k ++ lineLines (textLine base) es k = ys ++ [u] := by
    rw [← changedLines_eq he, hys]
  rw [hline] at hourAll
  refine ⟨slotsBefore (bothGaps es fs) (bothLines base es fs) 0 k ++ zs, ?_, fun l hl => ?_, ?_, ?_⟩
  · rw [hzs, hafter]
    simp only [append_assoc, singleton_append]
  · rcases mem_append.1 hl with hl | hl
    · rcases mem_bothSlots hcommute hk.le hl with hl | hl
      · exact ⟨hourAll l (mem_append_left _ hl), hbefore l (mem_append_left _ hl)⟩
      · exact ⟨htheirAll l (mem_append_left _ hl), htheirBefore l (mem_append_left _ hl)⟩
    · rcases hmem l hl with hl | hl
      · exact ⟨hourAll l (by simp [hl]), hbefore l (mem_append_right _ hl)⟩
      · exact ⟨htheirAll l (by simp [hl]), htheirBefore l (mem_append_right _ hl)⟩
  · exact hourAll u (by simp)
  · exact htheirs.sublist (((slots_sublist ..).trans (sublist_append_right ..)).trans
      (sublist_append_right ..))

theorem terminated_of_notOpen
    (hours : LinesOnly (slots (gapLines es) (lineLines (textLine base) es) 0 base.length))
    (hk : k < base.length)
    (hclosed : ∀ u, (gapLines es k ++ changedLines es k).getLast? = some u → Terminated u)
    (hl : l ∈ gapLines es k ++ changedLines es k) : Terminated l := by
  rw [slots_split _ _ hk] at hours
  have hsub : List.Sublist (gapLines es k ++ changedLines es k)
      (slotsBefore (gapLines es) (lineLines (textLine base) es) 0 k ++
        (gapLines es k ++ lineLines (textLine base) es k ++
          slots (gapLines es) (lineLines (textLine base) es) (k + 1) (base.length - (k + 1)))) :=
    (((List.Sublist.refl _).append (changedLines_sublist ..)).trans
      (sublist_append_left ..)).trans (sublist_append_right ..)
  have hlines := hours.sublist hsub
  rcases eq_nil_or_concat (gapLines es k ++ changedLines es k) with hnil | ⟨ys, u, hys⟩
  · rw [hnil] at hl
    cases hl
  · rw [concat_eq_append] at hys
    rw [hys] at hl hlines
    rcases mem_append.1 hl with hl | hl
    · exact hlines.terminated (cons_ne_nil _ _) l hl
    · obtain rfl := mem_singleton.1 hl
      exact hclosed l (by rw [hys, getLast?_concat])

theorem bothSlots_closed (hbase : LinesOnly base) (hcommute : Commute es fs base.length)
    (hours : LinesOnly (slots (gapLines es) (lineLines (textLine base) es) 0 base.length))
    (htheirs : LinesOnly (slots (gapLines fs) (lineLines (textLine base) fs) 0 base.length))
    (hourClosed : ∀ k < base.length, ∀ u,
      (gapLines es k ++ changedLines es k).getLast? = some u → Terminated u)
    (htheirClosed : ∀ k < base.length, ∀ u,
      (gapLines fs k ++ changedLines fs k).getLast? = some u → Terminated u) :
    LinesOnly (slots (bothGaps es fs) (bothLines base es fs) 0 base.length) := by
  have hgapLines : LinesOnly (bothGaps es fs base.length) := by
    rw [slots_end] at hours htheirs
    unfold bothGaps
    split
    · exact htheirs.sublist (sublist_append_right ..)
    · exact hours.sublist (sublist_append_right ..)
  have hchanged : ∀ k < base.length, ∀ l ∈ bothGaps es fs k, Terminated l := by
    intro k hk l hl
    rcases mem_bothGaps hl with hl | hl
    · exact terminated_of_notOpen hours hk (hourClosed k hk) (mem_append_left _ hl)
    · exact terminated_of_notOpen htheirs hk (htheirClosed k hk) (mem_append_left _ hl)
  have hline : ∀ k < base.length, (∀ l ∈ bothLines base es fs k, Terminated l) ∨
      (coverOf es k = none ∧ coverOf fs k = none ∧ bothLines base es fs k = textLine base k) := by
    intro k hk
    cases hes : coverOf es k with
    | some e =>
      have hfs := (hcommute.2 k hk).resolve_left (by rw [hes]; exact Option.some_ne_none e)
      refine .inl fun l hl => ?_
      rw [bothLines, lineLines_of_none hfs, ← changedLines_eq hes] at hl
      exact terminated_of_notOpen hours hk (hourClosed k hk) (mem_append_right _ hl)
    | none =>
      cases hfs : coverOf fs k with
      | some f =>
        refine .inl fun l hl => ?_
        rw [bothLines, ← changedLines_eq hfs] at hl
        exact terminated_of_notOpen htheirs hk (htheirClosed k hk) (mem_append_right _ hl)
      | none => exact .inr ⟨rfl, rfl, by rw [bothLines, lineLines_of_none hfs, lineLines_of_none hes]⟩
  have hall : ∀ l ∈ slotsBefore (bothGaps es fs) (bothLines base es fs) 0 base.length, IsLine l := by
    intro l hl
    rw [slots_end] at hours htheirs
    rcases mem_bothSlots hcommute le_rfl hl with hl | hl
    · exact hours.1 l (mem_append_left _ hl)
    · exact htheirs.1 l (mem_append_left _ hl)
  rw [slots_end]
  rcases Nat.eq_zero_or_pos base.length with hzero | hpos
  · rw [hzero, slotsBefore, nil_append]
    exact hzero ▸ hgapLines
  · obtain ⟨m, hm⟩ : ∃ m, base.length = m + 1 := ⟨base.length - 1, by omega⟩
    have hsucc : slotsBefore (bothGaps es fs) (bothLines base es fs) 0 base.length =
        slotsBefore (bothGaps es fs) (bothLines base es fs) 0 m ++ bothGaps es fs m ++
          bothLines base es fs m := by
      rw [hm, slotsBefore_succ, Nat.zero_add, append_assoc]
    rw [hsucc] at hall ⊢
    have hbefore : ∀ l ∈ slotsBefore (bothGaps es fs) (bothLines base es fs) 0 m ++
        bothGaps es fs m, Terminated l := by
      intro l hl
      rcases mem_append.1 hl with hl | hl
      · obtain ⟨j, _, hlt, hl | hl⟩ := mem_slotsBefore hl
        · exact hchanged j (by omega) l hl
        · rcases hline j (by omega) with hterm | ⟨_, _, htext⟩
          · exact hterm l hl
          · rw [htext, textLine_eq (by omega : j < base.length)] at hl
            obtain rfl := mem_singleton.1 hl
            exact hbase.splitText j _ (getElem?_eq_getElem (by omega)) (by omega)
      · exact hchanged m (by omega) l hl
    rw [append_assoc]
    refine linesOnly_append (fun l hl => ⟨hall l (mem_append_left _ hl), hbefore l hl⟩) ?_
    rcases hline m (by omega) with hterm | ⟨hes, hfs, htext⟩
    · exact linesOnly_append
        (fun l hl => ⟨hall l (mem_append_right _ hl), hterm l hl⟩) hgapLines
    · have hkept : ∀ {gs : List (RangeEdit Line)}, LinesOnly
            (slots (gapLines gs) (lineLines (textLine base) gs) 0 base.length) →
          coverOf gs m = none → LinesOnly (textLine base m ++ gapLines gs base.length) := by
        intro gs hgs hnone
        rw [slots_end, hm, slotsBefore_succ, Nat.zero_add, lineLines_of_none hnone, ← hm] at hgs
        refine hgs.sublist (List.Sublist.append ?_ (List.Sublist.refl _))
        exact (sublist_append_right ..).trans (sublist_append_right ..)
      rw [htext]
      unfold bothGaps
      split
      · exact hkept htheirs hfs
      · exact hkept hours hes

variable {isInput : Line → Prop}

section
variable (hcommute : Commute es fs base.length)
  (hours : LinesOnly (slots (gapLines es) (lineLines (textLine base) es) 0 base.length))
  (htheirs : LinesOnly (slots (gapLines fs) (lineLines (textLine base) fs) 0 base.length))
include hcommute hours htheirs

theorem glued_of_split
    (h : ∀ l ∈ splitLines (slots (bothGaps es fs) (bothLines base es fs) 0 base.length).flatten,
      isInput l) (hover : Overtakes base.length es fs u v) : isInput (u ++ v) := by
  obtain ⟨hopen, k, hk, hlast, hhead⟩ := hover
  obtain ⟨xs, hslots, hxs, hu, hrest⟩ := bothSlots_open hcommute hours htheirs hk hopen hlast
  obtain ⟨ys, hys⟩ := head?_eq_some_iff.1 hhead
  rw [hys] at hslots hrest
  rw [hslots, splitLines_seam hxs hu hopen hrest] at h
  exact h _ (mem_append_right _ mem_cons_self)

theorem split_of_glued
    (hin : ∀ l ∈ slots (bothGaps es fs) (bothLines base es fs) 0 base.length, isInput l)
    (hk : k < base.length) (hopen : ¬ Terminated u)
    (hlast : (gapLines es k ++ changedLines es k).getLast? = some u)
    (hglued : ∀ v, Overtakes base.length es fs u v → isInput (u ++ v)) :
    ∀ l ∈ splitLines (slots (bothGaps es fs) (bothLines base es fs) 0 base.length).flatten,
      isInput l := by
  obtain ⟨xs, hslots, hxs, hu, hrest⟩ := bothSlots_open hcommute hours htheirs hk hopen hlast
  have hover : ∀ v ys, slots (gapLines fs) (fun _ => []) (k + 1) (base.length - (k + 1)) = v :: ys →
      Overtakes base.length es fs u v := by
    intro v ys hys
    exact ⟨hopen, k, hk, hlast, by rw [hys, head?_cons]⟩
  rw [hslots] at hin ⊢
  cases hys : slots (gapLines fs) (fun _ => []) (k + 1) (base.length - (k + 1)) with
  | nil =>
    rw [hys] at hin
    have hone : LinesOnly [u] := ⟨fun l hl => mem_singleton.1 hl ▸ hu, pairwise_singleton _ _⟩
    rw [(linesOnly_append hxs hone).splitLines_flatten]
    exact hin
  | cons v ys =>
    rw [hys] at hin hrest
    rw [splitLines_seam hxs hu hopen hrest]
    intro l hl
    rcases mem_append.1 hl with hl | hl
    · exact hin l (mem_append_left _ hl)
    · rcases mem_cons.1 hl with rfl | hl
      · exact hglued v (hover v ys hys)
      · exact hin l (mem_append_right _ (.tail _ (.tail _ hl)))

end

theorem composed_iff (hbase : LinesOnly base) (hcommute : Commute es fs base.length)
    (hours : LinesOnly (slots (gapLines es) (lineLines (textLine base) es) 0 base.length))
    (htheirs : LinesOnly (slots (gapLines fs) (lineLines (textLine base) fs) 0 base.length))
    (hin : ∀ l ∈ slots (bothGaps es fs) (bothLines base es fs) 0 base.length, isInput l) :
    (∀ l ∈ splitLines (slots (bothGaps es fs) (bothLines base es fs) 0 base.length).flatten,
      isInput l) ↔
        ∀ u v, Overtakes base.length es fs u v ∨ Overtakes base.length fs es u v →
          isInput (u ++ v) := by
  have hswap := slots_both_comm hcommute
  constructor
  · intro h u v hover
    rcases hover with hover | hover
    · exact glued_of_split hcommute hours htheirs h hover
    · rw [hswap] at h
      exact glued_of_split hcommute.symm htheirs hours h hover
  · intro h
    by_cases hour : ∃ k < base.length, ∃ u,
        (gapLines es k ++ changedLines es k).getLast? = some u ∧ ¬ Terminated u
    · obtain ⟨k, hk, u, hlast, hopen⟩ := hour
      exact split_of_glued hcommute hours htheirs hin hk hopen hlast fun v hv => h u v (.inl hv)
    · by_cases htheir : ∃ k < base.length, ∃ u,
          (gapLines fs k ++ changedLines fs k).getLast? = some u ∧ ¬ Terminated u
      · obtain ⟨k, hk, u, hlast, hopen⟩ := htheir
        rw [hswap] at hin ⊢
        exact split_of_glued hcommute.symm htheirs hours hin hk hopen hlast
          fun v hv => h u v (.inr hv)
      · push Not at hour htheir
        rw [(bothSlots_closed hbase hcommute hours htheirs hour htheir).splitLines_flatten]
        exact hin

end Slots

section Clean
variable (captureDiffSlices : List Line → List Line → List DiffOp)

/-- Where both sides change a hunk, no line of one that lacks its newline is followed by a line of
the other, unless the two together are a line of the texts: not in the composition of edits that
commute, and not where two insertions are put behind each other. -/
def SeamSound (isInput : Line → Prop) (base ours theirs : List Line) : Prop :=
  ours ≠ base → theirs ≠ base → ours ≠ theirs → compareTrailingWs ours theirs = none →
    let es := editsOf ours (captureDiffSlices base ours)
    let fs := editsOf theirs (captureDiffSlices base theirs)
    (Commute es fs base.length → ∀ u v,
      Overtakes base.length es fs u v ∨ Overtakes base.length fs es u v → isInput (u ++ v)) ∧
    (¬ Commute es fs base.length → ∀ u v, ours.getLast? = some u → theirs.head? = some v →
      ¬ Terminated u → isInput (u ++ v))

variable {captureDiffSlices}

theorem appended_iff {isInput : Line → Prop} (hours : LinesOnly ours) (htheirs : LinesOnly theirs)
    (hin : ∀ l ∈ ours ++ theirs, isInput l) (hne : ours ≠ []) (hne' : theirs ≠ []) :
    (∀ l ∈ splitLines (ours ++ theirs).flatten, isInput l) ↔
      ∀ u v, ours.getLast? = some u → theirs.head? = some v → ¬ Terminated u → isInput (u ++ v) := by
  obtain ⟨v, vs, rfl⟩ := exists_cons_of_ne_nil hne'
  obtain ⟨us, u, rfl⟩ := (eq_nil_or_concat ours).resolve_left hne
  rw [concat_eq_append] at hours hin ⊢
  have hus : ∀ l ∈ us, IsLine l ∧ Terminated l := fun l hl =>
    ⟨hours.1 l (mem_append_left _ hl), hours.terminated (cons_ne_nil _ _) l hl⟩
  have hu : IsLine u := hours.1 u (mem_append_right _ mem_cons_self)
  simp only [getLast?_concat, head?_cons, Option.some.injEq, append_assoc,
    singleton_append] at hin ⊢
  by_cases hopen : Terminated u
  · have hall : LinesOnly (us ++ ([u] ++ v :: vs)) := by
      refine linesOnly_append hus (linesOnly_append (fun l hl => ?_) htheirs)
      obtain rfl := mem_singleton.1 hl
      exact ⟨hu, hopen⟩
    rw [singleton_append] at hall
    rw [hall.splitLines_flatten]
    refine ⟨fun _ u' v' hu' _ hopen' => ?_, fun _ => hin⟩
    rw [← hu'] at hopen'
    exact absurd hopen hopen'
  · rw [splitLines_seam hus hu hopen htheirs]
    constructor
    · rintro h u' v' rfl rfl _
      exact h _ (mem_append_right _ mem_cons_self)
    · intro h l hl
      rcases mem_append.1 hl with hl | hl
      · exact hin l (mem_append_left _ hl)
      · rcases mem_cons.1 hl with rfl | hl
        · exact h u v rfl rfl hopen
        · exact hin l (mem_append_right _ (.tail _ (.tail _ hl)))

/-- A hunk at the end of the texts that is resolved invents no line exactly if its seams are sound. -/
theorem resolveHunk_lines_iff (hv : ∀ old new, ValidScript old new (captureDiffSlices old new))
    (hbase : LinesOnly base) (hours : LinesOnly ours) (htheirs : LinesOnly theirs)
    (hin : ∀ l, FromTexts base ours theirs l → isInput l)
    (h : resolveHunk captureDiffSlices base ours theirs = some added) :
    (∀ l ∈ splitLines added, isInput l) ↔ SeamSound captureDiffSlices isInput base ours theirs := by
  have hourLines : ∀ l ∈ splitLines ours.flatten, isInput l := by
    rw [hours.splitLines_flatten]
    exact fun l hl => hin l (.inr (.inl hl))
  have htheirLines : ∀ l ∈ splitLines theirs.flatten, isInput l := by
    rw [htheirs.splitLines_flatten]
    exact fun l hl => hin l (.inr (.inr hl))
  unfold resolveHunk at h
  split at h
  · rename_i hsame
    cases h
    exact ⟨fun _ hne => absurd hsame hne, fun _ => htheirLines⟩
  · split at h
    · rename_i hsame
      cases h
      refine ⟨fun _ _ hne hne' => ?_, fun _ => hourLines⟩
      exact absurd hsame (not_or.2 ⟨hne, hne'⟩)
    · rename_i hours' hsame
      obtain ⟨htheirs', hboth⟩ := not_or.1 hsame
      split at h
      · rename_i clean hclean
        cases h
        refine ⟨fun _ _ _ _ hnone => ?_, fun _ => ?_⟩
        · rw [hclean] at hnone
          cases hnone
        · rcases compareTrailingWs_eq hclean with rfl | rfl
          · exact hourLines
          · exact htheirLines
      · rename_i hws
        have hseam : SeamSound captureDiffSlices isInput base ours theirs ↔ _ :=
          ⟨fun hsound => hsound hours' htheirs' hboth hws, fun hsound _ _ _ _ => hsound⟩
        rw [hseam]
        split at h
        · rename_i composed hcomposed
          cases h
          obtain ⟨hcommute, rfl⟩ := (composeDisjoint_eq_some_iff (hv _ _) (hv _ _)).1 hcomposed
          have hourText := patch_editsOf (hv base ours)
          have htheirText := patch_editsOf (hv base theirs)
          rw [patch_eq_slots base (hv base ours).edits.1] at hourText
          rw [patch_eq_slots base (hv base theirs).edits.1] at htheirText
          rw [composed_iff hbase hcommute (by rwa [hourText]) (by rwa [htheirText]) fun l hl => ?_]
          · exact ⟨fun h => ⟨fun _ => h, fun hnot => absurd hcommute hnot⟩, fun h => h.1 hcommute⟩
          · obtain ⟨j, hl | hl⟩ := mem_slots hl
            · rcases mem_bothGaps hl with hl | hl
              · exact hin l (.inr (.inl (mem_of_mem_gapLines hl)))
              · exact hin l (.inr (.inr (mem_of_mem_gapLines hl)))
            · rcases mem_of_mem_lineLines hl with hl | hl
              · exact hin l (.inr (.inr hl))
              · rcases mem_of_mem_lineLines hl with hl | hl
                · exact hin l (.inr (.inl hl))
                · exact hin l (.inl (mem_of_mem_textLine hl))
        · rename_i hcomposed
          split at h
          · rename_i hempty
            obtain ⟨_, hne, hne'⟩ := hempty
            rw [List.isEmpty_iff] at hne hne'
            cases h
            have hnot : ¬ Commute (editsOf ours (captureDiffSlices base ours))
                (editsOf theirs (captureDiffSlices base theirs)) base.length := by
              intro hcommute
              have hsome := (composeDisjoint_eq_some_iff (hv base ours) (hv base theirs)).2
                ⟨hcommute, rfl⟩
              rw [hsome] at hcomposed
              cases hcomposed
            rw [← flatten_append, appended_iff hours htheirs (fun l hl => ?_) hne hne']
            · exact ⟨fun h => ⟨fun hcommute => absurd hcommute hnot, fun _ => h⟩, fun h => h.2 hnot⟩
            · rcases mem_append.1 hl with hl | hl
              · exact hin l (.inr (.inl hl))
              · exact hin l (.inr (.inr hl))
          · cases h

def IsInput (base ours theirs : List Line) (l : Line) : Prop :=
  ∃ m, FromTexts base ours theirs m ∧ (l = m ∨ l = m ++ [newline] ∨ l ++ [newline] = m)

def lastHunk (captureDiffSlices : List Line → List Line → List DiffOp)
    (base ours theirs : List Line) : List Line × List Line × List Line :=
  let (i, o, t) := behindKept (buildAlignment captureDiffSlices base ours)
    (buildAlignment captureDiffSlices base theirs) base.length
  (base.drop i, ours.drop o, theirs.drop t)

/-- A clean merge invents no line exactly if the seams of its last hunk are sound: in front of the
last hunk every line is terminated, and in it only an unterminated line can be glued to another. -/
theorem textHunkMerge_lines (captureDiffSlices : List Line → List Line → List DiffOp)
    (base ours theirs out : Bytes)
    (hv : ∀ old new, ValidScript old new (captureDiffSlices old new))
    (h : textHunkMerge captureDiffSlices base ours theirs = .clean out) :
    let input := IsInput (splitLines base) (splitLines ours) (splitLines theirs)
    let hunk := lastHunk captureDiffSlices (splitLines base) (splitLines ours) (splitLines theirs)
    (∀ l ∈ splitLines out, input l) ↔ (base ≠ ours → base ≠ theirs → ours ≠ theirs →
      SeamSound captureDiffSlices input hunk.1 hunk.2.1 hunk.2.2) := by
  intro input hunk
  have hfrom : ∀ l, FromTexts (splitLines base) (splitLines ours) (splitLines theirs) l → input l :=
    fun l hl => ⟨l, hl, .inl rfl⟩
  unfold textHunkMerge textHunkMergeWithMarkers at h
  split at h
  · cases h
  · unfold Diff3.run at h
    split at h
    · rename_i hsame
      cases h
      exact ⟨fun _ hne => absurd hsame.1 hne, fun _ l hl => hfrom l (.inl hl)⟩
    · split at h
      · rename_i hsame
        cases h
        exact ⟨fun _ hne => absurd hsame hne, fun _ l hl => hfrom l (.inr (.inr hl))⟩
      · split at h
        · rename_i hsame
          cases h
          exact ⟨fun _ _ hne => absurd hsame hne, fun _ l hl => hfrom l (.inr (.inl hl))⟩
        · split at h
          · rename_i hsame
            cases h
            exact ⟨fun _ _ _ hne => absurd hsame hne, fun _ l hl => hfrom l (.inr (.inl hl))⟩
          · rename_i _ hne hne' hboth
            obtain ⟨_, _, hor⟩ := buildAlignment_rising (hv (splitLines base) (splitLines ours))
            obtain ⟨_, _, htr⟩ := buildAlignment_rising (hv (splitLines base) (splitLines theirs))
            have hend : WalkEnd captureDiffSlices (splitLines base) (splitLines ours)
                (splitLines theirs) _ _ (walkTexts captureDiffSlices base ours theirs .default) :=
              walk_end hv (splitLines_linesOnly base) (splitLines_linesOnly ours)
                (splitLines_linesOnly theirs) (buildAlignment_aligned (hv _ _))
                (buildAlignment_aligned (hv _ _)) hor htr
            unfold WalkState.outcome at h
            split at h
            · rename_i hregions
              cases h
              obtain ⟨before, added, houtput, hbefore, htail⟩ :=
                hend.tail (isEmpty_iff.1 hregions)
              have hsub : ∀ l, FromTexts hunk.1 hunk.2.1 hunk.2.2 l → input l := fun l hl =>
                hfrom l (hl.imp mem_of_mem_drop (.imp mem_of_mem_drop mem_of_mem_drop))
              have hlines := resolveHunk_lines_iff hv
                ((splitLines_linesOnly base).sublist (drop_sublist ..))
                ((splitLines_linesOnly ours).sublist (drop_sublist ..))
                ((splitLines_linesOnly theirs).sublist (drop_sublist ..)) hsub htail
              rw [houtput]
              constructor
              · intro hall _ _ _
                exact hlines.1 fun l hl => hall l (mem_append_right _ hl)
              · intro hsound l hl
                rcases mem_append.1 hl with hl | hl
                · exact hfrom l (hbefore l hl)
                · exact hlines.2 (hsound hne hne' hboth) l hl
            · cases h

end Clean

theorem textHunkMerge_lines_appended :
    IsInput (splitLines []) (splitLines (utf8 "a\n")) (splitLines (utf8 "b\n")) (utf8 "a\n") ∧
      IsInput (splitLines []) (splitLines (utf8 "a\n")) (splitLines (utf8 "b\n")) (utf8 "b\n") := by
  have hlines : ∀ l ∈ splitLines (utf8 "a\nb\n"),
      IsInput (splitLines []) (splitLines (utf8 "a\n")) (splitLines (utf8 "b\n")) l := by
    apply (textHunkMerge_lines wholeDiff [] (utf8 "a\n") (utf8 "b\n") _ wholeDiff_valid
      (by decide)).2
    intro _ _ _ _ _ _ _
    constructor
    · intro hcommute
      exact absurd (hcommute.1 0 (Nat.zero_le _)) (by decide)
    · intro _ u v hu _ hopen
      obtain rfl : utf8 "a\n" = u := Option.some.inj hu
      exact absurd (by decide) hopen
  exact ⟨hlines _ (by decide), hlines _ (by decide)⟩

/-- Two insertions at the end of a text, neither with a newline, are put into one line. -/
theorem textHunkMerge_glued :
    ¬ ∀ (captureDiffSlices : List Line → List Line → List DiffOp) (base ours theirs out : Bytes),
      (∀ old new, ValidScript old new (captureDiffSlices old new)) →
      textHunkMerge captureDiffSlices base ours theirs = .clean out →
      ∀ l ∈ splitLines out, IsInput (splitLines base) (splitLines ours) (splitLines theirs) l := by
  intro h
  have hline := h wholeDiff [] (utf8 "a") (utf8 "b") (utf8 "ab") wholeDiff_valid (by decide)
    (utf8 "ab") (by decide)
  obtain ⟨m, hm, heq⟩ := hline
  have htexts : m = utf8 "a" ∨ m = utf8 "b" := by
    rcases hm with hm | hm | hm
    · cases hm
    · exact .inl (mem_singleton.1 hm)
    · exact .inr (mem_singleton.1 hm)
  rcases htexts with rfl | rfl
  all_goals
    revert heq
    decide

end Heddle.Merge
