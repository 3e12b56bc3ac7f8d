import Heddle.Merge.Slots
import Heddle.Merge.Diff3Partition

namespace Heddle.Merge
open Heddle.Lib Heddle.Lib.Patch List Option

def IsLine (l : Line) : Prop := splitLines l = [l]

theorem isLine_of_mem_splitLines (h : l ∈ splitLines bytes) : IsLine l := by
  induction bytes generalizing l with
  | nil => cases h
  | cons b rest ih =>
    simp only [splitLines] at h
    split at h
    · rename_i hb
      rcases mem_cons.1 h with rfl | h
      · subst hb
        rfl
      · exact ih h
    · rename_i hb
      split at h
      · obtain rfl := mem_singleton.1 h
        rw [IsLine, splitLines, if_neg hb]
        rfl
      · rename_i line lines hlines
        rw [hlines] at ih
        rcases mem_cons.1 h with rfl | h
        · have hline : splitLines line = [line] := ih mem_cons_self
          rw [IsLine, splitLines, if_neg hb, hline]
        · exact ih (.tail _ h)

theorem splitLines_glue (hline : IsLine u) (hopen : ¬ Terminated u)
    (hrest : splitLines rest = v :: vs) : splitLines (u ++ rest) = (u ++ v) :: vs := by
  induction u with
  | nil => exact hrest
  | cons b u ih =>
    have hb : b ≠ newline := by
      rintro rfl
      rw [IsLine, splitLines, if_pos rfl] at hline
      obtain ⟨hhead, _⟩ := List.cons.inj hline
      exact hopen ⟨[], hhead.symm⟩
    cases u with
    | nil => rw [singleton_append, splitLines, if_neg hb, hrest, singleton_append]
    | cons c u =>
      have htail : IsLine (c :: u) := by
        rw [IsLine, splitLines, if_neg hb] at hline
        cases hsplit : splitLines (c :: u) with
        | nil =>
          have hflat := splitLines_flatten (c :: u)
          rw [hsplit] at hflat
          cases hflat
        | cons line lines =>
          rw [hsplit] at hline
          simp only [List.cons.injEq, true_and] at hline
          rw [IsLine, hsplit, hline.1, hline.2]
      have hopen' : ¬ Terminated (c :: u) := fun h => hopen (h.append [b])
      rw [cons_append, splitLines, if_neg hb, ih htail hopen']
      rfl

def LinesOnly (lines : List Line) : Prop :=
  (∀ l ∈ lines, IsLine l) ∧ lines.Pairwise fun l _ => Terminated l

theorem splitLines_linesOnly (bytes : Bytes) : LinesOnly (splitLines bytes) := by
  refine ⟨fun l hl => isLine_of_mem_splitLines hl, pairwise_iff_getElem.2 ?_⟩
  intro i j hi hj hlt
  exact splitLines_terminated (getElem?_eq_getElem hi) (by omega)

theorem LinesOnly.splitText (h : LinesOnly lines) : SplitText lines := by
  intro k l hl hk
  obtain ⟨hlt, rfl⟩ := List.getElem?_eq_some_iff.1 hl
  exact pairwise_iff_getElem.1 h.2 k (k + 1) hlt hk (Nat.lt_succ_self k)

theorem LinesOnly.sublist (h : LinesOnly lines) (hsub : List.Sublist part lines) :
    LinesOnly part :=
  ⟨fun l hl => h.1 l (hsub.subset hl), h.2.sublist hsub⟩

theorem LinesOnly.terminated (h : LinesOnly (xs ++ ys)) (hne : ys ≠ []) :
    ∀ l ∈ xs, Terminated l := by
  obtain ⟨y, ys, rfl⟩ := exists_cons_of_ne_nil hne
  intro l hl
  exact (pairwise_append.1 h.2).2.2 l hl y mem_cons_self

theorem linesOnly_append (hxs : ∀ l ∈ xs, IsLine l ∧ Terminated l) (hys : LinesOnly ys) :
    LinesOnly (xs ++ ys) := by
  refine ⟨fun l hl => ?_, pairwise_append.2 ⟨?_, hys.2, fun l hl _ _ => (hxs l hl).2⟩⟩
  · rcases mem_append.1 hl with hl | hl
    · exact (hxs l hl).1
    · exact hys.1 l hl
  · exact pairwise_of_forall_mem_list fun l hl _ _ => (hxs l hl).2

theorem splitLines_flatten_append (hxs : ∀ l ∈ xs, IsLine l ∧ Terminated l) (rest : Bytes) :
    splitLines (xs.flatten ++ rest) = xs ++ splitLines rest := by
  induction xs with
  | nil => rfl
  | cons x xs ih =>
    obtain ⟨⟨hx, hterm⟩, hxs⟩ := forall_mem_cons.1 hxs
    have hline : splitLines x = [x] := hx
    rw [flatten_cons, append_assoc, splitLines_append hterm.closed, hline, ih hxs]
    rfl

theorem LinesOnly.splitLines_flatten (h : LinesOnly lines) : splitLines lines.flatten = lines := by
  induction lines with
  | nil => rfl
  | cons l lines ih =>
    have hline : splitLines l = [l] := h.1 l mem_cons_self
    cases lines with
    | nil => rw [flatten_cons, flatten_nil, append_nil, hline]
    | cons m lines =>
      have hterm : Terminated l := (pairwise_cons.1 h.2).1 m mem_cons_self
      rw [flatten_cons, splitLines_append hterm.closed, hline,
        ih (h.sublist (sublist_cons_self ..))]
      rfl

section Alignment

structure Rising (align : List (Option Nat)) (i j : Nat) : Prop where
  below : ∀ k m, align.getD k none = some m → k < i ∧ m < j
  mono : ∀ k k' m m', align.getD k none = some m → align.getD k' none = some m' → k < k' → m < m'

theorem getD_alignOp (align : List (Option Nat)) (i j len k : Nat) :
    (alignOp align (.equal i j len)).getD k none =
      if i ≤ k ∧ k < i + len ∧ k < align.length then some (j + (k - i)) else align.getD k none := by
  have hlength : ∀ n, ((List.range n).foldl (fun align k => align.set (i + k) (some (j + k)))
      align).length = align.length := by
    intro n
    induction n with
    | zero => rfl
    | succ n ih =>
      rw [range_succ, foldl_append, foldl_cons, foldl_nil, length_set, ih]
  rw [alignOp]
  induction len with
  | zero => rw [range_zero, foldl_nil, if_neg (by omega)]
  | succ len ih =>
    rw [range_succ, foldl_append, foldl_cons, foldl_nil, getD_set, ih, hlength]
    by_cases h : i + len = k ∧ k < align.length
    · rw [if_pos h, if_pos (by omega), ← h.1, Nat.add_sub_cancel_left]
    · rw [if_neg h]
      by_cases h' : i ≤ k ∧ k < i + len ∧ k < align.length
      · rw [if_pos h', if_pos (by omega)]
      · rw [if_neg h', if_neg (by omega)]

theorem Rising.le (h : Rising align i j) (hi : i ≤ i') (hj : j ≤ j') : Rising align i' j' :=
  ⟨fun k m hk => ⟨(h.below k m hk).1.trans_le hi, (h.below k m hk).2.trans_le hj⟩, h.mono⟩

theorem Rising.alignOp_equal (h : Rising align i j) (len : Nat) :
    Rising (alignOp align (.equal i j len)) (i + len) (j + len) := by
  have hget : ∀ k m, (alignOp align (.equal i j len)).getD k none = some m →
      (i ≤ k ∧ k < i + len ∧ m = j + (k - i)) ∨ (align.getD k none = some m ∧ k < i ∧ m < j) := by
    intro k m hk
    rw [getD_alignOp] at hk
    split at hk
    · rename_i hrange
      exact .inl ⟨hrange.1, hrange.2.1, (some.inj hk).symm⟩
    · exact .inr ⟨hk, h.below k m hk⟩
  constructor
  · intro k m hk
    rcases hget k m hk with ⟨_, _, rfl⟩ | ⟨_, _, _⟩ <;> omega
  · intro k k' m m' hk hk' hlt
    rcases hget k m hk with ⟨_, _, rfl⟩ | ⟨hold, _, _⟩
    · rcases hget k' m' hk' with ⟨_, _, rfl⟩ | ⟨_, _, _⟩ <;> omega
    · rcases hget k' m' hk' with ⟨_, _, rfl⟩ | ⟨hold', _, _⟩
      · omega
      · exact h.mono k k' m m' hold hold' hlt

theorem rising_foldl (h : Rising align i j) (hvalid : ValidFrom base other i j ops) :
    ∃ i' j', Rising (ops.foldl alignOp align) i' j' := by
  induction ops generalizing i j align with
  | nil => exact ⟨i, j, h⟩
  | cons op ops ih =>
    cases op with
    | equal o n len =>
      obtain ⟨rfl, rfl, _, hrest⟩ := hvalid
      exact ih (h.alignOp_equal len) hrest
    | delete o len n => exact ih (h.le (Nat.le_add_right ..) le_rfl) hvalid.2.2.2
    | insert o n len => exact ih (h.le le_rfl (Nat.le_add_right ..)) hvalid.2.2.2
    | replace o len n len' =>
      exact ih (h.le (Nat.le_add_right ..) (Nat.le_add_right ..)) hvalid.2.2.2.2.2.2

theorem buildAlignment_rising (hvalid : ValidScript base other (captureDiffSlices base other)) :
    ∃ i j, Rising (buildAlignment captureDiffSlices base other) i j := by
  refine rising_foldl (i := 0) (j := 0) ⟨fun k m hk => ?_, fun k k' m m' hk => ?_⟩ hvalid
  all_goals
    rw [getD_eq_getElem?_getD, getElem?_replicate] at hk
    split at hk <;> cases hk

end Alignment

section Tail
variable (ourAlign theirAlign : List (Option Nat))

def keptByBoth (k : Nat) : Option (Nat × Nat) :=
  match ourAlign.getD k none, theirAlign.getD k none with
  | some o, some t => some (o, t)
  | _, _ => none

def behindKept : Nat → Nat × Nat × Nat
  | 0 => (0, 0, 0)
  | k + 1 =>
    match keptByBoth ourAlign theirAlign k with
    | some (o, t) => (k + 1, o + 1, t + 1)
    | none => behindKept k

variable {ourAlign theirAlign}

theorem keptByBoth_eq_some : keptByBoth ourAlign theirAlign k = some (o, t) ↔
    ourAlign.getD k none = some o ∧ theirAlign.getD k none = some t := by
  unfold keptByBoth
  split
  · rename_i ho ht
    rw [ho, ht]
    simp
  · rename_i hnone
    constructor
    · intro h
      cases h
    · rintro ⟨ho, ht⟩
      exact (hnone o t ho ht).elim

theorem behindKept_le (hour : Rising ourAlign i j) (htheir : Rising theirAlign i' j')
    (hk : k ≤ k') (hkept : keptByBoth ourAlign theirAlign k' = some (o, t)) :
    (behindKept ourAlign theirAlign k).2.1 ≤ o ∧ (behindKept ourAlign theirAlign k).2.2 ≤ t := by
  obtain ⟨ho, ht⟩ := keptByBoth_eq_some.1 hkept
  induction k with
  | zero => exact ⟨Nat.zero_le _, Nat.zero_le _⟩
  | succ k ih =>
    rw [behindKept]
    split
    · rename_i o' t' hbefore
      obtain ⟨ho', ht'⟩ := keptByBoth_eq_some.1 hbefore
      exact ⟨hour.mono k k' o' o ho' ho hk, htheir.mono k k' t' t ht' ht hk⟩
    · exact ih (by omega)

theorem behindKept_eq (hle : k ≤ k')
    (hnone : ∀ j, k ≤ j → j < k' → keptByBoth ourAlign theirAlign j = none) :
    behindKept ourAlign theirAlign k' = behindKept ourAlign theirAlign k := by
  induction k' with
  | zero =>
    obtain rfl : k = 0 := by omega
    rfl
  | succ k' ih =>
    rcases Nat.le_succ_iff.1 hle with hle | rfl
    · rw [behindKept, hnone k' hle (Nat.lt_succ_self k'), ih hle fun j hj hlt => hnone j hj (by omega)]
    · rfl

theorem scanHunk_none (hahead : ∀ k o t, j ≤ k → keptByBoth ourAlign theirAlign k = some (o, t) →
      ourPos ≤ o ∧ theirPos ≤ t)
    (h : scanHunk ourAlign theirAlign ourLen theirLen ourPos theirPos left j = (j + left, o', t')) :
    ∀ k, j ≤ k → k < j + left → keptByBoth ourAlign theirAlign k = none := by
  induction left generalizing j with
  | zero =>
    intro k hj hk
    omega
  | succ left ih =>
    intro k hj hk
    have hnone : keptByBoth ourAlign theirAlign j = none := by
      cases hkept : keptByBoth ourAlign theirAlign j with
      | none => rfl
      | some p =>
        obtain ⟨o, t⟩ := p
        obtain ⟨ho, ht⟩ := keptByBoth_eq_some.1 hkept
        have hstop : scanHunk ourAlign theirAlign ourLen theirLen ourPos theirPos (left + 1) j =
            (j, o, t) := by
          rw [scanHunk, ho, ht]
          exact if_pos (hahead j o t le_rfl hkept)
        rw [hstop] at h
        have hj' := congrArg Prod.fst h
        dsimp only at hj'
        omega
    have hskip : scanHunk ourAlign theirAlign ourLen theirLen ourPos theirPos (left + 1) j =
        scanHunk ourAlign theirAlign ourLen theirLen ourPos theirPos left (j + 1) := by
      rw [scanHunk]
      split
      · rename_i o t ho ht
        rw [keptByBoth_eq_some.2 ⟨ho, ht⟩] at hnone
        cases hnone
      · rfl
    rw [hskip, show j + (left + 1) = j + 1 + left by omega] at h
    rcases Nat.lt_or_eq_of_le hj with hj | rfl
    · exact ih (fun k o t hk => hahead k o t (by omega)) h k hj (by omega)
    · exact hnone

end Tail

def FromTexts (base ours theirs : List Line) (l : Line) : Prop := l ∈ base ∨ l ∈ ours ∨ l ∈ theirs

theorem mem_of_mem_editsOf (he : e ∈ editsOf side ops) (hl : l ∈ e.lines) : l ∈ side := by
  obtain ⟨op, _, hop⟩ := mem_filterMap.1 he
  have hslice : ∀ n len, l ∈ (side.drop n).take len → l ∈ side := fun n len h =>
    mem_of_mem_drop (mem_of_mem_take h)
  cases op with
  | equal => cases hop
  | delete =>
    cases hop
    cases hl
  | insert o n len =>
    cases hop
    exact hslice n len hl
  | replace o len n len' =>
    cases hop
    exact hslice n len' hl

theorem mem_slots (h : l ∈ slots gap line k n) :
    ∃ j, l ∈ gap j ∨ l ∈ line j := by
  induction n generalizing k with
  | zero => exact ⟨k, .inl h⟩
  | succ n ih =>
    rw [slots] at h
    rcases mem_append.1 h with h | h
    · exact ⟨k, mem_append.1 h⟩
    · exact ih h

theorem mem_of_mem_gapLines (h : l ∈ gapLines (editsOf side ops) k) : l ∈ side := by
  obtain ⟨e, he, hl⟩ := mem_flatMap.1 h
  exact mem_of_mem_editsOf (mem_filter.1 he).1 hl

theorem mem_of_mem_lineLines (h : l ∈ lineLines line (editsOf side ops) k) :
    l ∈ side ∨ l ∈ line k := by
  cases hcover : coverOf (editsOf side ops) k with
  | none =>
    rw [lineLines_of_none hcover] at h
    exact .inr h
  | some e =>
    rw [lineLines, hcover] at h
    dsimp only at h
    split at h
    · exact .inl (mem_of_mem_editsOf (mem_of_find?_eq_some hcover) h)
    · cases h

theorem mem_of_mem_textLine (h : l ∈ textLine text k) : l ∈ text :=
  mem_of_getElem? (mem_toList.1 h)

section Walk
variable {captureDiffSlices : List Line → List Line → List DiffOp} {markers : ConflictMarkers}

theorem resolveHunk_pieces
    (hours : ValidScript base ours (captureDiffSlices base ours))
    (htheirs : ValidScript base theirs (captureDiffSlices base theirs))
    (h : resolveHunk captureDiffSlices base ours theirs = some added) :
    ∃ lines : List Line, added = lines.flatten ∧ ∀ l ∈ lines, FromTexts base ours theirs l := by
  unfold resolveHunk at h
  split at h
  · exact ⟨theirs, (some.inj h).symm, fun l hl => .inr (.inr hl)⟩
  · split at h
    · exact ⟨ours, (some.inj h).symm, fun l hl => .inr (.inl hl)⟩
    · split at h
      · rename_i clean hclean
        refine ⟨clean, (some.inj h).symm, fun l hl => ?_⟩
        rcases compareTrailingWs_eq hclean with rfl | rfl
        · exact .inr (.inl hl)
        · exact .inr (.inr hl)
      · split at h
        · rename_i composed hcomposed
          obtain ⟨_, rfl⟩ := (composeDisjoint_eq_some_iff hours htheirs).1 hcomposed
          refine ⟨_, (some.inj h).symm, fun l hl => ?_⟩
          obtain ⟨j, hgap | hline⟩ := mem_slots hl
          · unfold bothGaps at hgap
            split at hgap
            · exact .inr (.inr (mem_of_mem_gapLines hgap))
            · exact .inr (.inl (mem_of_mem_gapLines hgap))
          · rcases mem_of_mem_lineLines hline with hline | hline
            · exact .inr (.inr hline)
            · rcases mem_of_mem_lineLines hline with hline | hline
              · exact .inr (.inl hline)
              · exact .inl (mem_of_mem_textLine hline)
        · split at h
          · refine ⟨ours ++ theirs, by rw [flatten_append, some.inj h], fun l hl => ?_⟩
            rcases mem_append.1 hl with hl | hl
            · exact .inr (.inl hl)
            · exact .inr (.inr hl)
          · cases h

variable {base ours theirs : List Line} {ourAlign theirAlign : List (Option Nat)}

theorem hunkStep_clean
    (h : (hunkStep captureDiffSlices markers base ours theirs st j o t).regions = []) :
    st.regions = [] ∧ ∃ added, resolveHunk captureDiffSlices (Range.slice ⟨st.i, j⟩ base)
        (Range.slice ⟨st.ourPos, o⟩ ours) (Range.slice ⟨st.theirPos, t⟩ theirs) = some added ∧
      (hunkStep captureDiffSlices markers base ours theirs st j o t).output = st.output ++ added := by
  simp only [hunkStep, emitHunk_eq] at h ⊢
  cases hadded : resolveHunk captureDiffSlices (Range.slice ⟨st.i, j⟩ base)
      (Range.slice ⟨st.ourPos, o⟩ ours) (Range.slice ⟨st.theirPos, t⟩ theirs) with
  | some added =>
    rw [hadded] at h
    exact ⟨h, added, rfl, rfl⟩
  | none =>
    rw [hadded] at h
    exact absurd h (by simp)

/-- A walk that has met no conflict has only put out lines of the three texts, and stands behind a
line that both sides keep, or in front of one. -/
structure KeptInv (base ours theirs : List Line) (ourAlign theirAlign : List (Option Nat))
    (st : WalkState) : Prop where
  lines : st.regions = [] → ∀ l ∈ splitLines st.output, FromTexts base ours theirs l
  place : (st.i, st.ourPos, st.theirPos) = behindKept ourAlign theirAlign st.i ∨
    isStable ourAlign theirAlign st = true

/-- A walk at its end: without conflict, it has resolved what lies behind the last kept line. -/
structure WalkEnd (captureDiffSlices : List Line → List Line → List DiffOp)
    (base ours theirs : List Line) (ourAlign theirAlign : List (Option Nat)) (st : WalkState) :
    Prop where
  ourEnd : ours.length ≤ st.ourPos
  theirEnd : theirs.length ≤ st.theirPos
  tail : st.regions = [] → ∃ before added, splitLines st.output = before ++ splitLines added ∧
    (∀ l ∈ before, FromTexts base ours theirs l) ∧
    let (i, o, t) := behindKept ourAlign theirAlign base.length
    resolveHunk captureDiffSlices (base.drop i) (ours.drop o) (theirs.drop t) = some added

theorem slice_length (xs : List α) (i : Nat) : Range.slice ⟨i, xs.length⟩ xs = xs.drop i := by
  rw [Range.slice, take_length]

theorem walkEnd_of_hunk (hinv : KeptInv base ours theirs ourAlign theirAlign st)
    (hclosed : Closed st.output)
    (hplace : (st.i, st.ourPos, st.theirPos) = behindKept ourAlign theirAlign base.length) :
    WalkEnd captureDiffSlices base ours theirs ourAlign theirAlign
      (hunkStep captureDiffSlices markers base ours theirs st base.length ours.length
        theirs.length) := by
  refine ⟨le_rfl, le_rfl, fun hregions => ?_⟩
  obtain ⟨hbefore, added, hadded, houtput⟩ := hunkStep_clean hregions
  refine ⟨splitLines st.output, added, ?_, hinv.lines hbefore, ?_⟩
  · rw [houtput, splitLines_append hclosed]
  · simp only [slice_length] at hadded
    rw [← hplace]
    exact hadded

theorem stableStep_kept (hbase : LinesOnly base) (ho : Aligned base ours ourAlign)
    (hinv : KeptInv base ours theirs ourAlign theirAlign st) (hclosed : Closed st.output)
    (hstable : isStable ourAlign theirAlign st = true) :
    KeptInv base ours theirs ourAlign theirAlign (stableStep base st) := by
  simp only [isStable, Bool.and_eq_true, decide_eq_true_eq] at hstable
  obtain ⟨l, hl, _⟩ := ho _ _ hstable.1
  have hline : base.getD st.i [] = l := by
    rw [getD_eq_getElem?_getD, hl]
    rfl
  have hsplit : splitLines l = [l] := hbase.1 l (mem_of_getElem? hl)
  constructor
  · intro hregions m hm
    simp only [stableStep, hline] at hm
    rw [splitLines_append hclosed, hsplit] at hm
    rcases mem_append.1 hm with hm | hm
    · exact hinv.lines hregions m hm
    · obtain rfl := mem_singleton.1 hm
      exact .inl (mem_of_getElem? hl)
  · left
    simp only [stableStep]
    rw [behindKept, keptByBoth_eq_some.2 hstable]

section
variable (hv : ∀ old new, ValidScript old new (captureDiffSlices old new)) (hbase : LinesOnly base)
  (hours : LinesOnly ours) (htheirs : LinesOnly theirs)
include hv hbase hours htheirs

theorem hunkStep_kept
    (hinv : KeptInv base ours theirs ourAlign theirAlign st) (hclosed : Closed st.output)
    (hj : j < base.length) (hoj : o < ours.length) (htj : t < theirs.length)
    (hkept : keptByBoth ourAlign theirAlign j = some (o, t)) :
    KeptInv base ours theirs ourAlign theirAlign
      (hunkStep captureDiffSlices markers base ours theirs st j o t) := by
  have hslice : ∀ {lines : List Line} {i k : Nat}, LinesOnly lines → k < lines.length →
      ∀ l ∈ Range.slice ⟨i, k⟩ lines, l ∈ lines ∧ IsLine l ∧ Terminated l := by
    intro lines i k hlines hk l hl
    have htake : l ∈ lines.take k := mem_of_mem_drop hl
    have hmem := mem_of_mem_take htake
    rw [← take_append_drop k lines] at hlines
    have hne : lines.drop k ≠ [] := by simpa using hk
    exact ⟨hmem, hlines.1 l (mem_append_left _ htake), hlines.terminated hne l htake⟩
  constructor
  · intro hregions l hl
    obtain ⟨hbefore, added, hadded, houtput⟩ := hunkStep_clean hregions
    obtain ⟨lines, rfl, hfrom⟩ := resolveHunk_pieces (hv _ _) (hv _ _) hadded
    have hall : ∀ m ∈ lines, FromTexts base ours theirs m ∧ IsLine m ∧ Terminated m := by
      intro m hm
      rcases hfrom m hm with hm | hm | hm
      · exact ⟨.inl (hslice hbase hj m hm).1, (hslice hbase hj m hm).2⟩
      · exact ⟨.inr (.inl (hslice hours hoj m hm).1), (hslice hours hoj m hm).2⟩
      · exact ⟨.inr (.inr (hslice htheirs htj m hm).1), (hslice htheirs htj m hm).2⟩
    have hlines := splitLines_flatten_append (fun m hm => (hall m hm).2) []
    rw [append_nil, splitLines, append_nil] at hlines
    rw [houtput, splitLines_append hclosed, hlines] at hl
    rcases mem_append.1 hl with hl | hl
    · exact hinv.lines hbefore l hl
    · exact (hall l hl).1
  · right
    obtain ⟨ho, ht⟩ := keptByBoth_eq_some.1 hkept
    simp only [isStable, hunkStep, ho, ht, decide_true, Bool.and_self]

section
variable (ho : Aligned base ours ourAlign) (ht : Aligned base theirs theirAlign)
  (hor : Rising ourAlign i j) (htr : Rising theirAlign i' j')
  (hwalk : WalkInv base ours theirs markers st)
include ho ht hor htr hwalk

theorem walkStep_kept
    (hinv : KeptInv base ours theirs ourAlign theirAlign st) (hi : st.i < base.length) :
    let st' := walkStep captureDiffSlices markers base ours theirs ourAlign theirAlign st
    KeptInv base ours theirs ourAlign theirAlign st' ∨
      (WalkEnd captureDiffSlices base ours theirs ourAlign theirAlign st' ∧
        st'.i = base.length) := by
  intro st'
  have hclosed := hwalk.closed (.inl hi)
  by_cases hstable : isStable ourAlign theirAlign st = true
  · have hstep : st' = stableStep base st := if_pos hstable
    rw [hstep]
    exact .inl (stableStep_kept hbase ho hinv hclosed hstable)
  · obtain ⟨⟨k, o, t⟩, hend⟩ : ∃ e, hunkEnd base ours theirs ourAlign theirAlign st = e := ⟨_, rfl⟩
    have hstep : st' = hunkStep captureDiffSlices markers base ours theirs st k o t := by
      simp only [st', walkStep, if_neg hstable, hend]
    rw [hstep]
    have hplace := hinv.place.resolve_right hstable
    obtain ⟨_, ⟨hk, hko, hkt, _, _⟩ | ⟨rfl, rfl, rfl⟩⟩ :=
      hunkEnd_spec base ours theirs ourAlign theirAlign hi.le hend
    · obtain ⟨_, _, hoget⟩ := ho _ _ hko
      obtain ⟨_, _, htget⟩ := ht _ _ hkt
      exact .inl (hunkStep_kept hv hbase hours htheirs hinv hclosed hk
        (List.getElem?_eq_some_iff.1 hoget).1 (List.getElem?_eq_some_iff.1 htget).1
        (keptByBoth_eq_some.2 ⟨hko, hkt⟩))
    · have hahead : ∀ k o t, st.i ≤ k → keptByBoth ourAlign theirAlign k = some (o, t) →
          st.ourPos ≤ o ∧ st.theirPos ≤ t := by
        intro k o t hk hkept
        have hle := behindKept_le hor htr hk hkept
        rwa [← hplace] at hle
      have hlen : st.i + (base.length - st.i) = base.length := Nat.add_sub_cancel' hi.le
      have hnone := scanHunk_none hahead (hend.trans (by rw [hlen]))
      rw [hlen] at hnone
      refine .inr ⟨walkEnd_of_hunk hinv hclosed ?_, rfl⟩
      rw [hplace, behindKept_eq hi.le hnone]

theorem walkLoop_kept (hinv : KeptInv base ours theirs ourAlign theirAlign st ∨
      (WalkEnd captureDiffSlices base ours theirs ourAlign theirAlign st ∧ st.i = base.length))
    (hl : walkLoop captureDiffSlices markers base ours theirs ourAlign theirAlign fuel st =
      some st') :
    KeptInv base ours theirs ourAlign theirAlign st' ∨
      WalkEnd captureDiffSlices base ours theirs ourAlign theirAlign st' := by
  induction fuel generalizing st with
  | zero => cases hl
  | succ fuel ih =>
    unfold walkLoop at hl
    split at hl
    · rename_i hi
      have hkept : KeptInv base ours theirs ourAlign theirAlign st :=
        hinv.resolve_right fun hdone => absurd hdone.2 (Nat.ne_of_lt hi)
      exact ih (walkStep_inv hbase.splitText hours.splitText htheirs.splitText ho ht hwalk hi)
        (walkStep_kept hv hbase hours htheirs ho ht hor htr hwalk hkept hi) hl
    · cases hl
      exact hinv.imp id And.left

end

end

theorem finishWalk_end (ho : Aligned base ours ourAlign)
    (hwalk : WalkInv base ours theirs markers st) (hi : st.i = base.length)
    (hinv : KeptInv base ours theirs ourAlign theirAlign st ∨
      WalkEnd captureDiffSlices base ours theirs ourAlign theirAlign st) :
    WalkEnd captureDiffSlices base ours theirs ourAlign theirAlign
      (finishWalk captureDiffSlices markers base ours theirs st) := by
  rcases hinv with hinv | hdone
  · have hplace := hinv.place.resolve_right fun hstable => by
      simp only [isStable, Bool.and_eq_true, decide_eq_true_eq] at hstable
      obtain ⟨_, hl, _⟩ := ho _ _ hstable.1
      have hlt := (List.getElem?_eq_some_iff.1 hl).1
      omega
    rw [hi] at hplace
    by_cases hleft : st.ourPos < ours.length ∨ st.theirPos < theirs.length
    · rw [finishWalk, if_pos hleft]
      exact walkEnd_of_hunk hinv (hwalk.closed (.inr hleft)) (hi ▸ hplace)
    · rw [finishWalk, if_neg hleft]
      rw [not_or, not_lt, not_lt] at hleft
      refine ⟨hleft.1, hleft.2, fun hregions => ⟨splitLines st.output, [], ?_, hinv.lines hregions, ?_⟩⟩
      · rw [splitLines, append_nil]
      · rw [← hplace]
        dsimp only
        rw [drop_length, drop_eq_nil_of_le hleft.1, drop_eq_nil_of_le hleft.2]
        rfl
  · rw [finishWalk, if_neg (by
      have := hdone.ourEnd
      have := hdone.theirEnd
      omega)]
    exact hdone

theorem keptInv_start : KeptInv base ours theirs ourAlign theirAlign {} :=
  ⟨fun _ _ hl => absurd hl not_mem_nil, .inl rfl⟩

theorem walk_end (hv : ∀ old new, ValidScript old new (captureDiffSlices old new))
    (hbase : LinesOnly base) (hours : LinesOnly ours) (htheirs : LinesOnly theirs)
    (ho : Aligned base ours ourAlign) (ht : Aligned base theirs theirAlign)
    (hor : Rising ourAlign i j) (htr : Rising theirAlign i' j') :
    WalkEnd captureDiffSlices base ours theirs ourAlign theirAlign
      (walk captureDiffSlices markers base ours theirs ourAlign theirAlign) := by
  obtain ⟨st, hst⟩ := isSome_iff_exists.1 (walkLoop_start_isSome captureDiffSlices markers
    base ours theirs ourAlign theirAlign le_rfl)
  simp only [walk, hst, get_some]
  obtain ⟨hwalk, hi⟩ := walkLoop_inv hbase.splitText hours.splitText htheirs.splitText ho ht
    walkInv_start hst
  exact finishWalk_end ho hwalk hi
    (walkLoop_kept hv hbase hours htheirs ho ht hor htr walkInv_start (.inl keptInv_start) hst)

end Walk

end Heddle.Merge
