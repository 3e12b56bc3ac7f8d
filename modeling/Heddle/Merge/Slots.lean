import Heddle.Lib.Patch
import Heddle.Merge.Diff3Walk

namespace Heddle.Merge
open Heddle.Lib Heddle.Lib.Patch List

def DiffOp.edit (side : List Line) : DiffOp → Option (RangeEdit Line)
  | .equal .. => none
  | .delete oldIndex oldLen _ => some ⟨oldIndex, oldIndex + oldLen, []⟩
  | .insert oldIndex newIndex newLen =>
    some ⟨oldIndex, oldIndex, (side.drop newIndex).take newLen⟩
  | .replace oldIndex oldLen newIndex newLen =>
    some ⟨oldIndex, oldIndex + oldLen, (side.drop newIndex).take newLen⟩

def editsOf (side : List Line) (ops : List DiffOp) : List (RangeEdit Line) :=
  ops.filterMap (DiffOp.edit side)

theorem patchFrom_skip (h : Ascending text.length (i + len) es) :
    patchFrom text i es = (text.drop i).take len ++ patchFrom text (i + len) es := by
  have hsplit : ∀ stop, i + len ≤ stop → (text.take stop).drop i =
      (text.drop i).take len ++ (text.take stop).drop (i + len) := by
    intro stop hstop
    have htake : (text.drop i).take len = ((text.take stop).drop i).take len := by
      rw [drop_take, take_take, min_eq_left (by omega)]
    rw [htake, ← drop_drop, take_append_drop]
  cases es with
  | nil =>
    rw [patchFrom, patchFrom, ← drop_drop, take_append_drop]
  | cons e es =>
    rw [patchFrom, patchFrom, hsplit e.start h.1]
    simp only [append_assoc]

theorem slice_eq_of_equal {old new : List Line}
    (h : ∀ k < len, ∃ l, old[i + k]? = some l ∧ new[j + k]? = some l) :
    (old.drop i).take len = (new.drop j).take len := by
  apply ext_getElem?
  intro k
  rw [getElem?_take, getElem?_take]
  split
  · rename_i hk
    obtain ⟨l, hold, hnew⟩ := h k hk
    rw [getElem?_drop, getElem?_drop, hold, hnew]
  · rfl

theorem ValidFrom.le (h : ValidFrom old new i j ops) : i ≤ old.length := by
  induction ops generalizing i j with
  | nil => exact h.1.le
  | cons op ops ih =>
    cases op with
    | equal o n len => exact (Nat.le_add_right i len).trans (ih h.2.2.2)
    | delete o len n => exact (Nat.le_add_right i len).trans h.2.2.1
    | insert o n len => exact ih h.2.2.2
    | replace o len n len' => exact (Nat.le_add_right i len).trans h.2.2.2.2.1

theorem ValidFrom.tail (h : ValidFrom old new i j (op :: ops)) :
    ∃ i' j', ValidFrom old new i' j' ops := by
  cases op with
  | equal => exact ⟨_, _, h.2.2.2⟩
  | delete => exact ⟨_, _, h.2.2.2⟩
  | insert => exact ⟨_, _, h.2.2.2⟩
  | replace => exact ⟨_, _, h.2.2.2.2.2.2⟩

/-- A valid script is an ascending patch, and it makes the new text of the old one. -/
theorem ValidFrom.edits (h : ValidFrom old new i j ops) :
    Ascending old.length i (editsOf new ops) ∧ patchFrom old i (editsOf new ops) = new.drop j := by
  induction ops generalizing i j with
  | nil =>
    obtain ⟨rfl, rfl⟩ := h
    simp [editsOf, Ascending, patchFrom]
  | cons op ops ih =>
    cases op with
    | equal o n len =>
      obtain ⟨rfl, rfl, heq, hrest⟩ := h
      obtain ⟨hasc, hpatch⟩ := ih hrest
      refine ⟨hasc.mono (Nat.le_add_right ..), ?_⟩
      change patchFrom old o (editsOf new ops) = _
      rw [patchFrom_skip hasc, hpatch, slice_eq_of_equal heq, ← drop_drop,
        take_append_drop]
    | delete o len n =>
      obtain ⟨rfl, rfl, hle, hrest⟩ := h
      obtain ⟨hasc, hpatch⟩ := ih hrest
      refine ⟨⟨le_rfl, Nat.le_add_right .., hasc⟩, ?_⟩
      change (old.take o).drop o ++ [] ++ patchFrom old (o + len) (editsOf new ops) = _
      rw [hpatch, drop_take, Nat.sub_self, take_zero]
      rfl
    | insert o n len =>
      obtain ⟨rfl, rfl, hle, hrest⟩ := h
      obtain ⟨hasc, hpatch⟩ := ih hrest
      refine ⟨⟨le_rfl, le_rfl, hasc⟩, ?_⟩
      change (old.take o).drop o ++ (new.drop n).take len ++ patchFrom old o (editsOf new ops) = _
      rw [hpatch, drop_take, Nat.sub_self, take_zero, nil_append, ← drop_drop,
        take_append_drop]
    | replace o len n len' =>
      obtain ⟨rfl, rfl, _, _, hle, hle', hrest⟩ := h
      obtain ⟨hasc, hpatch⟩ := ih hrest
      refine ⟨⟨le_rfl, Nat.le_add_right .., hasc⟩, ?_⟩
      change (old.take o).drop o ++ (new.drop n).take len' ++
        patchFrom old (o + len) (editsOf new ops) = _
      rw [hpatch, drop_take, Nat.sub_self, take_zero, nil_append, ← drop_drop,
        take_append_drop]

def actionOf (es : List (RangeEdit Line)) (k : Nat) : LineAction :=
  match coverOf es k with
  | none => .keep
  | some e => if e.start = k ∧ e.lines ≠ [] then .replace e.lines else .delete

theorem getD_set (xs : List α) (k j : Nat) (x d : α) :
    (xs.set k x).getD j d = if k = j ∧ j < xs.length then x else xs.getD j d := by
  simp only [getD_eq_getElem?_getD, getElem?_set]
  by_cases hk : k = j
  · subst k
    by_cases hj : j < xs.length
    · simp [hj]
    · simp [hj]
  · simp [hk]

theorem length_setRange (xs : List α) (f : Nat → Nat) (x : α) (ks : List Nat) :
    (ks.foldl (fun xs k => xs.set (f k) x) xs).length = xs.length := by
  induction ks generalizing xs with
  | nil => rfl
  | cons k ks ih => rw [foldl_cons, ih, length_set]

theorem getD_setRange (xs : List α) (start len j : Nat) (x d : α) :
    ((List.range len).foldl (fun xs k => xs.set (start + k) x) xs).getD j d =
      if start ≤ j ∧ j < start + len ∧ j < xs.length then x else xs.getD j d := by
  induction len with
  | zero => rw [range_zero, foldl_nil, if_neg (by omega)]
  | succ len ih =>
    rw [range_succ, foldl_append, foldl_cons, foldl_nil, getD_set, ih,
      length_setRange]
    by_cases h : start + len = j ∧ j < xs.length
    · rw [if_pos h, if_pos (by omega)]
    · rw [if_neg h]
      by_cases h' : start ≤ j ∧ j < start + len ∧ j < xs.length
      · rw [if_pos h', if_pos (by omega)]
      · rw [if_neg h', if_neg (by omega)]

/-- Line `k` of a table of actions, with the edits written over it. -/
def writeActions (es : List (RangeEdit Line)) (action : LineAction) (k : Nat) : LineAction :=
  match coverOf es k with
  | none => action
  | some _ => actionOf es k

theorem writeActions_none (h : coverOf es k = none) : writeActions es action k = action := by
  rw [writeActions, h]

theorem writeActions_some (h : coverOf es k = some e) :
    writeActions es action k = if e.start = k ∧ e.lines ≠ [] then .replace e.lines else .delete := by
  rw [writeActions, h, actionOf, h]

theorem writeActions_keep (es : List (RangeEdit Line)) (k : Nat) :
    writeActions es .keep k = actionOf es k := by
  cases h : coverOf es k with
  | none => rw [writeActions_none h, actionOf, h]
  | some e => rw [writeActions_some h, actionOf, h]

theorem writeActions_append (h : Ascending len i (es ++ fs)) :
    writeActions (es ++ fs) action k = writeActions fs (writeActions es action k) k := by
  cases hes : coverOf es k with
  | none =>
    have hboth : coverOf (es ++ fs) k = coverOf fs k := by rw [coverOf_append, hes, Option.none_or]
    rw [writeActions_none hes]
    cases hfs : coverOf fs k with
    | none => rw [writeActions_none hfs, writeActions_none (hboth.trans hfs)]
    | some e => rw [writeActions_some hfs, writeActions_some (hboth.trans hfs)]
  | some e =>
    have hboth : coverOf (es ++ fs) k = some e := by rw [coverOf_append, hes, Option.some_or]
    rw [writeActions_none (h.coverOf_behind hes), writeActions_some hes, writeActions_some hboth]

structure Written (len : Nat) (es : List (RangeEdit Line))
    (tables tables' : List LineAction × List (List Line)) : Prop where
  actions : tables'.1.length = len
  inserts : tables'.2.length = len + 1
  action : ∀ k, tables'.1.getD k .keep = writeActions es (tables.1.getD k .keep) k
  insert : ∀ k, tables'.2.getD k [] = tables.2.getD k [] ++ gapLines es k

theorem classifyOp_written (hactions : tables.1.length = base.length)
    (hinserts : tables.2.length = base.length + 1) (h : ValidFrom base side i j (op :: ops)) :
    Written base.length (editsOf side [op]) tables (classifyOp base side tables op) := by
  cases op with
  | equal o n len =>
    exact ⟨hactions, hinserts, fun _ => rfl, fun _ => (append_nil _).symm⟩
  | delete o len n =>
    obtain ⟨rfl, rfl, hle, _⟩ := h
    refine ⟨by rw [classifyOp, length_setRange, hactions], hinserts, fun k => ?_, fun k => ?_⟩
    · change ((List.range len).foldl (fun actions k => actions.set (o + k) .delete)
        tables.1).getD k .keep = writeActions [⟨o, o + len, []⟩] _ k
      rw [getD_setRange, hactions]
      by_cases hcover : o ≤ k ∧ k < o + len
      · rw [if_pos (by omega), writeActions_some (coverOf_cons_pos hcover), if_neg (by simp)]
      · rw [if_neg (by omega), writeActions_none (coverOf_cons_neg hcover)]
    · change tables.2.getD k [] = _ ++ gapLines [⟨o, o + len, []⟩] k
      by_cases hgap : o = k ∧ o + len = k
      · rw [gapLines_cons_insert hgap.1 hgap.2]
        exact (append_nil _).symm
      · rw [gapLines_cons_of_ne hgap]
        exact (append_nil _).symm
  | insert o n len =>
    obtain ⟨rfl, rfl, hle, hrest⟩ := h
    have hslot : min o base.length = o := min_eq_left hrest.le
    have hlt : o < tables.2.length := by
      have := hrest.le
      omega
    refine ⟨hactions, (length_modify ..).trans hinserts, fun k => ?_, fun k => ?_⟩
    · change tables.1.getD k .keep = writeActions [⟨o, o, (side.drop n).take len⟩] _ k
      rw [writeActions_none (coverOf_cons_neg (by dsimp only; omega))]
    · change (tables.2.modify (min o base.length) _).getD k [] = _ ++
        gapLines [⟨o, o, (side.drop n).take len⟩] k
      rw [hslot, getD_eq_getElem?_getD, getElem?_modify, getD_eq_getElem?_getD]
      by_cases hk : o = k
      · subst hk
        rw [gapLines_cons_insert rfl rfl, getElem?_eq_getElem hlt]
        simp [gapLines]
      · rw [gapLines_cons_of_ne (by dsimp only; omega)]
        simp [gapLines, hk]
  | replace o len n len' =>
    obtain ⟨rfl, rfl, hpos, hpos', hle, hle', _⟩ := h
    have hlines : (side.drop n).take len' ≠ [] := by
      intro hnil
      have hlen := congrArg List.length hnil
      rw [length_take, length_drop, length_nil] at hlen
      omega
    have hshift : (fun (actions : List LineAction) k => actions.set (o + (k + 1)) .delete) =
        fun actions k => actions.set (o + 1 + k) .delete := by
      funext actions k
      rw [Nat.add_right_comm o 1 k, Nat.add_assoc]
    refine ⟨?_, hinserts, fun k => ?_, fun k => ?_⟩
    · change ((List.range (len - 1)).foldl (fun actions k => actions.set (o + (k + 1)) .delete)
        (tables.1.set o (.replace ((side.drop n).take len')))).length = _
      rw [length_setRange, length_set, hactions]
    · change ((List.range (len - 1)).foldl (fun actions k => actions.set (o + (k + 1)) .delete)
        (tables.1.set o (.replace ((side.drop n).take len')))).getD k .keep =
          writeActions [⟨o, o + len, (side.drop n).take len'⟩] _ k
      rw [hshift, getD_setRange, length_set, hactions, getD_set, hactions]
      by_cases hcover : o ≤ k ∧ k < o + len
      · rw [writeActions_some (coverOf_cons_pos hcover)]
        by_cases hk : o = k
        · rw [if_neg (by omega), if_pos (by omega), if_pos ⟨hk, hlines⟩]
        · rw [if_pos (by omega), if_neg fun h => hk h.1]
      · rw [if_neg (by omega), if_neg (by omega), writeActions_none (coverOf_cons_neg hcover)]
    · change tables.2.getD k [] = _ ++ gapLines [⟨o, o + len, (side.drop n).take len'⟩] k
      rw [gapLines_cons_of_ne (by dsimp only; omega)]
      exact (append_nil _).symm

theorem editsOf_cons (side : List Line) (op : DiffOp) (ops : List DiffOp) :
    editsOf side (op :: ops) = editsOf side [op] ++ editsOf side ops :=
  filterMap_append (l := [op]) ..

theorem classifyOps_written (hactions : tables.1.length = base.length)
    (hinserts : tables.2.length = base.length + 1) (h : ValidFrom base side i j ops) :
    Written base.length (editsOf side ops) tables (ops.foldl (classifyOp base side) tables) := by
  induction ops generalizing i j tables with
  | nil => exact ⟨hactions, hinserts, fun _ => rfl, fun _ => (append_nil _).symm⟩
  | cons op ops ih =>
    have hfirst := classifyOp_written hactions hinserts h
    obtain ⟨i', j', hrest⟩ := h.tail
    have hstep := ih hfirst.actions hfirst.inserts hrest
    have hasc := h.edits.1
    rw [editsOf_cons] at hasc ⊢
    refine ⟨hstep.actions, hstep.inserts, fun k => ?_, fun k => ?_⟩
    · rw [foldl_cons, hstep.action, hfirst.action, writeActions_append hasc]
    · rw [foldl_cons, hstep.insert, hfirst.insert, gapLines_append, append_assoc]

theorem patch_editsOf (h : ValidScript base side ops) : patch base (editsOf side ops) = side :=
  h.edits.2

section Compose
variable {captureDiffSlices : List Line → List Line → List DiffOp}

theorem classifyAgainstBase_eq (h : ValidScript base side (captureDiffSlices base side)) (k : Nat) :
    (classifyAgainstBase captureDiffSlices base side).1.getD k .keep =
        actionOf (editsOf side (captureDiffSlices base side)) k ∧
      (classifyAgainstBase captureDiffSlices base side).2.getD k [] =
        gapLines (editsOf side (captureDiffSlices base side)) k := by
  have hwritten : Written base.length (editsOf side (captureDiffSlices base side))
      (List.replicate base.length .keep, List.replicate (base.length + 1) [])
      (classifyAgainstBase captureDiffSlices base side) :=
    classifyOps_written length_replicate length_replicate h
  have hkeep : (List.replicate base.length LineAction.keep).getD k .keep = .keep := by
    rw [getD_eq_getElem?_getD, getElem?_replicate]
    split <;> rfl
  have hempty : (List.replicate (base.length + 1) ([] : List Line)).getD k [] = [] := by
    rw [getD_eq_getElem?_getD, getElem?_replicate]
    split <;> rfl
  constructor
  · rw [hwritten.action, hkeep, writeActions_keep]
  · rw [hwritten.insert, hempty, nil_append]

/-- At most one side inserts in the gap before line `k`, or both insert the same. -/
def GapsAgree (es fs : List (RangeEdit Line)) (k : Nat) : Prop :=
  gapLines es k = [] ∨ gapLines fs k = [] ∨ gapLines es k = gapLines fs k

instance : Decidable (GapsAgree es fs k) := inferInstanceAs (Decidable (_ ∨ _ ∨ _))

def Commute (es fs : List (RangeEdit Line)) (len : Nat) : Prop :=
  (∀ k ≤ len, GapsAgree es fs k) ∧ ∀ k < len, coverOf es k = none ∨ coverOf fs k = none

theorem Commute.symm (h : Commute es fs len) : Commute fs es len := by
  obtain ⟨hgaps, hlines⟩ := h
  refine ⟨fun k hk => ?_, fun k hk => (hlines k hk).symm⟩
  rcases hgaps k hk with h | h | h
  · exact .inr (.inl h)
  · exact .inl h
  · exact .inr (.inr h.symm)

theorem slots_both_comm (h : Commute es fs base.length) :
    slots (bothGaps es fs) (bothLines base es fs) 0 base.length =
      slots (bothGaps fs es) (bothLines base fs es) 0 base.length := by
  refine slots_congr (fun k _ hk => ?_) fun k _ hk => ?_
  · rw [Nat.zero_add] at hk
    exact bothGaps_comm (h.1 k hk)
  · rw [Nat.zero_add] at hk
    exact bothLines_comm (h.2 k hk)

theorem composeGap_eq_some (out : Bytes) (es fs : List (RangeEdit Line)) (k : Nat) :
    composeGap out (gapLines es k) (gapLines fs k) = some out' ↔
      GapsAgree es fs k ∧ out' = out ++ (bothGaps es fs k).flatten := by
  unfold composeGap GapsAgree bothGaps emitLines
  simp only [List.isEmpty_iff, Bool.and_eq_true]
  by_cases hes : gapLines es k = []
  · by_cases hfs : gapLines fs k = []
    · simp [hes, hfs, eq_comm]
    · simp [hes, hfs, eq_comm]
  · by_cases hfs : gapLines fs k = []
    · simp [hes, hfs, eq_comm]
    · by_cases hsame : gapLines es k = gapLines fs k
      · simp [hfs, hsame, eq_comm]
      · simp [hes, hfs, hsame]

theorem flatten_textLine (text : List Line) (k : Nat) : (textLine text k).flatten = text.getD k [] := by
  rw [textLine, getD_eq_getElem?_getD]
  cases text[k]? with
  | none => rfl
  | some l => exact append_nil l

theorem composeAction_eq_some (out : Bytes) (base : List Line) (es fs : List (RangeEdit Line)) (k : Nat) :
    composeAction out (base.getD k []) (actionOf es k) (actionOf fs k) = some out' ↔
      (coverOf es k = none ∨ coverOf fs k = none) ∧
        out' = out ++ (bothLines base es fs k).flatten := by
  have hone : ∀ (e : RangeEdit Line) (out' : Bytes),
      (composeAction out (base.getD k []) .keep
          (if e.start = k ∧ e.lines ≠ [] then .replace e.lines else .delete) = some out' ↔
        out' = out ++ (if e.start = k then e.lines else []).flatten) ∧
      composeAction out (base.getD k [])
          (if e.start = k ∧ e.lines ≠ [] then .replace e.lines else .delete) .keep =
        composeAction out (base.getD k []) .keep
          (if e.start = k ∧ e.lines ≠ [] then .replace e.lines else .delete) := by
    intro e out'
    by_cases hstart : e.start = k
    · by_cases hlines : e.lines = []
      · simp [hstart, hlines, composeAction, eq_comm]
      · simp [hstart, hlines, composeAction, emitLines, eq_comm]
    · simp [hstart, composeAction, eq_comm]
  unfold actionOf bothLines
  cases hes : coverOf es k with
  | none =>
    cases hfs : coverOf fs k with
    | none =>
      rw [lineLines_of_none hfs, lineLines_of_none hes, flatten_textLine]
      simp [composeAction, eq_comm]
    | some f =>
      rw [(hone f out').1, lineLines, hfs]
      simp
  | some e =>
    cases hfs : coverOf fs k with
    | none =>
      rw [(hone e out').2, (hone e out').1, lineLines_of_none hfs, lineLines, hes]
      simp
    | some f =>
      simp only [reduceCtorEq, or_self, false_and, iff_false]
      split <;> split <;> simp [composeAction]

/-- When the composer merges two sides, and what it makes of them. -/
theorem composeDisjoint_eq_some_iff
    (hours : ValidScript base ours (captureDiffSlices base ours))
    (htheirs : ValidScript base theirs (captureDiffSlices base theirs)) :
    let es := editsOf ours (captureDiffSlices base ours)
    let fs := editsOf theirs (captureDiffSlices base theirs)
    composeDisjoint captureDiffSlices base ours theirs = some out ↔
      Commute es fs base.length ∧
        out = (slots (bothGaps es fs) (bothLines base es fs) 0 base.length).flatten := by
  intro es fs
  have hloop : ∀ n mid, (List.range n).foldlM (fun out i =>
      (composeGap out (gapLines es i) (gapLines fs i)).bind fun out =>
        composeAction out (base.getD i []) (actionOf es i) (actionOf fs i)) [] = some mid ↔
      (∀ k < n, GapsAgree es fs k ∧ (coverOf es k = none ∨ coverOf fs k = none)) ∧
        mid = (slotsBefore (bothGaps es fs) (bothLines base es fs) 0 n).flatten := by
    intro n
    induction n with
    | zero =>
      intro mid
      simp [slotsBefore, eq_comm]
    | succ n ih =>
      intro mid
      simp only [range_succ, foldlM_append, foldlM_cons, foldlM_nil,
        Option.bind_eq_bind, Option.bind_eq_some_iff, ih, composeGap_eq_some,
        composeAction_eq_some, Option.pure_def, Option.some.injEq, slotsBefore_succ, Nat.zero_add,
        flatten_append]
      constructor
      · rintro ⟨_, ⟨hbefore, rfl⟩, _, ⟨_, ⟨hgap, rfl⟩, hline, rfl⟩, rfl⟩
        refine ⟨fun k hk => ?_, by simp only [append_assoc]⟩
        rcases Nat.lt_succ_iff_lt_or_eq.1 hk with hk | rfl
        · exact hbefore k hk
        · exact ⟨hgap, hline⟩
      · rintro ⟨hall, rfl⟩
        obtain ⟨hgap, hline⟩ := hall n (Nat.lt_succ_self n)
        exact ⟨_, ⟨fun k hk => hall k (Nat.lt_succ_of_lt hk), rfl⟩, _, ⟨_, ⟨hgap, rfl⟩, hline, rfl⟩,
          by simp only [append_assoc]⟩
  have htables : composeDisjoint captureDiffSlices base ours theirs =
      ((List.range base.length).foldlM (fun out i =>
        (composeGap out (gapLines es i) (gapLines fs i)).bind fun out =>
          composeAction out (base.getD i []) (actionOf es i) (actionOf fs i)) []).bind fun out =>
            composeGap out (gapLines es base.length) (gapLines fs base.length) := by
    simp only [composeDisjoint, classifyAgainstBase_eq hours, classifyAgainstBase_eq htheirs]
    rfl
  rw [htables]
  simp only [Option.bind_eq_some_iff, hloop, composeGap_eq_some]
  rw [slots_end, flatten_append]
  constructor
  · rintro ⟨_, ⟨hbefore, rfl⟩, hgap, rfl⟩
    refine ⟨⟨fun k hk => ?_, fun k hk => (hbefore k hk).2⟩, rfl⟩
    rcases Nat.lt_or_eq_of_le hk with hk | rfl
    · exact (hbefore k hk).1
    · exact hgap
  · rintro ⟨⟨hgaps, hlines⟩, rfl⟩
    exact ⟨_, ⟨fun k hk => ⟨hgaps k hk.le, hlines k hk⟩, rfl⟩, hgaps base.length le_rfl, rfl⟩

end Compose

def wholeDiff (old new : List Line) : List DiffOp :=
  if old = new then [.equal 0 0 old.length]
  else if old = [] then [.insert 0 0 new.length]
  else if new = [] then [.delete 0 old.length 0]
  else [.replace 0 old.length 0 new.length]

theorem wholeDiff_valid (old new : List Line) : ValidScript old new (wholeDiff old new) := by
  unfold wholeDiff
  split
  · rename_i hsame
    subst hsame
    refine ⟨rfl, rfl, fun k hk => ⟨old[k], ?_, ?_⟩, Nat.zero_add _, Nat.zero_add _⟩
    all_goals rw [Nat.zero_add, getElem?_eq_getElem hk]
  · split
    · rename_i hold
      subst hold
      exact ⟨rfl, rfl, (Nat.zero_add _).le, rfl, Nat.zero_add _⟩
    · split
      · rename_i hnew
        subst hnew
        exact ⟨rfl, rfl, (Nat.zero_add _).le, Nat.zero_add _, rfl⟩
      · rename_i hold hnew
        exact ⟨rfl, rfl, length_pos_iff.2 hold, length_pos_iff.2 hnew,
          (Nat.zero_add _).le, (Nat.zero_add _).le, Nat.zero_add _, Nat.zero_add _⟩

end Heddle.Merge
