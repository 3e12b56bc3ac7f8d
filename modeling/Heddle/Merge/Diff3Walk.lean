import Heddle.Merge.Diff3
import Heddle.Lib.Fold

namespace Heddle.Merge
open Heddle.Lib List Option

theorem ensureTrailingNewline_closed (out : Bytes) : Closed (ensureTrailingNewline out) := by
  unfold ensureTrailingNewline
  split
  · exact .inr ⟨out, rfl⟩
  · rename_i h
    cases hl : out.getLast? with
    | none => exact .inl (getLast?_eq_none_iff.1 hl)
    | some b =>
      rw [hl, any_some, Bool.not_eq_true, decide_eq_false_iff_not, ne_eq, not_not] at h
      exact .inr (terminated_iff_getLast?.2 (h ▸ hl))

theorem ensureTrailingNewline_of_closed (h : Closed out) : ensureTrailingNewline out = out := by
  rcases h with rfl | h
  · rfl
  · rw [ensureTrailingNewline, terminated_iff_getLast?.1 h, if_neg (by simp)]

theorem ensureTrailingNewline_append (h : Closed out) (rest : Bytes) :
    ensureTrailingNewline (out ++ rest) = out ++ ensureTrailingNewline rest := by
  cases rest with
  | nil => rw [append_nil, ensureTrailingNewline_of_closed h]; exact (append_nil _).symm
  | cons b bs =>
    have hlast : (out ++ b :: bs).getLast? = (b :: bs).getLast? :=
      getLast?_append_of_ne_nil _ (cons_ne_nil _ _)
    unfold ensureTrailingNewline
    rw [hlast]
    split
    · rw [append_assoc]
    · rfl

def markerLine (sign label : String) : Bytes := utf8 sign ++ utf8 label ++ [newline]

theorem markerLine_terminated (sign label : String) : Terminated (markerLine sign label) :=
  ⟨utf8 sign ++ utf8 label, rfl⟩

def conflictBody (ourSlice theirSlice : List Line) : Bytes :=
  ensureTrailingNewline ourSlice.flatten ++ utf8 "=======\n" ++
    ensureTrailingNewline theirSlice.flatten

def conflictBlock (ourSlice theirSlice : List Line) (markers : ConflictMarkers) : Bytes :=
  markerLine "<<<<<<< " markers.ours ++ conflictBody ourSlice theirSlice ++
    markerLine ">>>>>>> " markers.theirs

theorem separator_terminated : Terminated (utf8 "=======\n") := by decide

theorem emitConflict_eq (out : Bytes) (ourSlice theirSlice : List Line)
    (markers : ConflictMarkers) :
    emitConflict out ourSlice theirSlice markers =
      out ++ conflictBlock ourSlice theirSlice markers := by
  have hhead : Closed (out ++ markerLine "<<<<<<< " markers.ours) :=
    ((markerLine_terminated _ _).append out).closed
  have hmid : Closed (out ++ markerLine "<<<<<<< " markers.ours ++
      ensureTrailingNewline ourSlice.flatten ++ utf8 "=======\n") :=
    (separator_terminated.append _).closed
  have houter : out ++ utf8 "<<<<<<< " ++ utf8 markers.ours ++ [newline] =
      out ++ markerLine "<<<<<<< " markers.ours := by
    simp only [markerLine, append_assoc]
  simp only [emitConflict, emitLines]
  rw [houter, ensureTrailingNewline_append hhead, ensureTrailingNewline_append hmid]
  simp only [conflictBlock, conflictBody, markerLine, append_assoc]

theorem conflictBody_closed (ourSlice theirSlice : List Line) :
    Closed (conflictBody ourSlice theirSlice) :=
  ((ensureTrailingNewline_closed _).append separator_terminated.closed).append
    (ensureTrailingNewline_closed _)

theorem conflictBlock_terminated (ourSlice theirSlice : List Line) (markers : ConflictMarkers) :
    Terminated (conflictBlock ourSlice theirSlice markers) :=
  (markerLine_terminated _ _).append _

def ConflictMarkers.SingleLine (markers : ConflictMarkers) : Prop :=
  newline ∉ utf8 markers.ours ∧ newline ∉ utf8 markers.theirs

theorem ConflictMarkers.default_singleLine : ConflictMarkers.default.SingleLine :=
  ⟨by decide, by decide⟩

theorem outputLineCount_terminated (h : Terminated line) :
    outputLineCount line = line.count newline := by
  rw [outputLineCount, terminated_iff_getLast?.1 h, if_neg (by simp), Nat.add_zero]

theorem markerLine_count (hs : newline ∉ utf8 sign) (hl : newline ∉ utf8 label) :
    outputLineCount (markerLine sign label) = 1 := by
  rw [outputLineCount_terminated (markerLine_terminated _ _), markerLine, count_append,
    count_append, count_eq_zero_of_not_mem hs, count_eq_zero_of_not_mem hl]
  rfl

theorem conflictBlock_count (h : markers.SingleLine) (ourSlice theirSlice : List Line) :
    outputLineCount (conflictBlock ourSlice theirSlice markers) =
      outputLineCount (conflictBody ourSlice theirSlice) + 2 := by
  have hhead := (markerLine_terminated "<<<<<<< " markers.ours).closed
  have hbody := conflictBody_closed ourSlice theirSlice
  rw [conflictBlock, outputLineCount_append (hhead.append hbody), outputLineCount_append hhead,
    markerLine_count (by decide) h.1, markerLine_count (by decide) h.2]
  omega

def TablesClosed (tables : List LineAction × List (List Line)) : Prop :=
  (∀ k lines, tables.1.getD k .keep = .replace lines → ∀ l ∈ lines, Closed l) ∧
    ∀ k, ∀ l ∈ tables.2.getD k [], Closed l

theorem getD_set_cases (xs : List α) (k j : Nat) (x d : α) :
    (xs.set k x).getD j d = x ∨ (xs.set k x).getD j d = xs.getD j d := by
  simp only [getD_eq_getElem?_getD, getElem?_set]
  by_cases hk : k = j
  · rw [if_pos hk]
    by_cases hlen : k < xs.length
    · exact .inl (by rw [if_pos hlen]; rfl)
    · refine .inr ?_
      rw [if_neg hlen, getElem?_eq_none (by omega)]
  · exact .inr (by rw [if_neg hk])

theorem setDeletes_getD (actions : List LineAction) (ks : List Nat) (f : Nat → Nat)
    (h : (ks.foldl (fun actions k => actions.set (f k) .delete) actions).getD j .keep =
      .replace lines) : actions.getD j .keep = .replace lines := by
  induction ks generalizing actions with
  | nil => exact h
  | cons k ks ih =>
    have hset := ih _ h
    rcases getD_set_cases actions (f k) j .delete .keep with hd | hd
    · rw [hd] at hset
      cases hset
    · rwa [hd] at hset

theorem mem_slice_closed {side : List Line} (hside : ∀ l ∈ side, Closed l)
    (hl : l ∈ (side.drop n).take len) : Closed l :=
  hside l (mem_of_mem_drop (mem_of_mem_take hl))

theorem classifyOp_closed (hside : ∀ l ∈ side, Closed l) (ht : TablesClosed tables) (op : DiffOp) :
    TablesClosed (classifyOp base side tables op) := by
  obtain ⟨hactions, hinserts⟩ := ht
  cases op with
  | equal => exact ⟨hactions, hinserts⟩
  | delete oldIndex oldLen newIndex =>
    exact ⟨fun k lines h => hactions k lines (setDeletes_getD _ _ _ h), hinserts⟩
  | insert oldIndex newIndex newLen =>
    refine ⟨hactions, fun k l hl => ?_⟩
    simp only [classifyOp, getD_eq_getElem?_getD, getElem?_modify] at hl
    have hk := hinserts k
    rw [getD_eq_getElem?_getD] at hk
    cases hget : tables.2[k]? with
    | none => simp [hget] at hl
    | some ins =>
      rw [hget] at hl hk
      simp only [Option.map_eq_map, Option.map_some, Option.getD_some] at hl hk
      split at hl
      · rcases mem_append.1 hl with hl | hl
        · exact hk l hl
        · exact mem_slice_closed hside hl
      · exact hk l hl
  | replace oldIndex oldLen newIndex newLen =>
    refine ⟨fun k lines h => ?_, hinserts⟩
    have hset := setDeletes_getD _ _ _ h
    rcases getD_set_cases tables.1 oldIndex k
        (.replace ((side.drop newIndex).take newLen)) .keep with hd | hd
    · rw [hd] at hset
      cases hset
      exact fun l hl => mem_slice_closed hside hl
    · rw [hd] at hset
      exact hactions k lines hset

theorem composeGap_closed (hc : composeGap out ours theirs = some out') (ho : Closed out)
    (hours : ∀ l ∈ ours, Closed l) (htheirs : ∀ l ∈ theirs, Closed l) : Closed out' := by
  unfold composeGap at hc
  have hadd : ∀ lines : List Line, (∀ l ∈ lines, Closed l) → Closed (emitLines out lines) :=
    fun lines hl => ho.append (.flatten hl)
  split at hc
  · cases hc; exact ho
  · split at hc
    · cases hc; exact hadd theirs htheirs
    · split at hc
      · cases hc; exact hadd ours hours
      · split at hc
        · cases hc; exact hadd ours hours
        · cases hc

theorem composeAction_closed (hc : composeAction out line a b = some out') (ho : Closed out)
    (hline : Closed line) (ha : ∀ lines, a = .replace lines → ∀ l ∈ lines, Closed l)
    (hb : ∀ lines, b = .replace lines → ∀ l ∈ lines, Closed l) : Closed out' := by
  unfold composeAction at hc
  split at hc
  · cases hc; exact ho.append hline
  · cases hc; exact ho.append (.flatten (hb _ rfl))
  · cases hc; exact ho.append (.flatten (ha _ rfl))
  · cases hc; exact ho
  · cases hc; exact ho
  · cases hc

theorem getD_closed {lines : List Line} (h : ∀ l ∈ lines, Closed l) (i : Nat) :
    Closed (lines.getD i []) := by
  rw [getD_eq_getElem?_getD]
  cases hget : lines[i]? with
  | none => exact .inl rfl
  | some l => exact h l (mem_of_getElem? hget)

section Walk
variable {captureDiffSlices : List Line → List Line → List DiffOp}

theorem classifyAgainstBase_closed (captureDiffSlices : List Line → List Line → List DiffOp)
    (base : List Line) (hside : ∀ l ∈ side, Closed l) :
    TablesClosed (classifyAgainstBase captureDiffSlices base side) := by
  have hinit : TablesClosed (List.replicate base.length LineAction.keep,
      List.replicate (base.length + 1) ([] : List Line)) := by
    constructor
    · intro k lines h
      simp only [getD_eq_getElem?_getD, getElem?_replicate] at h
      split at h <;> cases h
    · intro k l hl
      simp only [getD_eq_getElem?_getD, getElem?_replicate] at hl
      split at hl <;> exact absurd hl not_mem_nil
  unfold classifyAgainstBase
  generalize captureDiffSlices base side = ops
  generalize (List.replicate base.length LineAction.keep,
      List.replicate (base.length + 1) ([] : List Line)) = tables at hinit ⊢
  induction ops generalizing tables with
  | nil => exact hinit
  | cons op ops ih => exact ih _ (classifyOp_closed hside hinit op)

theorem composeDisjoint_closed (hc : composeDisjoint captureDiffSlices base ours theirs = some out)
    (hbase : ∀ l ∈ base, Closed l) (hours : ∀ l ∈ ours, Closed l)
    (htheirs : ∀ l ∈ theirs, Closed l) : Closed out := by
  obtain ⟨ourReplace, ourInsert⟩ :=
    classifyAgainstBase_closed captureDiffSlices base hours
  obtain ⟨theirReplace, theirInsert⟩ :=
    classifyAgainstBase_closed captureDiffSlices base htheirs
  unfold composeDisjoint at hc
  simp only [bind_eq_bind, bind_eq_some_iff] at hc
  obtain ⟨mid, hloop, htail⟩ := hc
  refine composeGap_closed htail ?_ (ourInsert _) (theirInsert _)
  refine foldlM_option_inv (P := Closed) (fun out i out' hstep ho => ?_) hloop (.inl rfl)
  simp only [bind_eq_some_iff] at hstep
  obtain ⟨gap, hgap, haction⟩ := hstep
  have hgapClosed := composeGap_closed hgap ho (ourInsert i) (theirInsert i)
  exact composeAction_closed haction hgapClosed (getD_closed hbase i)
    (fun lines h => ourReplace i lines h) (fun lines h => theirReplace i lines h)

/-- What a hunk adds to the output when it is not a conflict. -/
def resolveHunk (captureDiffSlices : List Line → List Line → List DiffOp)
    (baseSlice ourSlice theirSlice : List Line) : Option Bytes :=
  if ourSlice = baseSlice then some theirSlice.flatten
  else if theirSlice = baseSlice ∨ ourSlice = theirSlice then some ourSlice.flatten
  else
    match compareTrailingWs ourSlice theirSlice with
    | some clean => some clean.flatten
    | none =>
      match composeDisjoint captureDiffSlices baseSlice ourSlice theirSlice with
      | some composed => some composed
      | none =>
        if baseSlice.isEmpty ∧ ¬ ourSlice.isEmpty ∧ ¬ theirSlice.isEmpty then
          some (ourSlice.flatten ++ theirSlice.flatten)
        else none

theorem emitHunk_eq (out : Bytes) (regions : List TextConflictRegion)
    (baseSlice ourSlice theirSlice : List Line) (region : TextConflictRegion)
    (markers : ConflictMarkers) :
    emitHunk captureDiffSlices out regions baseSlice ourSlice theirSlice region markers =
      match resolveHunk captureDiffSlices baseSlice ourSlice theirSlice with
      | some added => (out ++ added, regions)
      | none =>
        (out ++ conflictBlock ourSlice theirSlice markers,
          regions ++ [{ region with
            merged := ⟨outputLineCount out,
              outputLineCount (out ++ conflictBlock ourSlice theirSlice markers)⟩ }]) := by
  simp only [emitHunk, resolveHunk, emitLines, emitConflict_eq, append_assoc]
  split
  · rfl
  · split
    · rfl
    · cases compareTrailingWs ourSlice theirSlice with
      | some clean => rfl
      | none =>
        cases composeDisjoint captureDiffSlices baseSlice ourSlice theirSlice with
        | some composed => rfl
        | none =>
          dsimp only
          split <;> rfl

theorem compareTrailingWs_eq (h : compareTrailingWs a b = some c) : c = a ∨ c = b := by
  unfold compareTrailingWs at h
  split at h
  · cases h
  · split at h
    · cases h
    · split at h
      · exact .inl (some.inj h).symm
      · exact .inr (some.inj h).symm

theorem resolveHunk_closed
    (hr : resolveHunk captureDiffSlices baseSlice ourSlice theirSlice = some added)
    (hbase : ∀ l ∈ baseSlice, Closed l) (hours : ∀ l ∈ ourSlice, Closed l)
    (htheirs : ∀ l ∈ theirSlice, Closed l) : Closed added := by
  unfold resolveHunk at hr
  split at hr
  · cases hr; exact .flatten htheirs
  · split at hr
    · cases hr; exact .flatten hours
    · split at hr
      · rename_i clean hclean
        cases hr
        rcases compareTrailingWs_eq hclean with rfl | rfl
        · exact .flatten hours
        · exact .flatten htheirs
      · split at hr
        · rename_i composed hcomposed
          cases hr
          exact composeDisjoint_closed hcomposed hbase hours htheirs
        · split at hr
          · cases hr; exact (Closed.flatten hours).append (.flatten htheirs)
          · cases hr

end Walk

end Heddle.Merge
