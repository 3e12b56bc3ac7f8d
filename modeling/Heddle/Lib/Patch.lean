import Mathlib.Data.List.Basic
import Mathlib.Algebra.Order.Ring.Nat

namespace Heddle.Lib.Patch
open List

@[ext] structure RangeEdit (α : Type) where
  start : Nat
  stop : Nat
  lines : List α
  deriving DecidableEq

/-- The edits follow each other from line `i` on, none reaching into the next. -/
def Ascending (len : Nat) : Nat → List (RangeEdit α) → Prop
  | i, [] => i ≤ len
  | i, e :: es => i ≤ e.start ∧ e.start ≤ e.stop ∧ Ascending len e.stop es

def patchFrom (text : List α) : Nat → List (RangeEdit α) → List α
  | i, [] => text.drop i
  | i, e :: es => (text.take e.start).drop i ++ e.lines ++ patchFrom text e.stop es

def patch (text : List α) (es : List (RangeEdit α)) : List α := patchFrom text 0 es

def gapLines (es : List (RangeEdit α)) (k : Nat) : List α :=
  (es.filter fun e => e.start = k ∧ e.stop = k).flatMap RangeEdit.lines

/-- The edit that changes line `k`. -/
def coverOf (es : List (RangeEdit α)) (k : Nat) : Option (RangeEdit α) :=
  es.find? fun e => e.start ≤ k ∧ k < e.stop

def lineLines (line : Nat → List α) (es : List (RangeEdit α)) (k : Nat) : List α :=
  match coverOf es k with
  | some e => if e.start = k then e.lines else []
  | none => line k

def textLine (text : List α) (k : Nat) : List α := text[k]?.toList

/-- `n` slots from line `k` on, each the gap before a line and the line. -/
def slotsBefore (gap line : Nat → List α) (k : Nat) : Nat → List α
  | 0 => []
  | n + 1 => gap k ++ line k ++ slotsBefore gap line (k + 1) n

def slots (gap line : Nat → List α) (k : Nat) : Nat → List α
  | 0 => gap k
  | n + 1 => gap k ++ line k ++ slots gap line (k + 1) n

theorem slotsBefore_add (gap line : Nat → List α) (k m n : Nat) : slotsBefore gap line k (m + n) =
    slotsBefore gap line k m ++ slotsBefore gap line (k + m) n := by
  induction m generalizing k with
  | zero => rw [Nat.zero_add, Nat.add_zero, slotsBefore, nil_append]
  | succ m ih =>
    rw [show m + 1 + n = m + n + 1 by omega, slotsBefore, ih, slotsBefore,
      show k + 1 + m = k + (m + 1) by omega]
    simp only [append_assoc]

theorem slotsBefore_succ (gap line : Nat → List α) (k n : Nat) : slotsBefore gap line k (n + 1) =
    slotsBefore gap line k n ++ (gap (k + n) ++ line (k + n)) := by
  rw [slotsBefore_add, slotsBefore, slotsBefore, append_nil]

theorem slots_add (gap line : Nat → List α) (k m n : Nat) :
    slots gap line k (m + n) = slotsBefore gap line k m ++ slots gap line (k + m) n := by
  induction m generalizing k with
  | zero => rw [Nat.zero_add, Nat.add_zero, slotsBefore, nil_append]
  | succ m ih =>
    rw [show m + 1 + n = m + n + 1 by omega, slots, ih, slotsBefore,
      show k + 1 + m = k + (m + 1) by omega]
    simp only [append_assoc]

theorem slotsBefore_congr (h : ∀ j, k ≤ j → j < k + n → gap j ++ line j = gap' j ++ line' j) :
    slotsBefore gap line k n = slotsBefore gap' line' k n := by
  induction n generalizing k with
  | zero => rfl
  | succ n ih =>
    rw [slotsBefore, slotsBefore, h k le_rfl (by omega),
      ih fun j hj hlt => h j (by omega) (by omega)]

theorem slots_split (gap line : Nat → List α) (hk : k < n) : slots gap line 0 n =
    slotsBefore gap line 0 k ++ (gap k ++ line k ++ slots gap line (k + 1) (n - (k + 1))) := by
  have hlen : n = k + (n - (k + 1) + 1) := by omega
  nth_rewrite 1 [hlen]
  rw [slots_add, slots, Nat.zero_add]

theorem slots_end (gap line : Nat → List α) (n : Nat) :
    slots gap line 0 n = slotsBefore gap line 0 n ++ gap n := by
  have hadd := slots_add gap line 0 n 0
  rwa [Nat.add_zero, Nat.zero_add, slots] at hadd

theorem mem_slotsBefore (h : x ∈ slotsBefore gap line k n) :
    ∃ j, k ≤ j ∧ j < k + n ∧ (x ∈ gap j ∨ x ∈ line j) := by
  induction n generalizing k with
  | zero => cases h
  | succ n ih =>
    rw [slotsBefore] at h
    rcases mem_append.1 h with h | h
    · exact ⟨k, le_rfl, by omega, mem_append.1 h⟩
    · obtain ⟨j, hj, hlt, hx⟩ := ih h
      exact ⟨j, by omega, by omega, hx⟩

theorem mem_slotsBefore_of (hj : k ≤ j) (hlt : j < k + n) (hx : x ∈ gap j ∨ x ∈ line j) :
    x ∈ slotsBefore gap line k n := by
  induction n generalizing k with
  | zero => omega
  | succ n ih =>
    rw [slotsBefore]
    rcases Nat.lt_or_eq_of_le hj with hj | rfl
    · exact mem_append_right _ (ih (by omega) (by omega))
    · exact mem_append_left _ (mem_append.2 hx)

theorem slots_eq_nil (h : slots gap line k n = []) :
    (∀ j, k ≤ j → j ≤ k + n → gap j = []) ∧ ∀ j, k ≤ j → j < k + n → line j = [] := by
  induction n generalizing k with
  | zero =>
    refine ⟨fun j hj hle => ?_, fun j hj hlt => by omega⟩
    obtain rfl : j = k := by omega
    exact h
  | succ n ih =>
    rw [slots, append_eq_nil_iff, append_eq_nil_iff] at h
    obtain ⟨⟨hgap, hline⟩, hrest⟩ := h
    obtain ⟨hgaps, hlines⟩ := ih hrest
    refine ⟨fun j hj hle => ?_, fun j hj hlt => ?_⟩
    · rcases Nat.lt_or_eq_of_le hj with hj | rfl
      · exact hgaps j (by omega) (by omega)
      · exact hgap
    · rcases Nat.lt_or_eq_of_le hj with hj | rfl
      · exact hlines j (by omega) (by omega)
      · exact hline

theorem slots_sublist (gap line : Nat → List α) (k n : Nat) :
    List.Sublist (slots gap (fun _ => []) k n) (slots gap line k n) := by
  induction n generalizing k with
  | zero => exact List.Sublist.refl _
  | succ n ih =>
    rw [slots, slots]
    exact ((List.Sublist.refl _).append (nil_sublist _)).append (ih (k + 1))

theorem slots_congr (hgap : ∀ j, k ≤ j → j ≤ k + n → gap j = gap' j)
    (hline : ∀ j, k ≤ j → j < k + n → line j = line' j) :
    slots gap line k n = slots gap' line' k n := by
  induction n generalizing k with
  | zero => exact hgap k le_rfl le_rfl
  | succ n ih =>
    rw [slots, slots, hgap k le_rfl (by omega), hline k le_rfl (by omega),
      ih (fun j hj hle => hgap j (by omega) (by omega)) fun j hj hlt => hline j (by omega) (by omega)]

theorem slotsBefore_text (h : ∀ j, k ≤ j → j < k + n → gap j ++ line j = textLine text j) :
    slotsBefore gap line k n = (text.take (k + n)).drop k := by
  induction n generalizing k with
  | zero => simp [slotsBefore]
  | succ n ih =>
    rw [slotsBefore, h k le_rfl (by omega), ih fun j hj hlt => h j (by omega) (by omega), textLine]
    cases hk : text[k]? with
    | none =>
      have hlen := getElem?_eq_none_iff.1 hk
      rw [Option.toList_none, nil_append, drop_eq_nil_of_le (by simp; omega),
        drop_eq_nil_of_le (by simp; omega)]
    | some l =>
      obtain ⟨hlen, rfl⟩ := List.getElem?_eq_some_iff.1 hk
      have hlt : k < (text.take (k + (n + 1))).length := by simp; omega
      rw [Option.toList_some, drop_eq_getElem_cons hlt, getElem_take,
        singleton_append, Nat.add_right_comm, Nat.add_assoc]

theorem slotsBefore_nil (h : ∀ j, k ≤ j → j < k + n → gap j = [] ∧ line j = []) :
    slotsBefore gap line k n = [] := by
  induction n generalizing k with
  | zero => rfl
  | succ n ih =>
    obtain ⟨hgap, hline⟩ := h k le_rfl (by omega)
    rw [slotsBefore, hgap, hline, ih fun j hj hlt => h j (by omega) (by omega)]
    rfl

section Ascending
variable {es : List (RangeEdit α)}

section
variable (h : Ascending len i es)
include h

theorem Ascending.le : i ≤ len := by
  induction es generalizing i with
  | nil => exact h
  | cons e es ih =>
    obtain ⟨hstart, hstop, hrest⟩ := h
    exact hstart.trans (hstop.trans (ih hrest))

theorem Ascending.bounds (he : e ∈ es) :
    i ≤ e.start ∧ e.start ≤ e.stop ∧ e.stop ≤ len := by
  induction es generalizing i with
  | nil => cases he
  | cons f es ih =>
    obtain ⟨hstart, hstop, hrest⟩ := h
    rcases mem_cons.1 he with rfl | he
    · exact ⟨hstart, hstop, hrest.le⟩
    · obtain ⟨h1, h2, h3⟩ := ih hrest he
      exact ⟨by omega, h2, h3⟩

theorem Ascending.mono (hle : i' ≤ i) : Ascending len i' es := by
  cases es with
  | nil => exact hle.trans h
  | cons e es => exact ⟨hle.trans h.1, h.2⟩

theorem Ascending.filter (p : RangeEdit α → Bool) :
    Ascending len i (es.filter p) := by
  induction es generalizing i with
  | nil => exact h
  | cons e es ih =>
    obtain ⟨hstart, hstop, hrest⟩ := h
    rw [filter_cons]
    split
    · exact ⟨hstart, hstop, ih hrest⟩
    · exact (ih hrest).mono (hstart.trans hstop)

theorem Ascending.gapLines_of_lt (hk : k < i) : gapLines es k = [] := by
  have hnone : es.filter (fun e => e.start = k ∧ e.stop = k) = [] := by
    rw [filter_eq_nil_iff]
    intro e he
    have hbounds := h.bounds he
    simp only [decide_eq_true_eq]
    omega
  rw [gapLines, hnone, flatMap_nil]

theorem Ascending.coverOf_of_lt (hk : k < i) : coverOf es k = none := by
  rw [coverOf, find?_eq_none]
  intro e he
  have hbounds := h.bounds he
  simp only [decide_eq_true_eq]
  omega

end

theorem gapLines_cons_insert (hstart : e.start = k) (hstop : e.stop = k) :
    gapLines (e :: es) k = e.lines ++ gapLines es k := by
  rw [gapLines, filter_cons_of_pos (by simp [hstart, hstop]), flatMap_cons, ← gapLines]

theorem gapLines_cons_of_ne (h : ¬ (e.start = k ∧ e.stop = k)) :
    gapLines (e :: es) k = gapLines es k := by
  rw [gapLines, filter_cons_of_neg (by simpa using h), ← gapLines]

theorem coverOf_cons_pos (h : e.start ≤ k ∧ k < e.stop) : coverOf (e :: es) k = some e := by
  rw [coverOf, find?_cons_of_pos (by simpa using h)]

theorem coverOf_cons_neg (h : ¬ (e.start ≤ k ∧ k < e.stop)) :
    coverOf (e :: es) k = coverOf es k := by
  rw [coverOf, find?_cons_of_neg (by simpa using h), ← coverOf]

theorem coverOf_append (xs ys : List (RangeEdit α)) (k : Nat) :
    coverOf (xs ++ ys) k = (coverOf xs k).or (coverOf ys k) := by
  rw [coverOf, find?_append, ← coverOf, ← coverOf]

theorem gapLines_append (xs ys : List (RangeEdit α)) (k : Nat) :
    gapLines (xs ++ ys) k = gapLines xs k ++ gapLines ys k := by
  rw [gapLines, filter_append, flatMap_append, ← gapLines, ← gapLines]

theorem Ascending.coverOf_behind (h : Ascending len i (xs ++ es)) (hcover : coverOf xs k = some e) :
    coverOf es k = none := by
  induction xs generalizing i with
  | nil => cases hcover
  | cons x xs ih =>
    by_cases hx : x.start ≤ k ∧ k < x.stop
    · have hrest : coverOf (xs ++ es) k = none := h.2.2.coverOf_of_lt hx.2
      rw [coverOf_append, Option.or_eq_none_iff] at hrest
      exact hrest.2
    · rw [coverOf_cons_neg hx] at hcover
      exact ih h.2.2 hcover

theorem lineLines_cons_neg (h : ¬ (e.start ≤ k ∧ k < e.stop)) (line : Nat → List α) :
    lineLines line (e :: es) k = lineLines line es k := by
  rw [lineLines, coverOf_cons_neg h, ← lineLines]

theorem lineLines_of_none (h : coverOf es k = none) (line : Nat → List α) :
    lineLines line es k = line k := by
  rw [lineLines, h]

theorem lineLines_congr (h : coverOf es k = coverOf es' k) (line : Nat → List α) :
    lineLines line es k = lineLines line es' k := by
  rw [lineLines, h, ← lineLines]

end Ascending

section Moved
variable (gap line : Nat → List α) (len : Nat)

/-- Where the gap before line `k` is in the text made of the slots. -/
def movedTo (k : Nat) : Nat := (slotsBefore gap line 0 k).length

def moveEdit (f : RangeEdit α) : RangeEdit α :=
  ⟨movedTo gap line f.start + (gap f.start).length,
    if f.start = f.stop then movedTo gap line f.start + (gap f.start).length
    else movedTo gap line f.stop, f.lines⟩

theorem drop_movedTo (hk : k ≤ len) :
    (slots gap line 0 len).drop (movedTo gap line k) = slots gap line k (len - k) := by
  rw [← Nat.add_sub_cancel' hk, slots_add, Nat.zero_add, movedTo, drop_left,
    Nat.add_sub_cancel_left]

theorem slots_gap (k n : Nat) : ∃ rest, slots gap line k n = gap k ++ rest := by
  cases n with
  | zero => exact ⟨[], (append_nil _).symm⟩
  | succ n => exact ⟨line k ++ slots gap line (k + 1) n, append_assoc ..⟩

theorem take_drop_movedTo (hi : i ≤ c) (hc : c ≤ len) :
    ((slots gap line 0 len).take (movedTo gap line c + (gap c).length)).drop (movedTo gap line i) =
      slotsBefore gap line i (c - i) ++ gap c := by
  obtain ⟨rest, hrest⟩ := slots_gap gap line c (len - c)
  have htext : slots gap line 0 len = slotsBefore gap line 0 i ++
      (slotsBefore gap line i (c - i) ++ gap c ++ rest) := by
    rw [← Nat.add_sub_cancel' hc, slots_add, Nat.zero_add, hrest, ← Nat.add_sub_cancel' hi,
      slotsBefore_add, Nat.zero_add, Nat.add_sub_cancel_left]
    simp only [append_assoc]
  have hlen : movedTo gap line c + (gap c).length = (slotsBefore gap line 0 i ++
      (slotsBefore gap line i (c - i) ++ gap c)).length := by
    rw [movedTo, ← Nat.add_sub_cancel' hi, slotsBefore_add, Nat.zero_add, Nat.add_sub_cancel_left]
    simp only [length_append]
    omega
  rw [htext, ← append_assoc, hlen, take_left, movedTo, drop_left]

variable {len}

/-- Edits carried over to a text made of slots change the slots they name: an edit must find no
lines in the gaps inside its range, and an insertion none in its own gap. -/
theorem patchFrom_moved (hasc : Ascending len i fs)
    (hinsert : ∀ f ∈ fs, f.start = f.stop → gap f.start = [])
    (hinside : ∀ f ∈ fs, ∀ k, f.start < k → k < f.stop → gap k = []) :
    patchFrom (slots gap line 0 len) (movedTo gap line i) (fs.map (moveEdit gap line)) =
      slots (fun k => gap k ++ gapLines fs k) (lineLines line fs) i (len - i) := by
  induction fs generalizing i with
  | nil =>
    rw [map_nil, patchFrom, drop_movedTo gap line len hasc]
    exact slots_congr (fun j _ _ => (append_nil _).symm) fun j _ _ => rfl
  | cons f fs ih =>
    obtain ⟨hstart, hstop, hrest⟩ := hasc
    have hlen := hrest.le
    have hih := ih hrest (fun g hg => hinsert g (.tail _ hg)) fun g hg => hinside g (.tail _ hg)
    have hbefore : slotsBefore (fun k => gap k ++ gapLines (f :: fs) k)
        (lineLines line (f :: fs)) i (f.start - i) = slotsBefore gap line i (f.start - i) := by
      refine slotsBefore_congr fun j hj hlt => ?_
      have hj' : j < f.start := by omega
      rw [gapLines_cons_of_ne (by omega), hrest.gapLines_of_lt (by omega), append_nil,
        lineLines_cons_neg (by omega), lineLines_of_none (hrest.coverOf_of_lt (by omega))]
    have hsplit : slots (fun k => gap k ++ gapLines (f :: fs) k) (lineLines line (f :: fs)) i
        (len - i) = slotsBefore gap line i (f.start - i) ++
          slots (fun k => gap k ++ gapLines (f :: fs) k) (lineLines line (f :: fs)) f.start
            (len - f.start) := by
      rw [show len - i = f.start - i + (len - f.start) by omega, slots_add, hbefore,
        Nat.add_sub_cancel' hstart]
    rw [map_cons, patchFrom, hsplit]
    by_cases hkind : f.start = f.stop
    · have hgap := hinsert f mem_cons_self hkind
      have hmove : moveEdit gap line f =
          ⟨movedTo gap line f.start, movedTo gap line f.start, f.lines⟩ := by
        rw [moveEdit, if_pos hkind, hgap, length_nil, Nat.add_zero]
      have htake := take_drop_movedTo gap line len hstart (hkind ▸ hlen)
      rw [hgap, length_nil, Nat.add_zero, append_nil] at htake
      rw [← hkind] at hih hrest
      rw [hmove, htake, hih, append_assoc]
      congr 1
      have hcons : ∀ n, slots (fun k => gap k ++ gapLines (f :: fs) k) (lineLines line (f :: fs))
          f.start n = f.lines ++ slots (fun k => gap k ++ gapLines fs k) (lineLines line fs)
            f.start n := by
        intro n
        have hline : ∀ k, lineLines line (f :: fs) k = lineLines line fs k := fun k =>
          lineLines_cons_neg (by omega) line
        have hhere : gapLines (f :: fs) f.start = f.lines ++ gapLines fs f.start :=
          gapLines_cons_insert rfl hkind.symm
        cases n with
        | zero => rw [slots, slots, hhere, hgap, nil_append, nil_append]
        | succ n =>
          rw [slots, slots, hhere, hgap, hline, nil_append, nil_append]
          simp only [append_assoc]
          rw [slots_congr (fun j hj _ => by
            rw [gapLines_cons_of_ne (by omega)]) fun j _ _ => hline j]
      exact (hcons _).symm
    · have hmove : moveEdit gap line f = ⟨movedTo gap line f.start + (gap f.start).length,
          movedTo gap line f.stop, f.lines⟩ := by
        rw [moveEdit, if_neg hkind]
      have hlt : f.start < f.stop := by omega
      rw [hmove, take_drop_movedTo gap line len hstart (by omega), hih]
      have hrange : slots (fun k => gap k ++ gapLines (f :: fs) k) (lineLines line (f :: fs))
          f.start (len - f.start) = gap f.start ++ f.lines ++
            slots (fun k => gap k ++ gapLines fs k) (lineLines line fs) f.stop (len - f.stop) := by
        have hgone : slotsBefore (fun k => gap k ++ gapLines (f :: fs) k)
            (lineLines line (f :: fs)) (f.start + 1) (f.stop - f.start - 1) = [] := by
          refine slotsBefore_nil fun j hj hlt => ⟨?_, ?_⟩
          · rw [hinside f mem_cons_self j (by omega) (by omega),
              gapLines_cons_of_ne (by omega), hrest.gapLines_of_lt (by omega)]
            rfl
          · rw [lineLines, coverOf_cons_pos (by omega)]
            exact if_neg (by omega)
        have hfirst : lineLines line (f :: fs) f.start = f.lines := by
          rw [lineLines, coverOf_cons_pos (by omega)]
          exact if_pos rfl
        have hafter : slots (fun k => gap k ++ gapLines (f :: fs) k) (lineLines line (f :: fs))
            f.stop (len - f.stop) = slots (fun k => gap k ++ gapLines fs k) (lineLines line fs)
              f.stop (len - f.stop) :=
          slots_congr (fun j hj _ => by rw [gapLines_cons_of_ne (by omega)])
            fun j hj _ => lineLines_cons_neg (by omega) line
        have hfirstGap : gapLines (f :: fs) f.start = [] := by
          rw [gapLines_cons_of_ne (by omega), hrest.gapLines_of_lt hlt]
        rw [show len - f.start = f.stop - f.start - 1 + (len - f.stop) + 1 by omega, slots,
          slots_add, hgone, hfirst, hfirstGap, append_nil, nil_append,
          show f.start + 1 + (f.stop - f.start - 1) = f.stop by omega, hafter]
      rw [hrange]
      simp only [append_assoc]

end Moved

theorem lineLines_of_some {es : List (RangeEdit α)} (h : coverOf es k = some e) (line line' : Nat → List α) :
    lineLines line es k = lineLines line' es k := by
  rw [lineLines, lineLines, h]

theorem movedTo_text (text : List α) (hk : k ≤ text.length) :
    movedTo (fun _ => []) (textLine text) k = k := by
  rw [movedTo, slotsBefore_text fun j _ _ => nil_append _, Nat.zero_add, drop_zero,
    length_take, min_eq_left hk]

theorem slots_text (text : List α) (hk : k ≤ text.length) :
    slots (fun _ => []) (textLine text) k (text.length - k) = text.drop k := by
  rw [← Nat.add_zero (text.length - k), slots_add, slotsBefore_text fun j _ _ => nil_append _,
    Nat.add_sub_cancel' hk, take_length, slots, append_nil]

theorem patchFrom_eq_slots (text : List α) (h : Ascending text.length i es) :
    patchFrom text i es =
      slots (gapLines es) (lineLines (textLine text) es) i (text.length - i) := by
  have hsame : es.map (moveEdit (fun _ => []) (textLine text)) = es := by
    refine (map_congr_left fun e he => ?_).trans (map_id _)
    obtain ⟨_, hstop, hlen⟩ := h.bounds he
    ext1
    · rw [moveEdit, movedTo_text text (by omega)]
      rfl
    · rw [moveEdit, movedTo_text text (by omega), movedTo_text text hlen]
      dsimp only [length_nil, Nat.add_zero, id]
      split <;> omega
    · rfl
  have hmoved := patchFrom_moved (fun _ => []) (textLine text) h (fun _ _ _ => rfl)
    fun _ _ _ _ _ => rfl
  have htext := slots_text text (Nat.zero_le text.length)
  rw [Nat.sub_zero, drop_zero] at htext
  rw [htext, movedTo_text text h.le, hsame] at hmoved
  rw [hmoved]
  exact slots_congr (fun j _ _ => nil_append _) fun j _ _ => rfl

theorem patch_eq_slots (text : List α) (h : Ascending text.length 0 es) :
    patch text es = slots (gapLines es) (lineLines (textLine text) es) 0 text.length :=
  patchFrom_eq_slots text h

section Both
variable {text : List α} {es fs : List (RangeEdit α)}

/-- The edits carried over to the text that `es` makes of `text`, those left out that `es` has
already inserted. -/
def rebase [DecidableEq α] (text : List α) (es fs : List (RangeEdit α)) : List (RangeEdit α) :=
  (fs.filter fun f => ¬ (f.start = f.stop ∧ gapLines es f.start ≠ [])).map
    (moveEdit (gapLines es) (lineLines (textLine text) es))

/-- No edit of `fs` has an insertion of `es` inside its range. -/
def NotTorn (es fs : List (RangeEdit α)) : Prop :=
  ∀ f ∈ fs, ∀ k, f.start < k → k < f.stop → gapLines es k = []

def bothGaps (es fs : List (RangeEdit α)) (k : Nat) : List α :=
  if gapLines es k = [] then gapLines fs k else gapLines es k

/-- The lines under two patches, the second one over the first. -/
def bothLines (text : List α) (es fs : List (RangeEdit α)) (k : Nat) : List α :=
  lineLines (lineLines (textLine text) es) fs k

theorem gapLines_filter (p : RangeEdit α → Bool) (hp : ∀ f ∈ fs, f.start = k → f.stop = k → p f = true) :
    gapLines (fs.filter p) k = gapLines fs k := by
  rw [gapLines, gapLines, filter_filter]
  refine congrArg _ (filter_congr fun f hf => ?_)
  by_cases h : f.start = k ∧ f.stop = k
  · simp [h, hp f hf h.1 h.2]
  · simp [h]

theorem gapLines_filter_nil (p : RangeEdit α → Bool)
    (hp : ∀ f ∈ fs, f.start = k → f.stop = k → p f = false) : gapLines (fs.filter p) k = [] := by
  have hnone : (fs.filter p).filter (fun f => f.start = k ∧ f.stop = k) = [] := by
    rw [filter_eq_nil_iff]
    intro f hf hkind
    obtain ⟨hmem, hkept⟩ := mem_filter.1 hf
    simp only [decide_eq_true_eq] at hkind
    rw [hp f hmem hkind.1 hkind.2] at hkept
    cases hkept
  rw [gapLines, hnone, flatMap_nil]

theorem coverOf_filter (p : RangeEdit α → Bool) (hp : ∀ f ∈ fs, f.start < f.stop → p f = true) (k : Nat) :
    coverOf (fs.filter p) k = coverOf fs k := by
  rw [coverOf, coverOf, find?_filter]
  induction fs with
  | nil => rfl
  | cons f fs ih =>
    have hrest := ih fun g hg => hp g (.tail _ hg)
    by_cases hcover : f.start ≤ k ∧ k < f.stop
    · have hkept := hp f mem_cons_self (by omega)
      rw [find?_cons_of_pos (by simp [hkept, hcover]), find?_cons_of_pos (by simp [hcover])]
    · rw [find?_cons_of_neg (by simp [hcover]), find?_cons_of_neg (by simp [hcover]), hrest]

/-- One patch, and then the other carried over to the text it made. -/
theorem patch_rebase [DecidableEq α] (hes : Ascending text.length 0 es)
    (hfs : Ascending text.length 0 fs) (htorn : NotTorn es fs) :
    patch (patch text es) (rebase text es fs) =
      slots (bothGaps es fs) (bothLines text es fs) 0 text.length := by
  have hmoved := patchFrom_moved (gapLines es) (lineLines (textLine text) es)
    (hfs.filter fun f => ¬ (f.start = f.stop ∧ gapLines es f.start ≠ [])) (fun f hf hkind => by
      have hkept := (mem_filter.1 hf).2
      simp only [hkind, true_and, decide_eq_true_eq, ne_eq, not_not] at hkept
      rw [hkind, hkept])
    fun f hf k => htorn f (mem_filter.1 hf).1 k
  rw [patch, rebase, patch_eq_slots text hes, ← Nat.sub_zero text.length]
  refine hmoved.trans (slots_congr (fun k _ _ => ?_) fun k _ _ => ?_)
  · by_cases hgap : gapLines es k = []
    · rw [bothGaps, if_pos hgap, hgap, nil_append]
      refine gapLines_filter _ fun f _ hstart hstop => ?_
      simp [hstart, hgap]
    · rw [bothGaps, if_neg hgap]
      rw [gapLines_filter_nil _ fun f _ hstart hstop => by simp [hstart, hstop, hgap],
        append_nil]
  · refine lineLines_congr (coverOf_filter _ (fun f _ hlt => ?_) k) _
    simp only [decide_eq_true_eq]
    omega

theorem bothGaps_comm (h : gapLines es k = [] ∨ gapLines fs k = [] ∨ gapLines es k = gapLines fs k) :
    bothGaps es fs k = bothGaps fs es k := by
  unfold bothGaps
  by_cases hes : gapLines es k = []
  · by_cases hfs : gapLines fs k = []
    · rw [if_pos hes, if_pos hfs, hes, hfs]
    · rw [if_pos hes, if_neg hfs]
  · by_cases hfs : gapLines fs k = []
    · rw [if_neg hes, if_pos hfs]
    · rw [if_neg hes, if_neg hfs]
      exact (h.resolve_left hes).resolve_left hfs

theorem bothLines_comm (h : coverOf es k = none ∨ coverOf fs k = none) :
    bothLines text es fs k = bothLines text fs es k := by
  unfold bothLines
  rcases h with h | h
  · rw [lineLines_of_none h]
    unfold lineLines
    rw [h]
  · rw [lineLines_of_none h]
    unfold lineLines
    rw [h]

end Both

end Heddle.Lib.Patch
