import Heddle.Object.Tree
import Heddle.Lib.Tiling
import Mathlib.Data.List.Basic

namespace Heddle.Merge
open Heddle.Lib List

abbrev Line := List UInt8

def newline : UInt8 := 10

def splitLines : Bytes → List Line
  | [] => []
  | b :: rest =>
    if b = newline then [b] :: splitLines rest
    else
      match splitLines rest with
      | [] => [[b]]
      | line :: lines => (b :: line) :: lines

theorem splitLines_flatten (bytes : Bytes) : (splitLines bytes).flatten = bytes := by
  induction bytes with
  | nil => rfl
  | cons b rest ih =>
    simp only [splitLines]
    split
    · rw [flatten_cons, ih, singleton_append]
    · cases h : splitLines rest with
      | nil =>
        rw [h, flatten_nil] at ih
        subst rest
        rfl
      | cons line lines =>
        rw [h, flatten_cons] at ih
        rw [flatten_cons, cons_append, ih]

def Terminated (line : Line) : Prop := ∃ body, line = body ++ [newline]

/-- A text that the next line can be appended to without being glued to the last one. -/
def Closed (bytes : Bytes) : Prop := bytes = [] ∨ Terminated bytes

theorem Terminated.ne_nil (h : Terminated line) : line ≠ [] := by
  obtain ⟨body, rfl⟩ := h
  simp

theorem Terminated.append (out : Bytes) (h : Terminated line) : Terminated (out ++ line) := by
  obtain ⟨body, rfl⟩ := h
  exact ⟨out ++ body, (append_assoc ..).symm⟩

theorem Terminated.closed (h : Terminated line) : Closed line := .inr h

theorem Closed.append (ho : Closed out) (hl : Closed line) : Closed (out ++ line) := by
  rcases hl with rfl | hl
  · rwa [append_nil]
  · exact .inr (hl.append out)

theorem Closed.flatten {lines : List Line} (h : ∀ l ∈ lines, Closed l) : Closed lines.flatten := by
  induction lines with
  | nil => exact .inl rfl
  | cons l ls ih =>
    exact (h l mem_cons_self).append (ih fun m hm => h m (mem_cons_of_mem _ hm))

theorem terminated_iff_getLast? : Terminated line ↔ line.getLast? = some newline := by
  constructor
  · rintro ⟨body, rfl⟩
    exact getLast?_concat
  · intro h
    obtain ⟨body, rfl⟩ := getLast?_eq_some_iff.1 h
    exact ⟨body, rfl⟩

instance (line : Line) : Decidable (Terminated line) :=
  decidable_of_iff _ terminated_iff_getLast?.symm

theorem splitLines_terminated (h : (splitLines bytes)[k]? = some l)
    (hk : k + 1 < (splitLines bytes).length) : Terminated l := by
  induction bytes generalizing k l with
  | nil => simp [splitLines] at h
  | cons b rest ih =>
    simp only [splitLines] at h hk
    split at h
    · rename_i hb
      rw [if_pos hb] at hk
      cases k with
      | zero =>
        obtain rfl : [b] = l := by simpa using h
        exact ⟨[], by rw [hb]; rfl⟩
      | succ k => exact ih (by simpa using h) (by simpa using hk)
    · rename_i hb
      rw [if_neg hb] at hk
      cases hs : splitLines rest with
      | nil => simp [hs] at hk
      | cons line lines =>
        simp only [hs, length_cons] at h hk ih
        cases k with
        | zero =>
          obtain rfl : b :: line = l := by simpa using h
          have hline := ih (k := 0) (l := line) rfl (by omega)
          exact hline.append [b]
        | succ k => exact ih (k := k + 1) (by simpa using h) hk

theorem splitLines_append (h : Closed out) (rest : Bytes) :
    splitLines (out ++ rest) = splitLines out ++ splitLines rest := by
  induction out with
  | nil => rfl
  | cons b bs ih =>
    have hbs : Closed bs ∨ (bs = [] ∧ b = newline) := by
      rcases h with h | ⟨body, h⟩
      · exact absurd h (cons_ne_nil _ _)
      · cases body with
        | nil =>
          obtain ⟨rfl, rfl⟩ := List.cons.inj h
          exact .inr ⟨rfl, rfl⟩
        | cons c body =>
          obtain ⟨rfl, hbs⟩ := List.cons.inj h
          exact .inl (.inr ⟨body, hbs⟩)
    by_cases hb : b = newline
    · have hcl : Closed bs := hbs.elim id (fun h => .inl h.1)
      simp only [cons_append, splitLines, if_pos hb, ih hcl]
    · obtain hcl | hcl := hbs
      · rcases hcl with rfl | hterm
        · exfalso
          rcases h with h | ⟨body, h⟩
          · exact cons_ne_nil _ _ h
          · have := congrArg List.getLast? h
            simp at this
            exact hb this
        · simp only [cons_append, splitLines, if_neg hb, ih (.inr hterm)]
          cases hs : splitLines bs with
          | nil =>
            have := splitLines_flatten bs
            rw [hs] at this
            exact absurd this.symm hterm.ne_nil
          | cons line lines => rfl
      · exact absurd hcl.2 hb

/-- `output_line_count`: newlines, plus one for an unterminated last line. -/
def outputLineCount (bytes : Bytes) : Nat :=
  bytes.count newline + if bytes.getLast?.any (· ≠ newline) then 1 else 0

theorem outputLineCount_eq_length (bytes : Bytes) :
    outputLineCount bytes = (splitLines bytes).length := by
  induction bytes with
  | nil => rfl
  | cons b rest ih =>
    by_cases hb : b = newline
    · subst b
      cases rest with
      | nil => rfl
      | cons c cs =>
        simp only [splitLines, if_pos, length_cons] at ih ⊢
        rw [← ih]
        simp only [outputLineCount, count_cons_self, getLast?_cons_cons]
        omega
    · cases rest with
      | nil => simp [outputLineCount, splitLines, hb]
      | cons c cs =>
        have hne : splitLines (c :: cs) ≠ [] := by
          intro h
          have := splitLines_flatten (c :: cs)
          rw [h] at this
          exact absurd this (by simp)
        obtain ⟨line, lines, hs⟩ := exists_cons_of_ne_nil hne
        have hlen : (splitLines (b :: c :: cs)).length = (splitLines (c :: cs)).length := by
          rw [splitLines, if_neg hb, hs]
          rfl
        rw [hlen, ← ih]
        simp only [outputLineCount, getLast?_cons_cons, count_cons_of_ne hb]

theorem outputLineCount_append (h : Closed out) (rest : Bytes) :
    outputLineCount (out ++ rest) = outputLineCount out + outputLineCount rest := by
  simp only [outputLineCount_eq_length, splitLines_append h, length_append]

inductive DiffOp where
  | equal (oldIndex newIndex len : Nat)
  | delete (oldIndex oldLen newIndex : Nat)
  | insert (oldIndex newIndex newLen : Nat)
  | replace (oldIndex oldLen newIndex newLen : Nat)
  deriving DecidableEq

/-- The operations, read from positions `i` and `j`, turn `old` into `new`. -/
def ValidFrom (old new : List Line) : Nat → Nat → List DiffOp → Prop
  | i, j, [] => i = old.length ∧ j = new.length
  | i, j, .equal o n len :: ops =>
    o = i ∧ n = j ∧ (∀ k < len, ∃ l, old[i + k]? = some l ∧ new[j + k]? = some l) ∧
      ValidFrom old new (i + len) (j + len) ops
  | i, j, .delete o len n :: ops =>
    o = i ∧ n = j ∧ i + len ≤ old.length ∧ ValidFrom old new (i + len) j ops
  | i, j, .insert o n len :: ops =>
    o = i ∧ n = j ∧ j + len ≤ new.length ∧ ValidFrom old new i (j + len) ops
  | i, j, .replace o len n len' :: ops =>
    o = i ∧ n = j ∧ 0 < len ∧ 0 < len' ∧ i + len ≤ old.length ∧ j + len' ≤ new.length ∧
      ValidFrom old new (i + len) (j + len') ops

def ValidScript (old new : List Line) (ops : List DiffOp) : Prop := ValidFrom old new 0 0 ops

section Alignment
variable (captureDiffSlices : List Line → List Line → List DiffOp)

def alignOp (align : List (Option Nat)) : DiffOp → List (Option Nat)
  | .equal oldIndex newIndex len =>
    (List.range len).foldl (fun align k => align.set (oldIndex + k) (some (newIndex + k))) align
  | _ => align

def buildAlignment (baseLines otherLines : List Line) : List (Option Nat) :=
  (captureDiffSlices baseLines otherLines).foldl alignOp (List.replicate baseLines.length none)

end Alignment

/-- Every aligned base line has an equal counterpart in `other`. -/
def Aligned (base other : List Line) (align : List (Option Nat)) : Prop :=
  ∀ k m, align.getD k none = some m → ∃ l, base[k]? = some l ∧ other[m]? = some l

section
variable (ha : Aligned base other align)
include ha

theorem aligned_set (heq : ∃ l, base[k]? = some l ∧ other[m]? = some l) :
    Aligned base other (align.set k (some m)) := by
  intro k' m' h
  rw [getD_eq_getElem?_getD, getElem?_set] at h
  split at h
  · split at h
    · rename_i hk _
      obtain rfl : m = m' := by simpa using h
      exact hk ▸ heq
    · simp at h
  · exact ha k' m' (by rwa [getD_eq_getElem?_getD])

theorem aligned_alignOp_equal
    (heq : ∀ k < len, ∃ l, base[i + k]? = some l ∧ other[j + k]? = some l) :
    Aligned base other (alignOp align (.equal i j len)) := by
  induction len with
  | zero => exact ha
  | succ len ih =>
    simp only [alignOp, range_succ, foldl_append, foldl_cons, foldl_nil]
    exact aligned_set (ih fun k hk => heq k (by omega)) (heq len (by omega))

theorem aligned_foldl (hv : ValidFrom base other i j ops) :
    Aligned base other (ops.foldl alignOp align) := by
  induction ops generalizing i j align with
  | nil => exact ha
  | cons op ops ih =>
    cases op with
    | equal o n len =>
      obtain ⟨rfl, rfl, heq, hv⟩ := hv
      exact ih (aligned_alignOp_equal ha heq) hv
    | delete o len n => exact ih ha hv.2.2.2
    | insert o n len => exact ih ha hv.2.2.2
    | replace o len n len' => exact ih ha hv.2.2.2.2.2.2

end

theorem buildAlignment_aligned (hv : ValidScript base other (captureDiffSlices base other)) :
    Aligned base other (buildAlignment captureDiffSlices base other) := by
  refine aligned_foldl (fun k m h => ?_) hv
  rw [getD_eq_getElem?_getD, getElem?_replicate] at h
  split at h <;> simp at h

end Heddle.Merge
