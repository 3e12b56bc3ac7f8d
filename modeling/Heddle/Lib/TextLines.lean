import Mathlib.Data.List.TakeWhile

namespace Heddle.Lib
open List

section Lines
variable {sep : α} {lines lines' : List (List α)}

def unlines (sep : α) (lines : List (List α)) : List α := lines.flatMap (· ++ [sep])

@[simp] theorem unlines_nil : unlines sep [] = [] := rfl

@[simp] theorem unlines_cons (line : List α) :
    unlines sep (line :: lines) = line ++ sep :: unlines sep lines := by
  rw [unlines, flatMap_cons, append_assoc, singleton_append, ← unlines]

theorem unlines_append : unlines sep (lines ++ lines') = unlines sep lines ++ unlines sep lines' :=
  flatMap_append

theorem unlines_flatMap (f : β → List (List α)) (xs : List β) :
    unlines sep (xs.flatMap f) = xs.flatMap fun x => unlines sep (f x) := by
  induction xs with
  | nil => rfl
  | cons x xs ih => rw [flatMap_cons, unlines_append, ih, flatMap_cons]

theorem unlines_eq_intercalate (hne : lines ≠ []) :
    unlines sep lines = [sep].intercalate lines ++ [sep] := by
  induction lines with
  | nil => exact absurd rfl hne
  | cons line lines ih =>
    cases lines with
    | nil => simp
    | cons line' lines =>
      rw [unlines_cons, ih (cons_ne_nil _ _), intercalate_cons_cons, append_assoc,
        append_assoc, singleton_append]

theorem intercalate_cons_eq (between first : List α) (rest : List (List α)) :
    between.intercalate (first :: rest) = first ++ rest.flatMap (between ++ ·) := by
  induction rest generalizing first with
  | nil => simp
  | cons line rest ih =>
    rw [intercalate_cons_cons, ih, flatMap_cons, append_assoc, append_assoc]

/-- Below some lines that are not empty, the first empty line is where the last of them ends. -/
theorem unlines_takeWhile_nonempty (lines : List (List α)) (rest : List α) : ∃ rest',
    unlines sep lines ++ sep :: rest =
      unlines sep (lines.takeWhile (· ≠ [])) ++ sep :: rest' := by
  induction lines with
  | nil => exact ⟨rest, rfl⟩
  | cons line lines ih =>
    by_cases hline : line = []
    · refine ⟨unlines sep lines ++ sep :: rest, ?_⟩
      rw [takeWhile_cons_of_neg (by simpa using hline), hline]
      rfl
    · obtain ⟨rest', hrest⟩ := ih
      refine ⟨rest', ?_⟩
      rw [takeWhile_cons_of_pos (by simpa using hline), unlines_cons, unlines_cons,
        append_assoc, append_assoc, cons_append, cons_append, hrest]

end Lines

section Split
variable [DecidableEq α] {sep : α}

theorem unlines_splitOn (text : List α) : unlines sep (text.splitOn sep) = text ++ [sep] := by
  rw [unlines_eq_intercalate (splitOn_ne_nil sep text), intercalate_splitOn]

theorem not_mem_of_mem_splitOn {text line : List α} (h : line ∈ text.splitOn sep) : sep ∉ line := by
  induction text generalizing line with
  | nil =>
    rw [splitOn_nil] at h
    exact mem_singleton.1 h ▸ not_mem_nil
  | cons x text ih =>
    rw [splitOn_cons_eq_if_modifyHead] at h
    split at h
    · rcases mem_cons.1 h with rfl | h
      · exact not_mem_nil
      · exact ih h
    · rename_i hx
      cases hlines : text.splitOn sep with
      | nil => exact absurd hlines (splitOn_ne_nil sep text)
      | cons first rest =>
        rw [hlines, modifyHead_cons] at h
        rcases mem_cons.1 h with rfl | h
        · have hfirst := ih (hlines ▸ mem_cons_self)
          exact fun hmem => (mem_cons.1 hmem).elim (fun heq => hx (beq_iff_eq.2 heq.symm)) hfirst
        · exact ih (hlines ▸ mem_cons_of_mem first h)

theorem splitOn_unlines (hlines : ∀ line ∈ lines, sep ∉ line) :
    (unlines sep lines).splitOn sep = lines ++ [[]] := by
  induction lines with
  | nil => exact splitOn_nil sep
  | cons line lines ih =>
    rw [unlines_cons, splitOn_append_cons_self_of_not_mem (hlines line mem_cons_self),
      ih fun l hl => hlines l (mem_cons_of_mem _ hl), cons_append]

theorem unlines_inj (hlines : ∀ line ∈ lines, sep ∉ line) (hlines' : ∀ line ∈ lines', sep ∉ line) :
    unlines sep lines = unlines sep lines' ↔ lines = lines' := by
  refine ⟨fun h => ?_, congrArg _⟩
  have hsplit := congrArg (List.splitOn sep) h
  rw [splitOn_unlines hlines, splitOn_unlines hlines'] at hsplit
  exact append_cancel_right hsplit

end Split

end Heddle.Lib
