import Mathlib.Data.List.Basic

namespace Heddle.Lib
open List

def slash : UInt8 := 47
def dot : UInt8 := 46

inductive PathComponent where
  | rootDir
  | curDir
  | parentDir
  | normal (name : List UInt8)
  deriving DecidableEq

def PathComponent.asOsStr : PathComponent → List UInt8
  | .rootDir => [slash]
  | .curDir => [dot]
  | .parentDir => [dot, dot]
  | .normal name => name

/-- The component between two slashes: an empty piece and a dot are none. -/
def pieceComponent (piece : List UInt8) : Option PathComponent :=
  if piece = [] ∨ piece = [dot] then none
  else if piece = [dot, dot] then some .parentDir
  else some (.normal piece)

/-- The components of a Unix path. A dot counts at the start of a relative path only. -/
def pathComponents (path : List UInt8) : List PathComponent :=
  let pieces := path.splitOn slash
  let start : List PathComponent :=
    if path.head? = some slash then [.rootDir]
    else if pieces.head? = some [dot] then [.curDir]
    else []
  start ++ pieces.filterMap pieceComponent

def pushPath (path part : List UInt8) : List UInt8 :=
  if part.head? = some slash then part
  else if path = [] ∨ path.getLast? = some slash then path ++ part
  else path ++ slash :: part

/-- A part that stands for a component of its own name. -/
def PlainPart (part : List UInt8) : Prop :=
  part ≠ [] ∧ slash ∉ part ∧ part ≠ [dot] ∧ part ≠ [dot, dot]

instance (part : List UInt8) : Decidable (PlainPart part) :=
  inferInstanceAs (Decidable (_ ∧ _ ∧ _ ∧ _))

theorem plainPart_of_head (hhead : part.head? = some b) (hb : b ≠ dot) (hslash : slash ∉ part) :
    PlainPart part := by
  refine ⟨?_, hslash, ?_, ?_⟩ <;> rintro rfl
  · cases hhead
  · exact hb (Option.some.inj hhead).symm
  · exact hb (Option.some.inj hhead).symm

theorem PlainPart.pieceComponent (h : PlainPart part) :
    pieceComponent part = some (.normal part) := by
  obtain ⟨hne, _, hdot, hdots⟩ := h
  rw [Lib.pieceComponent, if_neg (by simp [hne, hdot]), if_neg hdots]

theorem PlainPart.head (h : PlainPart part) : part.head? ≠ some slash := fun hhead =>
  h.2.1 (mem_of_head? hhead)

theorem PlainPart.getLast (h : PlainPart part) : part.getLast? ≠ some slash := fun hlast =>
  h.2.1 (mem_of_getLast? hlast)

def joinPath (parts : List (List UInt8)) : List UInt8 := [slash].intercalate parts

theorem joinPath_cons_cons (part next : List UInt8) (parts : List (List UInt8)) :
    joinPath (part :: next :: parts) = part ++ slash :: joinPath (next :: parts) := by
  simp only [joinPath, intercalate_cons_cons, append_assoc, singleton_append]

theorem pushPath_plain (hpath : path ≠ []) (hlast : path.getLast? ≠ some slash)
    (hpart : PlainPart part) : pushPath path part = path ++ slash :: part := by
  rw [pushPath, if_neg hpart.head, if_neg (by simp [hpath, hlast])]

theorem foldl_pushPath (hpath : path ≠ []) (hlast : path.getLast? ≠ some slash)
    (h : ∀ part ∈ parts, PlainPart part) :
    parts.foldl pushPath path = joinPath (path :: parts) := by
  induction parts generalizing path with
  | nil => simp [joinPath]
  | cons part parts ih =>
    have hpart := h part mem_cons_self
    have hend : (path ++ slash :: part).getLast? ≠ some slash := by
      rw [getLast?_append, getLast?_cons, Option.some_or]
      cases hp : part.getLast? with
      | none => exact absurd (getLast?_eq_none_iff.1 hp) hpart.1
      | some b =>
        have hb := hpart.getLast
        rwa [hp] at hb
    rw [foldl_cons, pushPath_plain hpath hlast hpart,
      ih (by simp) hend fun q hq => h q (mem_cons_of_mem _ hq)]
    cases parts with
    | nil => simp [joinPath]
    | cons next parts =>
      rw [joinPath_cons_cons, joinPath_cons_cons, joinPath_cons_cons, append_assoc,
        cons_append]

theorem foldl_pushPath_nil (h : ∀ part ∈ parts, PlainPart part) :
    parts.foldl pushPath [] = joinPath parts := by
  cases parts with
  | nil => rfl
  | cons part parts =>
    have hpart := h part mem_cons_self
    have hpush : pushPath [] part = part := by
      rw [pushPath, if_neg hpart.head, if_pos (.inl rfl), nil_append]
    rw [foldl_cons, hpush, foldl_pushPath hpart.1 hpart.getLast]
    exact fun q hq => h q (mem_cons_of_mem _ hq)

theorem pathComponents_joinPath (hne : parts ≠ []) (h : ∀ part ∈ parts, PlainPart part) :
    pathComponents (joinPath parts) = parts.map .normal := by
  have hsplit : (joinPath parts).splitOn slash = parts :=
    splitOn_intercalate slash (fun part hpart => (h part hpart).2.1) hne
  have hpieces : parts.filterMap pieceComponent = parts.map .normal := by
    rw [← filterMap_eq_map]
    exact filterMap_congr fun part hpart => (h part hpart).pieceComponent
  obtain ⟨part, rest, rfl⟩ := exists_cons_of_ne_nil hne
  have hpart := h part mem_cons_self
  have hroot : (joinPath (part :: rest)).head? ≠ some slash := by
    obtain ⟨b, bs, hb⟩ := exists_cons_of_ne_nil hpart.1
    have hhead := hpart.head
    cases rest with
    | nil => simpa [joinPath] using hhead
    | cons next rest =>
      rw [hb] at hhead ⊢
      rwa [joinPath_cons_cons]
  have hcur : (part :: rest).head? ≠ some [dot] := by
    rw [head?_cons]
    exact fun heq => hpart.2.2.1 (Option.some.inj heq)
  simp only [pathComponents, hsplit, hpieces, if_neg hroot, if_neg hcur, nil_append]

/-- A part that ends every path and is none of their other parts: no path leads through another. -/
theorem prefix_of_terminal (hys : last ∉ ys) (h : xs ++ [last] <+: ys ++ [last]) : xs = ys := by
  obtain ⟨rest, hrest⟩ := h
  rcases eq_nil_or_concat rest with rfl | ⟨front, b, rfl⟩
  · rw [append_nil] at hrest
    exact append_cancel_right hrest
  · rw [concat_eq_append, ← append_assoc] at hrest
    obtain ⟨heq, _⟩ := append_inj' hrest rfl
    exact absurd (heq ▸ mem_append_left front (mem_append_right xs mem_cons_self)) hys

end Heddle.Lib
