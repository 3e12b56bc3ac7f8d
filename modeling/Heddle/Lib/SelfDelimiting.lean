import Heddle.Lib.ByteCodec
import Mathlib.Logic.Function.Basic
import Mathlib.Data.List.Count

namespace Heddle.Lib
open List

/-- An encoding of the values with `P` that tells which value it is of and where it ends. -/
def SelfDelimiting (P : α → Prop) (encode : α → List UInt8) : Prop :=
  ∀ a b rest rest', P a → P b → encode a ++ rest = encode b ++ rest' → a = b ∧ rest = rest'

theorem append_sep_inj (hx : sep ∉ xs) (hy : sep ∉ ys) (h : xs ++ sep :: xs' = ys ++ sep :: ys') :
    xs = ys ∧ xs' = ys' := by
  induction xs generalizing ys with
  | nil =>
    cases ys with
    | nil =>
      cases h
      exact ⟨rfl, rfl⟩
    | cons y ys =>
      cases h
      exact absurd mem_cons_self hy
  | cons x xs ih =>
    cases ys with
    | nil =>
      cases h
      exact absurd mem_cons_self hx
    | cons y ys =>
      obtain ⟨rfl, htail⟩ := List.cons.inj h
      obtain ⟨rfl, hrest⟩ := ih (fun hmem => hx (.tail _ hmem)) (fun hmem => hy (.tail _ hmem)) htail
      exact ⟨rfl, hrest⟩

namespace SelfDelimiting
variable {P : α → Prop} {Q : β → Prop} {encode : α → List UInt8} {encode' : β → List UInt8}

theorem comp (h : SelfDelimiting P encode) (hf : Function.Injective f) :
    SelfDelimiting (fun b => P (f b)) (fun b => encode (f b)) := by
  intro a b rest rest' ha hb heq
  obtain ⟨hsame, hrest⟩ := h _ _ _ _ ha hb heq
  exact ⟨hf hsame, hrest⟩

theorem fixed (width : Nat) (hwidth : ∀ a, (encode a).length = width)
    (hinj : ∀ a b, P a → P b → encode a = encode b → a = b) : SelfDelimiting P encode := by
  intro a b rest rest' ha hb heq
  obtain ⟨hsame, hrest⟩ := append_inj heq (by rw [hwidth, hwidth])
  exact ⟨hinj a b ha hb hsame, hrest⟩

theorem terminated : SelfDelimiting (fun xs => 0 ∉ xs) (fun xs => xs ++ [0]) := by
  intro xs ys rest rest' hx hy heq
  rw [append_assoc, append_assoc] at heq
  exact append_sep_inj hx hy heq

theorem optional (h : SelfDelimiting P encode) :
    SelfDelimiting (fun o => ∀ a ∈ o, P a)
      (fun o => Option.elim o [0] fun a => 1 :: encode a) := by
  intro o p rest rest' ho hp heq
  cases o with
  | none =>
    cases p with
    | none => exact ⟨rfl, append_cancel_left heq⟩
    | some b => cases heq
  | some a =>
    cases p with
    | none => cases heq
    | some b =>
      have htail := (List.cons.inj heq).2
      obtain ⟨rfl, hrest⟩ := h _ _ _ _ (ho a rfl) (hp b rfl) htail
      exact ⟨rfl, hrest⟩

theorem number (width : Nat) : SelfDelimiting (fun n => n < 256 ^ width) (leBytes width) :=
  fixed width (length_leBytes width) fun _ _ ha hb h => leBytes_inj ha hb h

theorem prefixed (width : Nat) : SelfDelimiting (fun xs : List UInt8 => xs.length < 256 ^ width)
    (fun xs => leBytes width xs.length ++ xs) := by
  intro xs ys rest rest' hx hy heq
  rw [append_assoc, append_assoc] at heq
  obtain ⟨hlength, htail⟩ := number width _ _ _ _ hx hy heq
  exact append_inj htail hlength

theorem pair (h : SelfDelimiting P encode) (h' : SelfDelimiting Q encode') :
    SelfDelimiting (fun p : α × β => P p.1 ∧ Q p.2) (fun p => encode p.1 ++ encode' p.2) := by
  intro p q rest rest' hp hq heq
  rw [append_assoc, append_assoc] at heq
  obtain ⟨hfirst, htail⟩ := h _ _ _ _ hp.1 hq.1 heq
  obtain ⟨hsecond, hrest⟩ := h' _ _ _ _ hp.2 hq.2 htail
  exact ⟨Prod.ext hfirst hsecond, hrest⟩

theorem flatMap (h : SelfDelimiting P encode) {xs ys : List α} (hlength : xs.length = ys.length)
    (hx : ∀ x ∈ xs, P x) (hy : ∀ y ∈ ys, P y)
    (heq : xs.flatMap encode ++ rest = ys.flatMap encode ++ rest') : xs = ys ∧ rest = rest' := by
  induction xs generalizing ys with
  | nil =>
    obtain rfl := length_eq_zero_iff.1 hlength.symm
    exact ⟨rfl, heq⟩
  | cons x xs ih =>
    cases ys with
    | nil => cases hlength
    | cons y ys =>
      obtain ⟨hxHead, hxTail⟩ := forall_mem_cons.1 hx
      obtain ⟨hyHead, hyTail⟩ := forall_mem_cons.1 hy
      rw [flatMap_cons, flatMap_cons, append_assoc, append_assoc] at heq
      obtain ⟨rfl, htail⟩ := h _ _ _ _ hxHead hyHead heq
      obtain ⟨rfl, hrest⟩ := ih (Nat.succ_injective hlength) hxTail hyTail htail
      exact ⟨rfl, hrest⟩

theorem counted (h : SelfDelimiting P encode) (width : Nat) :
    SelfDelimiting (fun xs : List α => xs.length < 256 ^ width ∧ ∀ x ∈ xs, P x)
      (fun xs => leBytes width xs.length ++ xs.flatMap encode) := by
  intro xs ys rest rest' hx hy heq
  rw [append_assoc, append_assoc] at heq
  obtain ⟨hlength, htail⟩ := number width _ _ _ _ hx.1 hy.1 heq
  exact flatMap h hlength hx.2 hy.2 htail

end SelfDelimiting

section Separated
variable {sep : α} {xs ys xs' ys' zs : List α}

theorem append_sep_cases (h : xs ++ sep :: xs' = ys ++ sep :: ys') :
    xs = ys ∧ xs' = ys' ∨
      (∃ zs, xs = ys ++ sep :: zs ∧ ys' = zs ++ sep :: xs') ∨
      ∃ zs, ys = xs ++ sep :: zs ∧ xs' = zs ++ sep :: ys' := by
  induction xs generalizing ys with
  | nil =>
    cases ys with
    | nil =>
      cases h
      exact .inl ⟨rfl, rfl⟩
    | cons y ys =>
      cases h
      exact .inr (.inr ⟨ys, rfl, rfl⟩)
  | cons x xs ih =>
    cases ys with
    | nil =>
      cases h
      exact .inr (.inl ⟨xs, rfl, rfl⟩)
    | cons y ys =>
      obtain ⟨rfl, htail⟩ := List.cons.inj h
      rcases ih htail with ⟨rfl, hrest⟩ | ⟨zs, rfl, hrest⟩ | ⟨zs, rfl, hrest⟩
      · exact .inl ⟨rfl, hrest⟩
      · exact .inr (.inl ⟨zs, rfl, hrest⟩)
      · exact .inr (.inr ⟨zs, rfl, hrest⟩)

theorem sep_append_inj (hx : sep ∉ xs') (hy : sep ∉ ys') (h : xs ++ sep :: xs' = ys ++ sep :: ys') :
    xs = ys ∧ xs' = ys' := by
  rcases append_sep_cases h with hsame | ⟨zs, _, rfl⟩ | ⟨zs, _, rfl⟩
  · exact hsame
  · exact absurd (mem_append_right zs mem_cons_self) hy
  · exact absurd (mem_append_right zs mem_cons_self) hx

theorem exists_last_sep (h : sep ∈ xs) : ∃ ys zs, xs = ys ++ sep :: zs ∧ sep ∉ zs := by
  induction xs with
  | nil => cases h
  | cons x xs ih =>
    by_cases hrest : sep ∈ xs
    · obtain ⟨ys, zs, rfl, hzs⟩ := ih hrest
      exact ⟨x :: ys, zs, rfl, hzs⟩
    · obtain rfl := (mem_cons.1 h).resolve_right hrest
      exact ⟨[], xs, rfl, hrest⟩

variable [DecidableEq α]

theorem count_sep_append (xs ys : List α) :
    (xs ++ sep :: ys).count sep = xs.count sep + ys.count sep + 1 := by
  rw [count_append, count_cons_self, Nat.add_assoc]

theorem two_fields_inj (hx : sep ∉ xs) (hx' : sep ∉ xs') (h : xs ++ sep :: xs' = ys ++ sep :: ys') :
    xs = ys ∧ xs' = ys' := by
  have hcount := congrArg (List.count sep) h
  rw [count_sep_append, count_sep_append, count_eq_zero_of_not_mem hx,
    count_eq_zero_of_not_mem hx'] at hcount
  have hy : ys.count sep = 0 := by omega
  exact append_sep_inj hx (count_eq_zero.1 hy) h

end Separated

end Heddle.Lib
