import Mathlib.Data.List.Chain
import Mathlib.Data.List.Pairwise

namespace Heddle.Lib
open List

structure Range where
  start : Nat
  stop : Nat
  deriving DecidableEq

namespace Range

def Contains (r : Range) (k : Nat) : Prop := r.start ≤ k ∧ k < r.stop

def slice (r : Range) (xs : List α) : List α := (xs.take r.stop).drop r.start

def Before (r s : Range) : Prop := r.stop ≤ s.start

end Range

/-- The ranges follow each other without a gap or an overlap from `a` to `b`. -/
def Tiles (a : Nat) : List Range → Nat → Prop
  | [], b => a = b
  | r :: rs, b => r.start = a ∧ r.start ≤ r.stop ∧ Tiles r.stop rs b

section
variable (h : Tiles a rs b)
include h

theorem Tiles.le : a ≤ b := by
  induction rs generalizing a with
  | nil => exact le_of_eq h
  | cons r rs ih =>
    obtain ⟨rfl, hle, hrest⟩ := h
    exact hle.trans (ih hrest)

theorem Tiles.append (h' : Tiles b ss c) :
    Tiles a (rs ++ ss) c := by
  induction rs generalizing a with
  | nil =>
    obtain rfl : a = b := h
    exact h'
  | cons r rs ih =>
    obtain ⟨hs, hle, hrest⟩ := h
    exact ⟨hs, hle, ih hrest⟩

theorem Tiles.snoc (hle : b ≤ c) :
    Tiles a (rs ++ [⟨b, c⟩]) c :=
  h.append ⟨rfl, hle, rfl⟩

theorem Tiles.bounds (hr : r ∈ rs) :
    a ≤ r.start ∧ r.start ≤ r.stop ∧ r.stop ≤ b := by
  induction rs generalizing a with
  | nil => exact absurd hr not_mem_nil
  | cons s rs ih =>
    obtain ⟨hs, hle, hrest⟩ := h
    rcases mem_cons.1 hr with rfl | hr
    · exact ⟨hs.ge, hle, hrest.le⟩
    · obtain ⟨h1, h2, h3⟩ := ih hrest hr
      exact ⟨by omega, h2, h3⟩

theorem Tiles.pairwise_before :
    rs.Pairwise Range.Before := by
  induction rs generalizing a with
  | nil => exact .nil
  | cons r rs ih =>
    obtain ⟨_, _, hrest⟩ := h
    exact .cons (fun s hs => (hrest.bounds hs).1) (ih hrest)

theorem Tiles.existsUnique (ha : a ≤ k) (hb : k < b) :
    ∃! i : Fin rs.length, (rs.get i).Contains k := by
  induction rs generalizing a with
  | nil =>
    have : a = b := h
    omega
  | cons r rs ih =>
    obtain ⟨hs, hle, hrest⟩ := h
    by_cases hk : k < r.stop
    · refine ⟨⟨0, Nat.succ_pos _⟩, ⟨by simpa [hs] using ha, hk⟩, ?_⟩
      rintro ⟨i, hi⟩ hc
      cases i with
      | zero => rfl
      | succ i =>
        have hmem : rs.get ⟨i, Nat.lt_of_succ_lt_succ hi⟩ ∈ rs := get_mem _ _
        have hstart := (hrest.bounds hmem).1
        have hle' : (rs.get ⟨i, Nat.lt_of_succ_lt_succ hi⟩).start ≤ k := hc.1
        omega
    · obtain ⟨⟨i, hi⟩, hc, huniq⟩ := ih hrest (le_of_not_gt hk)
      refine ⟨⟨i + 1, Nat.succ_lt_succ hi⟩, hc, ?_⟩
      rintro ⟨j, hj⟩ hcj
      cases j with
      | zero => exact absurd hcj.2 hk
      | succ j =>
        have hij := huniq ⟨j, Nat.lt_of_succ_lt_succ hj⟩ hcj
        simp only [Fin.mk.injEq] at hij ⊢
        omega

end

theorem Tiles.flatten_slice (xs : List α) (h : Tiles a rs b) :
    (rs.map (fun r => r.slice xs)).flatten = (xs.take b).drop a := by
  induction rs generalizing a with
  | nil =>
    obtain rfl : a = b := h
    simp
  | cons r rs ih =>
    obtain ⟨rfl, hle, hrest⟩ := h
    have hb := hrest.le
    rw [map_cons, flatten_cons, ih hrest, Range.slice]
    have hsplit : (xs.take r.stop).drop r.start ++ (xs.take b).drop r.stop
        = ((xs.take b).take r.stop ++ (xs.take b).drop r.stop).drop r.start := by
      rw [take_take, min_eq_left hb, drop_append]
      by_cases hlen : r.start ≤ (xs.take r.stop).length
      · rw [Nat.sub_eq_zero_of_le hlen, drop_zero]
      · have hnil : (xs.take b).drop r.stop = [] := by
          rw [drop_eq_nil_iff, length_take]
          rw [length_take] at hlen
          omega
        simp [hnil]
    rw [hsplit, take_append_drop]

theorem Tiles.flatten_slice_all (xs : List α) (h : Tiles 0 rs xs.length) :
    (rs.map (fun r => r.slice xs)).flatten = xs := by
  rw [h.flatten_slice, take_length, drop_zero]

end Heddle.Lib
