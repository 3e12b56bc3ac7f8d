import Mathlib.Algebra.Order.Ring.Nat
import Mathlib.Algebra.BigOperators.Group.List.Basic

namespace Heddle.Lib
open List

def digitBytes (base n : Nat) : List UInt8 :=
  (Nat.toDigits base n).map fun c => UInt8.ofNat c.toNat

def ofDigitBytes (base value : Nat) (digits : List UInt8) : Nat :=
  digits.foldl (fun value digit => value * base + (digit.toNat - 48)) value

def IsDigitBelow (base : Nat) (digit : UInt8) : Prop := 48 ≤ digit.toNat ∧ digit.toNat < 48 + base

theorem digitBytes_of_lt (hten : base ≤ 10) (h : n < base) :
    digitBytes base n = [UInt8.ofNat (48 + n)] := by
  have hdigit : (Nat.digitChar n).toNat = 48 + n := by
    rw [Nat.toNat_digitChar_of_lt_ten (by omega)]
  rw [digitBytes, Nat.toDigits_of_lt_base h, map_singleton, hdigit]

theorem isDigitBelow_of_mem (h : digit ∈ digitBytes 10 n) : IsDigitBelow 10 digit := by
  obtain ⟨c, hc, rfl⟩ := mem_map.1 h
  have hdigit := Nat.isDigit_of_mem_toDigits (by omega) (by omega) hc
  simp only [Char.isDigit, Bool.and_eq_true, decide_eq_true_eq, UInt32.le_iff_toNat_le] at hdigit
  have hlower : 48 ≤ c.toNat := hdigit.1
  have hupper : c.toNat ≤ 57 := hdigit.2
  rw [IsDigitBelow, UInt8.toNat_ofNat']
  omega

theorem digitBytes_append (hbase : 1 < base) (hten : base ≤ 10) (hn : 0 < n) (hd : d < base) :
    digitBytes base n ++ [UInt8.ofNat (48 + d)] = digitBytes base (base * n + d) := by
  rw [← digitBytes_of_lt hten hd, digitBytes, digitBytes, digitBytes, ← map_append,
    Nat.toDigits_append_toDigits hbase hn hd]

theorem IsDigitBelow.ofNat (h : IsDigitBelow base digit) :
    UInt8.ofNat (48 + (digit.toNat - 48)) = digit := by
  rw [Nat.add_sub_cancel' h.1, UInt8.ofNat_toNat]

theorem digitBytes_ofDigitBytes (hbase : 1 < base) (hten : base ≤ 10) (hvalue : 0 < value)
    (hdigits : ∀ digit ∈ digits, IsDigitBelow base digit) :
    digitBytes base (ofDigitBytes base value digits) = digitBytes base value ++ digits := by
  induction digits generalizing value with
  | nil => rw [ofDigitBytes, foldl_nil, append_nil]
  | cons digit digits ih =>
    have hdigit := hdigits digit mem_cons_self
    have hlt : digit.toNat - 48 < base := by
      have hupper := hdigit.2
      omega
    have hnext : 0 < value * base + (digit.toNat - 48) :=
      Nat.add_pos_left (Nat.mul_pos hvalue (by omega)) _
    have hrest := ih hnext fun d hd => hdigits d (mem_cons_of_mem _ hd)
    rw [ofDigitBytes, foldl_cons, ← ofDigitBytes, hrest, Nat.mul_comm,
      ← digitBytes_append hbase hten hvalue hlt, hdigit.ofNat, append_assoc,
      singleton_append]

theorem digitBytes_of_numeral (hbase : 1 < base) (hten : base ≤ 10) (hne : digits ≠ [])
    (hhead : digits.head? ≠ some 48) (hdigits : ∀ digit ∈ digits, IsDigitBelow base digit) :
    digitBytes base (ofDigitBytes base 0 digits) = digits := by
  cases digits with
  | nil => exact absurd rfl hne
  | cons digit digits =>
    have hdigit := hdigits digit mem_cons_self
    have hfirst : digit.toNat ≠ 48 := by
      intro h
      apply hhead
      rw [head?_cons, UInt8.toNat_inj.1 (h.trans (by rfl : 48 = (48 : UInt8).toNat))]
    have hlower := hdigit.1
    have hupper := hdigit.2
    have hvalue : 0 < digit.toNat - 48 := by omega
    have hrest := digitBytes_ofDigitBytes hbase hten hvalue fun d hd =>
      hdigits d (mem_cons_of_mem _ hd)
    rw [ofDigitBytes, foldl_cons, ← ofDigitBytes, Nat.zero_mul, Nat.zero_add, hrest,
      digitBytes_of_lt hten (by omega), hdigit.ofNat, singleton_append]

def checkedAdd (bound total count : Nat) : Option Nat :=
  if total + count < bound then some (total + count) else none

theorem checkedAdd_eq_some : checkedAdd bound a b = some c ↔ c = a + b ∧ a + b < bound := by
  unfold checkedAdd
  split
  · rename_i hlt
    rw [Option.some.injEq]
    exact ⟨fun h => ⟨h.symm, hlt⟩, fun h => h.1.symm⟩
  · rename_i hge
    exact ⟨nofun, fun h => absurd h.2 hge⟩

theorem foldlM_checkedAdd (size : α → Nat) (xs : List α) (h : total < bound) :
    xs.foldlM (fun total x => checkedAdd bound total (size x)) total =
      if total + (xs.map size).sum < bound then some (total + (xs.map size).sum) else none := by
  induction xs generalizing total with
  | nil =>
    rw [foldlM_nil, map_nil, sum_nil, Nat.add_zero, if_pos h]
    rfl
  | cons x xs ih =>
    rw [foldlM_cons, map_cons, sum_cons, ← Nat.add_assoc, checkedAdd]
    by_cases hlt : total + size x < bound
    · rw [if_pos hlt]
      exact ih hlt
    · rw [if_neg hlt, if_neg (by omega)]
      rfl

def cappedAdd (bound total count : Nat) : Nat := min (total + count) (bound - 1)

theorem cappedAdd_of_lt (h : a + b < bound) : cappedAdd bound a b = a + b := by
  rw [cappedAdd]
  omega

theorem foldl_cappedAdd (size : α → Nat) (xs : List α) (h : total + (xs.map size).sum < bound) :
    xs.foldl (fun total x => cappedAdd bound total (size x)) total = total + (xs.map size).sum := by
  induction xs generalizing total with
  | nil => rfl
  | cons x xs ih =>
    rw [map_cons, sum_cons, ← Nat.add_assoc] at h
    rw [foldl_cons, cappedAdd_of_lt (by omega), ih h, map_cons, sum_cons, Nat.add_assoc]

end Heddle.Lib
