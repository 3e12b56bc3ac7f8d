import Heddle.Lib.ByteCodec
import Mathlib.Data.List.Basic

namespace Heddle.Lib
open List

def percent : UInt8 := 37

def hexByte (n : UInt8) : UInt8 := if n < 10 then 48 + n else 55 + n

def toDigit16 (b : UInt8) : Option UInt8 :=
  if 48 ≤ b ∧ b ≤ 57 then some (b - 48)
  else if 65 ≤ b ∧ b ≤ 70 then some (b - 55)
  else if 97 ≤ b ∧ b ≤ 102 then some (b - 87)
  else none

def asciiLower (b : UInt8) : UInt8 := if 65 ≤ b ∧ b ≤ 90 then b + 32 else b

def foldCase (bytes : List UInt8) : List UInt8 := bytes.map asciiLower

@[simp] theorem foldCase_append (xs ys : List UInt8) :
    foldCase (xs ++ ys) = foldCase xs ++ foldCase ys :=
  map_append

theorem forall_nibble {p : UInt8 → Prop} (h : ∀ i : Fin 16, p (UInt8.ofNat i)) (hn : n < 16) :
    p n := by
  have hp := h ⟨n.toNat, hn⟩
  rwa [UInt8.ofNat_toNat] at hp

theorem toDigit16_hexByte (hn : n < 16) :
    toDigit16 (hexByte n) = some n ∧ toDigit16 (asciiLower (hexByte n)) = some n :=
  forall_nibble (p := fun n => toDigit16 (hexByte n) = some n ∧
    toDigit16 (asciiLower (hexByte n)) = some n) (by decide) hn

theorem toNat_high (b : UInt8) : (b >>> 4).toNat = b.toNat / 16 := by
  rw [UInt8.toNat_shiftRight]
  exact Nat.shiftRight_eq_div_pow b.toNat 4

theorem toNat_low (b : UInt8) : (b &&& 15).toNat = b.toNat % 16 := by
  rw [UInt8.toNat_and]
  exact Nat.and_two_pow_sub_one_eq_mod b.toNat 4

theorem high_lt (b : UInt8) : b >>> 4 < 16 := by
  have hb := b.toNat_lt
  rw [UInt8.lt_iff_toNat_lt, toNat_high]
  change b.toNat / 16 < 16
  omega

theorem low_lt (b : UInt8) : b &&& 15 < 16 := by
  rw [UInt8.lt_iff_toNat_lt, toNat_low]
  exact Nat.mod_lt _ (by decide)

theorem high_low (b : UInt8) : (b >>> 4) * 16 + (b &&& 15) = b := by
  have hb := b.toNat_lt
  apply UInt8.toNat_inj.1
  rw [UInt8.toNat_add, UInt8.toNat_mul, toNat_high, toNat_low]
  change (b.toNat / 16 * 16 % 256 + b.toNat % 16) % 256 = b.toNat
  omega

section Escape
variable (isPlain : UInt8 → Bool)

def escapeByte (b : UInt8) : List UInt8 :=
  if isPlain b then [b] else [percent, hexByte (b >>> 4), hexByte (b &&& 15)]

def escape (bytes : List UInt8) : List UInt8 := bytes.flatMap (escapeByte isPlain)

end Escape

def unescape : List UInt8 → Option (List UInt8)
  | [] => some []
  | [b] => if b = percent then none else some [b]
  | [b, c] => if b = percent then none else (b :: ·) <$> unescape [c]
  | b :: c :: d :: rest =>
    if b = percent then do
      let hi ← toDigit16 c
      let lo ← toDigit16 d
      ((hi * 16 + lo) :: ·) <$> unescape rest
    else (b :: ·) <$> unescape (c :: d :: rest)

theorem unescape_cons_of_ne (h : b ≠ percent) (rest : List UInt8) :
    unescape (b :: rest) = (b :: ·) <$> unescape rest := by
  match rest with
  | [] => simp [unescape, h]
  | [c] => simp [unescape, h]
  | c :: d :: rest => rw [unescape, if_neg h]

section RoundTrip
variable {isPlain : UInt8 → Bool} {fold : UInt8 → UInt8} (hpercent : isPlain percent = false)
  (hsign : fold percent = percent) (hplain : ∀ b, isPlain b = true → fold b = b)
  (hdigit : ∀ n < 16, toDigit16 (fold (hexByte n)) = some n)
include hpercent hsign hplain hdigit

theorem unescape_map_escapeByte (b : UInt8) (rest : List UInt8) :
    unescape ((escapeByte isPlain b).map fold ++ rest) = (b :: ·) <$> unescape rest := by
  unfold escapeByte
  split
  · rename_i hb
    have hne : b ≠ percent := by
      rintro rfl
      rw [hpercent] at hb
      cases hb
    rw [map_singleton, hplain b hb, singleton_append, unescape_cons_of_ne hne]
  · simp only [map_cons, map_nil, cons_append, nil_append, hsign]
    rw [unescape, if_pos rfl, hdigit _ (high_lt b), hdigit _ (low_lt b)]
    simp only [Option.bind_eq_bind, Option.bind_some, high_low]

/-- The reader gives the bytes back, also where a file system has changed the case of the digits. -/
theorem unescape_map_escape (bytes : List UInt8) :
    unescape ((escape isPlain bytes).map fold) = some bytes := by
  induction bytes with
  | nil => rw [escape, flatMap_nil, map_nil, unescape]
  | cons b bytes ih =>
    rw [escape, flatMap_cons, map_append,
      unescape_map_escapeByte hpercent hsign hplain hdigit, ← escape, ih]
    rfl

end RoundTrip

theorem unescape_escape (hpercent : isPlain percent = false) (bytes : List UInt8) :
    unescape (escape isPlain bytes) = some bytes := by
  have h : unescape ((escape isPlain bytes).map id) = some bytes :=
    unescape_map_escape hpercent rfl (fun _ _ => rfl) (fun n hn => (toDigit16_hexByte hn).1) bytes
  rwa [map_id] at h

theorem unescape_foldCase_escape (hpercent : isPlain percent = false)
    (hcase : ∀ b, isPlain b = true → asciiLower b = b) (bytes : List UInt8) :
    unescape (foldCase (escape isPlain bytes)) = some bytes :=
  unescape_map_escape hpercent (by decide) hcase (fun n hn => (toDigit16_hexByte hn).2) bytes

end Heddle.Lib
