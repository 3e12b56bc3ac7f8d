import Mathlib.Data.Nat.Log
import Mathlib.Tactic.Ring

namespace Heddle.Lib
open List

def leBytes : Nat → Nat → List UInt8
  | 0, _ => []
  | width + 1, n => UInt8.ofNat (n % 256) :: leBytes width (n / 256)

def ofLeBytes : List UInt8 → Nat
  | [] => 0
  | b :: bytes => b.toNat + 256 * ofLeBytes bytes

@[simp] theorem length_leBytes (width n : Nat) : (leBytes width n).length = width := by
  induction width generalizing n with
  | zero => rfl
  | succ width ih => simp only [leBytes, length_cons, ih]

theorem ofLeBytes_leBytes_mod (width n : Nat) : ofLeBytes (leBytes width n) = n % 256 ^ width := by
  induction width generalizing n with
  | zero =>
    simp only [leBytes, ofLeBytes, pow_zero]
    omega
  | succ width ih =>
    have hbyte : (UInt8.ofNat (n % 256)).toNat = n % 256 := by
      rw [UInt8.toNat_ofNat']
      omega
    rw [leBytes, ofLeBytes, ih, hbyte, pow_succ', Nat.mod_mul]

theorem ofLeBytes_leBytes (h : n < 256 ^ width) :
    ofLeBytes (leBytes width n) = n := by
  rw [ofLeBytes_leBytes_mod, Nat.mod_eq_of_lt h]

theorem ofLeBytes_lt (bytes : List UInt8) : ofLeBytes bytes < 256 ^ bytes.length := by
  induction bytes with
  | nil => exact Nat.one_pos
  | cons b bytes ih =>
    have hb := b.toNat_lt
    simp only [ofLeBytes, length_cons, pow_succ]
    omega

theorem leBytes_ofLeBytes (bytes : List UInt8) :
    leBytes bytes.length (ofLeBytes bytes) = bytes := by
  induction bytes with
  | nil => rfl
  | cons b bytes ih =>
    have hb := b.toNat_lt
    have hmod : (b.toNat + 256 * ofLeBytes bytes) % 256 = b.toNat := by omega
    have hdiv : (b.toNat + 256 * ofLeBytes bytes) / 256 = ofLeBytes bytes := by omega
    simp only [length_cons, leBytes, ofLeBytes, hmod, hdiv, ih, UInt8.ofNat_toNat]

theorem leBytes_of_length (h : bytes.length = width) :
    leBytes width (ofLeBytes bytes) = bytes := by
  rw [← h, leBytes_ofLeBytes]

theorem leBytes_inj (hn : n < 256 ^ width) (hm : m < 256 ^ width)
    (h : leBytes width n = leBytes width m) : n = m := by
  rw [← ofLeBytes_leBytes hn, h, ofLeBytes_leBytes hm]

theorem or_shiftLeft_eq_add (h : low < 2 ^ shift) (n : Nat) :
    low ||| n <<< shift = low + n * 2 ^ shift := by
  rw [Nat.or_comm, ← Nat.shiftLeft_add_eq_or_of_lt h, Nat.shiftLeft_eq, Nat.add_comm]

def sliceAt (data : List UInt8) (offset len : Nat) : Option (List UInt8) :=
  if offset + len ≤ data.length then some ((data.drop offset).take len) else none

theorem sliceAt_eq_some :
    sliceAt data offset len = some slice ↔
      ∃ before after, data = before ++ slice ++ after ∧ before.length = offset ∧
        slice.length = len := by
  constructor
  · intro h
    rw [sliceAt] at h
    split at h
    · rename_i hle
      obtain rfl := Option.some.inj h
      have hsplit : data = data.take offset ++ (data.drop offset).take len ++
          (data.drop offset).drop len := by
        rw [append_assoc, take_append_drop, take_append_drop]
      refine ⟨_, _, hsplit, ?_, ?_⟩
      · rw [length_take]
        omega
      · rw [length_take, length_drop]
        omega
    · cases h
  · rintro ⟨before, after, rfl, rfl, rfl⟩
    have hle : before.length + slice.length ≤ (before ++ slice ++ after).length := by
      simp only [length_append]
      omega
    rw [sliceAt, if_pos hle, append_assoc, drop_left, take_left]

theorem sliceAt_isSome (data : List UInt8) (offset len : Nat) :
    (sliceAt data offset len).isSome ↔ offset + len ≤ data.length := by
  rw [sliceAt]
  split <;> simp_all

def BytesAt (data : List UInt8) (offset : Nat) (bytes : List UInt8) : Prop :=
  ∃ before after, data = before ++ (bytes ++ after) ∧ before.length = offset

theorem BytesAt.append (h : BytesAt data offset (xs ++ ys)) :
    BytesAt data offset xs ∧ BytesAt data (offset + xs.length) ys := by
  obtain ⟨before, after, rfl, rfl⟩ := h
  refine ⟨⟨before, ys ++ after, by rw [append_assoc], rfl⟩, before ++ xs, after, ?_, ?_⟩
  · rw [append_assoc, append_assoc]
  · rw [length_append]

theorem BytesAt.cons (h : BytesAt data offset (b :: bytes)) :
    data[offset]? = some b ∧ BytesAt data (offset + 1) bytes := by
  obtain ⟨before, after, rfl, rfl⟩ := h
  refine ⟨?_, before ++ [b], after, ?_, ?_⟩
  · rw [getElem?_append_right (le_refl _), Nat.sub_self, cons_append,
      getElem?_cons_zero]
  · rw [append_assoc, singleton_append, cons_append]
  · rw [length_append, length_singleton]

section
variable (h : BytesAt data offset bytes)
include h

theorem BytesAt.sliceAt :
    sliceAt data offset bytes.length = some bytes := by
  obtain ⟨before, after, rfl, rfl⟩ := h
  exact sliceAt_eq_some.2 ⟨before, after, (append_assoc ..).symm, rfl, rfl⟩

theorem BytesAt.take_drop :
    (data.drop offset).take bytes.length = bytes := by
  obtain ⟨before, after, rfl, rfl⟩ := h
  rw [drop_left, take_left]

theorem BytesAt.le :
    offset + bytes.length ≤ data.length := by
  obtain ⟨before, after, rfl, rfl⟩ := h
  rw [length_append, length_append]
  omega

end

/-- The first `b` splits the list in what stands before and what stands behind it. -/
theorem split_of_findIdx? [DecidableEq α] {xs : List α} (h : xs.findIdx? (· = b) = some i) :
    xs = xs.take i ++ b :: xs.drop (i + 1) ∧ b ∉ xs.take i := by
  obtain ⟨hlt, hb, hbefore⟩ := findIdx?_eq_some_iff_getElem.1 h
  have hget : xs[i] = b := of_decide_eq_true hb
  apply And.intro
  · rw [← hget, ← drop_eq_getElem_cons hlt, take_append_drop]
  · intro hmem
    obtain ⟨j, hj, heq⟩ := getElem_of_mem hmem
    rw [length_take] at hj
    rw [getElem_take] at heq
    exact hbefore j (by omega) (decide_eq_true heq)
def putVarint (value : Nat) : List UInt8 :=
  if value < 0x80 then [UInt8.ofNat value]
  else (UInt8.ofNat value ||| 0x80) :: putVarint (value / 0x80)

theorem forall_byte {p : UInt8 → Prop} (h : ∀ i : Fin 256, p (UInt8.ofFin i)) (b : UInt8) : p b :=
  h b.toFin

theorem byte_bits : ∀ b : UInt8, ((b ||| 0x80) &&& 0x80 ≠ 0 ∧
    ((b ||| 0x80) &&& 0x7f).toNat = b.toNat % 0x80) ∧
    (b.toNat < 0x80 → b &&& 0x80 = 0 ∧ (b &&& 0x7f).toNat = b.toNat) :=
  forall_byte (by decide +kernel)

theorem last_group_bits (h : value < 0x80) :
    UInt8.ofNat value &&& 0x80 = 0 ∧ (UInt8.ofNat value &&& 0x7f).toNat = value := by
  have hbyte : (UInt8.ofNat value).toNat = value := by
    rw [UInt8.toNat_ofNat']
    omega
  obtain ⟨hlast, hvalue⟩ := (byte_bits (UInt8.ofNat value)).2 (by rwa [hbyte])
  exact ⟨hlast, hvalue.trans hbyte⟩

theorem group_bits (value : Nat) :
    (UInt8.ofNat value ||| 0x80) &&& 0x80 ≠ 0 ∧
      ((UInt8.ofNat value ||| 0x80) &&& 0x7f).toNat = value % 0x80 := by
  obtain ⟨hmore, hvalue⟩ := (byte_bits (UInt8.ofNat value)).1
  have hbyte : (UInt8.ofNat value).toNat = value % 256 := UInt8.toNat_ofNat'
  rw [hbyte, Nat.mod_mod_of_dvd value (by decide)] at hvalue
  exact ⟨hmore, hvalue⟩

theorem forall_of_shift {w u s s' : List α} {p : α → Prop} (h : w ++ s = u ++ (w ++ s'))
    (hne : u ≠ []) (hu : ∀ b ∈ u, p b) : ∀ b ∈ w, p b := by
  induction hlen : w.length using Nat.strong_induction_on generalizing w with
  | _ n ih =>
    rcases append_eq_append_iff.1 h with ⟨_, rfl, _⟩ | ⟨rest, rfl, hrest⟩
    · exact fun b hb => hu b (mem_append_left _ hb)
    · have hshorter : rest.length < n := by
        have hpos := length_pos_iff.2 hne
        rw [← hlen, length_append]
        omega
      rw [append_assoc] at hrest
      intro b hb
      rcases mem_append.1 hb with hb | hb
      · exact hu b hb
      · exact ih _ hshorter hrest.symm rfl b hb

end Heddle.Lib
