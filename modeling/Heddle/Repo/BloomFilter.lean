import Heddle.Object.Encoding

namespace Heddle

abbrev Bloom := Vector UInt8 256

abbrev bloomBits : Nat := 2048

def bloomKey : Bytes := utf8 "heddle-changed-path-bloom-v1" ++ [0, 0, 0, 0]

namespace Bloom

def zero : Bloom := Vector.replicate 256 0

def mask (pos : Fin bloomBits) : UInt8 := 1 <<< UInt8.ofNat (pos.val % 8)

theorem byte_lt (pos : Fin bloomBits) : pos.val / 8 < 256 :=
  Nat.div_lt_of_lt_mul pos.isLt

def byteOf (bits : Bloom) (pos : Fin bloomBits) : UInt8 := getElem bits (pos.val / 8) (byte_lt pos)

def setBit (bits : Bloom) (pos : Fin bloomBits) : Bloom :=
  bits.set (pos.val / 8) (byteOf bits pos ||| mask pos) (byte_lt pos)

def hasBit (bits : Bloom) (pos : Fin bloomBits) : Bool := byteOf bits pos &&& mask pos ≠ 0

/-- Nothing that is in the first filter is missing from the second. -/
def Within (bits bits' : Bloom) : Prop := ∀ pos, bits.hasBit pos → bits'.hasBit pos

theorem Within.refl (bits : Bloom) : bits.Within bits := fun _ h => h

theorem Within.trans {b₁ b₂ b₃ : Bloom} (h : b₁.Within b₂) (h' : b₂.Within b₃) : b₁.Within b₃ :=
  fun pos hpos => h' pos (h pos hpos)

theorem mask_ne_zero (pos : Fin bloomBits) : mask pos ≠ 0 := by
  have hsmall : ∀ k : Fin 8, (1 : UInt8) <<< UInt8.ofNat k.val ≠ 0 := by decide
  exact hsmall ⟨pos.val % 8, Nat.mod_lt _ (by decide)⟩

theorem or_and_ne_zero {a b m : UInt8} (h : a &&& m ≠ 0 ∨ b &&& m ≠ 0) : (a ||| b) &&& m ≠ 0 := by
  have hdistrib : (a ||| b) &&& m = (a &&& m) ||| (b &&& m) :=
    UInt8.toBitVec_inj.1 BitVec.and_or_distrib_right
  intro hzero
  rw [hdistrib, UInt8.or_eq_zero_iff] at hzero
  exact h.elim (fun ha => ha hzero.1) fun hb => hb hzero.2

theorem byteOf_setBit (bits : Bloom) (pos pos' : Fin bloomBits) :
    (bits.setBit pos).byteOf pos' =
      if pos.val / 8 = pos'.val / 8 then bits.byteOf pos ||| mask pos else bits.byteOf pos' := by
  rw [byteOf, setBit, Vector.getElem_set]
  rfl

theorem hasBit_setBit_self (bits : Bloom) (pos : Fin bloomBits) : (bits.setBit pos).hasBit pos := by
  rw [hasBit, decide_eq_true_iff, byteOf_setBit, if_pos rfl]
  apply or_and_ne_zero
  rw [UInt8.and_self]
  exact .inr (mask_ne_zero pos)

theorem within_setBit (bits : Bloom) (pos : Fin bloomBits) : bits.Within (bits.setBit pos) := by
  intro pos' h
  rw [hasBit, decide_eq_true_iff] at h ⊢
  rw [byteOf_setBit]
  by_cases hbyte : pos.val / 8 = pos'.val / 8
  · have heq : bits.byteOf pos = bits.byteOf pos' := by
      unfold byteOf
      simp only [hbyte]
    rw [if_pos hbyte, heq]
    exact or_and_ne_zero (.inl h)
  · rwa [if_neg hbyte]

end Bloom

def beforeLastSlash : List Char → Option (List Char)
  | [] => none
  | c :: cs =>
    match beforeLastSlash cs with
    | some before => some (c :: before)
    | none => if c = '/' then some [] else none

theorem beforeLastSlash_length (h : beforeLastSlash p = some q) : q.length < p.length := by
  induction p generalizing q with
  | nil => cases h
  | cons c cs ih =>
    rw [beforeLastSlash] at h
    cases hcs : beforeLastSlash cs with
    | some before =>
      rw [hcs] at h
      obtain rfl := Option.some.inj h
      exact Nat.succ_lt_succ (ih hcs)
    | none =>
      rw [hcs] at h
      change (if c = '/' then some [] else none) = some q at h
      split at h
      · obtain rfl := Option.some.inj h
        exact Nat.zero_lt_succ _
      · exact absurd h (Option.some_ne_none q).symm

theorem beforeLastSlash_append (q rest : List Char) : beforeLastSlash (q ++ '/' :: rest) =
    some ((beforeLastSlash rest).elim q fun before => q ++ '/' :: before) := by
  induction q with
  | nil =>
    rw [List.nil_append, beforeLastSlash]
    cases beforeLastSlash rest with
    | none => rfl
    | some before => rfl
  | cons c q ih =>
    rw [List.cons_append, beforeLastSlash, ih]
    cases beforeLastSlash rest with
    | none => rfl
    | some before => rfl

section Filter
-- `blake3::keyed_hash`.
variable (keyedHash : Bytes → Bytes → ContentHash)

def bloomPositions (path : String) : List (Fin bloomBits) :=
  let b := (keyedHash bloomKey (utf8 path)).bytes
  [Fin.ofNat bloomBits (b[0].toNat + 256 * b[1].toNat),
    Fin.ofNat bloomBits (b[2].toNat + 256 * b[3].toNat),
    Fin.ofNat bloomBits (b[4].toNat + 256 * b[5].toNat)]

def bloomInsertChars (bits : Bloom) (p : List Char) : Bloom :=
  let bits := (bloomPositions keyedHash (String.ofList p)).foldl Bloom.setBit bits
  match _ : beforeLastSlash p with
  | some q => bloomInsertChars bits q
  | none => bits
termination_by p.length
decreasing_by exact beforeLastSlash_length ‹_›

def bloomInsert (bits : Bloom) (path : String) : Bloom :=
  bloomInsertChars keyedHash bits path.toList

def bloomMaybeContains (bits : Bloom) (path : String) : Bool :=
  (bloomPositions keyedHash path).all bits.hasBit

theorem within_setBits (positions : List (Fin bloomBits)) (bits : Bloom) :
    bits.Within (positions.foldl Bloom.setBit bits) := by
  induction positions generalizing bits with
  | nil => exact Bloom.Within.refl bits
  | cons pos positions ih => exact (Bloom.within_setBit bits pos).trans (ih _)

theorem hasBit_setBits {positions : List (Fin bloomBits)} (bits : Bloom) (h : pos ∈ positions) :
    (positions.foldl Bloom.setBit bits).hasBit pos := by
  induction positions generalizing bits with
  | nil => cases h
  | cons pos' positions ih =>
    rcases List.mem_cons.1 h with rfl | h
    · exact within_setBits positions _ pos (bits.hasBit_setBit_self pos)
    · exact ih _ h

theorem bloomMaybeContains_mono (h : bits.Within bits')
    (hpath : bloomMaybeContains keyedHash bits path) : bloomMaybeContains keyedHash bits' path := by
  rw [bloomMaybeContains, List.all_eq_true] at hpath ⊢
  exact fun pos hpos => h pos (hpath pos hpos)

section
variable (bits : Bloom)

theorem bloomInsertChars_none (h : beforeLastSlash p = none) :
    bloomInsertChars keyedHash bits p =
      (bloomPositions keyedHash (String.ofList p)).foldl Bloom.setBit bits := by
  rw [bloomInsertChars]
  split
  · rename_i hq
    exact absurd (h.symm.trans hq) (Option.some_ne_none _).symm
  · rfl

theorem bloomInsertChars_some (h : beforeLastSlash p = some q) :
    bloomInsertChars keyedHash bits p = bloomInsertChars keyedHash
      ((bloomPositions keyedHash (String.ofList p)).foldl Bloom.setBit bits) q := by
  rw [bloomInsertChars]
  split
  · rename_i hq
    obtain rfl := Option.some.inj (h.symm.trans hq)
    rfl
  · rename_i hnone
    exact absurd (hnone.symm.trans h) (Option.some_ne_none q).symm

theorem within_bloomInsertChars (p : List Char) :
    bits.Within (bloomInsertChars keyedHash bits p) := by
  induction bits, p using bloomInsertChars.induct keyedHash with
  | case1 bits p bits' q hq ih =>
    rw [bloomInsertChars_some keyedHash bits hq]
    exact (within_setBits _ bits).trans ih
  | case2 bits p hp =>
    rw [bloomInsertChars_none keyedHash bits hp]
    exact within_setBits _ bits

theorem within_bloomInsert (path : String) :
    bits.Within (bloomInsert keyedHash bits path) :=
  within_bloomInsertChars keyedHash bits path.toList

theorem contains_setBits (path : String) : bloomMaybeContains keyedHash
    ((bloomPositions keyedHash path).foldl Bloom.setBit bits) path := by
  rw [bloomMaybeContains, List.all_eq_true]
  exact fun pos hpos => hasBit_setBits bits hpos

/-- A path is inserted with all the directories above it. -/
theorem bloomInsertChars_contains (h : p = q ∨ ∃ rest, p = q ++ '/' :: rest) :
    bloomMaybeContains keyedHash (bloomInsertChars keyedHash bits p) (String.ofList q) := by
  induction bits, p using bloomInsertChars.induct keyedHash with
  | case1 bits p bits' p' hp' ih =>
    rw [bloomInsertChars_some keyedHash bits hp']
    rcases h with rfl | ⟨rest, rfl⟩
    · exact bloomMaybeContains_mono keyedHash (within_bloomInsertChars keyedHash _ p')
        (contains_setBits keyedHash bits _)
    · apply ih
      rw [beforeLastSlash_append] at hp'
      obtain rfl := Option.some.inj hp'
      cases beforeLastSlash rest with
      | none => exact .inl rfl
      | some before => exact .inr ⟨before, rfl⟩
  | case2 bits p hp =>
    rw [bloomInsertChars_none keyedHash bits hp]
    rcases h with rfl | ⟨rest, rfl⟩
    · exact contains_setBits keyedHash bits _
    · rw [beforeLastSlash_append] at hp
      exact absurd hp (Option.some_ne_none _)

theorem bloomInsert_contains
    (h : path = directory ∨ ∃ rest, path.toList = directory.toList ++ '/' :: rest) :
    bloomMaybeContains keyedHash (bloomInsert keyedHash bits path) directory := by
  have hchars : path.toList = directory.toList ∨
      ∃ rest, path.toList = directory.toList ++ '/' :: rest :=
    h.imp_left (congrArg String.toList)
  have hcontains := bloomInsertChars_contains keyedHash bits hchars
  rwa [String.ofList_toList] at hcontains

end

end Filter

end Heddle
