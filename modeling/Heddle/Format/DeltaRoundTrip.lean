import Heddle.Format.Delta

namespace Heddle.Format
open Heddle Heddle.Lib
open List hiding getElem?_eq_some_iff le_of_lt le_refl le_trans length lt_of_le_of_lt min not_lt

section Field

theorem byteOf_toNat (n i : Nat) : (byteOf n i).toNat = n / 256 ^ i % 256 :=
  UInt8.toNat_ofNat'

theorem mod_pow_succ_byte (n i : Nat) :
    n % 256 ^ (i + 1) = n % 256 ^ i + (byteOf n i).toNat * 256 ^ i := by
  rw [byteOf_toNat, pow_succ, Nat.mod_mul, Nat.mul_comm]

theorem or_byte (n i : Nat) :
    n % 256 ^ i ||| (byteOf n i).toNat <<< (8 * i) = n % 256 ^ (i + 1) := by
  have hpow : 256 ^ i = 2 ^ (8 * i) := by rw [Nat.pow_mul]
  have hlow : n % 256 ^ i < 2 ^ (8 * i) := by
    rw [← hpow]
    exact Nat.mod_lt _ (Nat.pow_pos (by omega))
  rw [or_shiftLeft_eq_add hlow, ← hpow, mod_pow_succ_byte]

def Announces (header : UInt8) (value : Nat) (flags : List FieldFlag) : Prop :=
  ∀ flag ∈ flags, header &&& flag.1 ≠ 0 ↔ byteOf value flag.2 ≠ 0

theorem takeField_putField (rest : Bytes)
    (hplaces : flags.map Prod.snd = range' i flags.length)
    (hheader : Announces header value flags) :
    takeField header flags (value % 256 ^ i) (putField value flags ++ rest) =
      (value % 256 ^ (i + flags.length), rest) := by
  induction flags generalizing i with
  | nil => rfl
  | cons flag flags ih =>
    rw [map_cons, length_cons, range'_succ, cons.injEq] at hplaces
    obtain ⟨hplace, hplaces⟩ := hplaces
    have hflag := hheader flag (.head _)
    have hrest := ih hplaces fun f hf => hheader f (.tail _ hf)
    rw [hplace] at hflag
    rw [putField, filterMap_cons, takeField, hplace, length_cons, Nat.add_comm flags.length,
      ← Nat.add_assoc]
    by_cases hzero : byteOf value i = 0
    · have hskip : value % 256 ^ i = value % 256 ^ (i + 1) := by
        rw [mod_pow_succ_byte, hzero]
        exact (Nat.zero_mul _ ▸ rfl)
      rw [if_neg (fun h => hflag.1 h hzero), if_neg (not_not.2 hzero), hskip]
      exact hrest
    · rw [if_pos (hflag.2 hzero), if_pos hzero]
      simp only [cons_append, headD_cons, tail_cons]
      rw [or_byte]
      exact hrest

theorem putField_length (value : Nat) (flags : List FieldFlag) :
    (putField value flags).length = (flags.filter fun flag => byteOf value flag.2 ≠ 0).length := by
  induction flags with
  | nil => rfl
  | cons flag flags ih =>
    by_cases hzero : byteOf value flag.2 = 0
    · rw [putField, filterMap_cons, filter_cons, if_neg (not_not.2 hzero),
        if_neg (by simp [hzero])]
      exact ih
    · rw [putField, filterMap_cons, filter_cons, if_pos hzero, if_pos (by simp [hzero]),
        length_cons, length_cons]
      exact congrArg Nat.succ ih

theorem filter_announced (h : Announces header value flags) :
    (flags.filter fun flag => header &&& flag.1 ≠ 0).length = (putField value flags).length := by
  rw [putField_length]
  congr 1
  apply filter_congr
  intro flag hflag
  exact decide_eq_decide.2 (h flag hflag)

def headerOf (o₁ o₂ o₃ s₀ s₁ s₂ : Bool) : UInt8 :=
  0x80 ||| 0x01 |||
    ((((0 : UInt8) ||| bif o₁ then 0x02 else 0) ||| bif o₂ then 0x04 else 0) |||
      bif o₃ then 0x08 else 0) |||
    ((((0 : UInt8) ||| bif s₀ then 0x10 else 0) ||| bif s₁ then 0x20 else 0) |||
      bif s₂ then 0x40 else 0)

theorem headerOf_bits : ∀ o₁ o₂ o₃ s₀ s₁ s₂ : Bool,
    headerOf o₁ o₂ o₃ s₀ s₁ s₂ &&& 0x80 ≠ 0 ∧ headerOf o₁ o₂ o₃ s₀ s₁ s₂ &&& 0x01 ≠ 0 ∧
    (headerOf o₁ o₂ o₃ s₀ s₁ s₂ &&& 0x02 ≠ 0 ↔ o₁ = true) ∧
    (headerOf o₁ o₂ o₃ s₀ s₁ s₂ &&& 0x04 ≠ 0 ↔ o₂ = true) ∧
    (headerOf o₁ o₂ o₃ s₀ s₁ s₂ &&& 0x08 ≠ 0 ↔ o₃ = true) ∧
    (headerOf o₁ o₂ o₃ s₀ s₁ s₂ &&& 0x10 ≠ 0 ↔ s₀ = true) ∧
    (headerOf o₁ o₂ o₃ s₀ s₁ s₂ &&& 0x20 ≠ 0 ↔ s₁ = true) ∧
    (headerOf o₁ o₂ o₃ s₀ s₁ s₂ &&& 0x40 ≠ 0 ↔ s₂ = true) := by decide

def copyHeader (offset size : Nat) : UInt8 :=
  0x80 ||| 0x01 ||| fieldFlags offset offsetFlags.tail ||| fieldFlags size sizeFlags

theorem copyHeader_eq (offset size : Nat) : copyHeader offset size =
    headerOf (byteOf offset 1 ≠ 0) (byteOf offset 2 ≠ 0) (byteOf offset 3 ≠ 0)
      (byteOf size 0 ≠ 0) (byteOf size 1 ≠ 0) (byteOf size 2 ≠ 0) := by
  have hflag : ∀ (p : Prop) [Decidable p] (cmd flag : UInt8),
      (if p then cmd ||| flag else cmd) = (cmd ||| bif decide p then flag else 0) := by
    intro p _ cmd flag
    by_cases hp : p
    · simp [hp]
    · simp [hp]
  simp only [copyHeader, headerOf, fieldFlags, offsetFlags, sizeFlags, tail_cons,
    foldl_cons, foldl_nil, hflag]

theorem copyHeader_announces (offset size : Nat) :
    copyHeader offset size &&& 0x80 ≠ 0 ∧ copyHeader offset size &&& 0x01 ≠ 0 ∧
      Announces (copyHeader offset size) offset offsetFlags.tail ∧
      Announces (copyHeader offset size) size sizeFlags := by
  obtain ⟨hcopy, hlow, h₁, h₂, h₃, h₄, h₅, h₆⟩ := headerOf_bits (byteOf offset 1 ≠ 0)
    (byteOf offset 2 ≠ 0) (byteOf offset 3 ≠ 0) (byteOf size 0 ≠ 0) (byteOf size 1 ≠ 0)
    (byteOf size 2 ≠ 0)
  rw [← copyHeader_eq] at hcopy hlow h₁ h₂ h₃ h₄ h₅ h₆
  simp only [decide_eq_true_eq] at h₁ h₂ h₃ h₄ h₅ h₆
  refine ⟨hcopy, hlow, ?_, ?_⟩
  · simp only [Announces, offsetFlags, tail_cons, forall_mem_cons]
    exact ⟨h₁, h₂, h₃, fun _ h => nomatch h⟩
  · simp only [Announces, sizeFlags, forall_mem_cons]
    exact ⟨h₄, h₅, h₆, fun _ h => nomatch h⟩

end Field

section Step
variable {base : Bytes} {maxOutput : UInt64}

/-- From output `acc` on, the delta decodes to `out`, wherever it stands. -/
def Yields (base : Bytes) (maxOutput : UInt64) (acc delta out : Bytes) : Prop :=
  ∀ pos, decodeFrom base maxOutput pos acc delta = .ok out

theorem Yields.nil (acc : Bytes) : Yields base maxOutput acc [] acc := by
  intro pos
  rw [decodeFrom]

theorem ensureOutputLimit_ok (h : currentLen + appendLen ≤ maxOutput.toNat) :
    ensureOutputLimit currentLen appendLen maxOutput = .ok () := by
  have hmax := maxOutput.toNat_lt
  exact bind_eq_ok.2 ⟨(), refuse_eq_ok.2 (by omega), refuse_eq_ok.2 (by omega)⟩

theorem Yields.literal {literal : Bytes} (hpos : literal ≠ []) (hlen : literal.length ≤ 128)
    (hmax : acc.length + literal.length ≤ maxOutput.toNat)
    (h : Yields base maxOutput (acc ++ literal) rest out) :
    Yields base maxOutput acc ((UInt8.ofNat literal.length - 1) :: (literal ++ rest)) out := by
  intro pos
  have hone : 1 ≤ literal.length := length_pos_iff.2 hpos
  have hbyte : (UInt8.ofNat literal.length - 1).toNat + 1 = literal.length := by
    have hnat : (UInt8.ofNat literal.length).toNat = literal.length := by
      rw [UInt8.toNat_ofNat']
      omega
    rw [UInt8.toNat_sub_of_le _ _ (by rw [UInt8.le_iff_toNat_le, hnat]; exact hone), hnat]
    change literal.length - 1 + 1 = _
    omega
  have hinsert : (UInt8.ofNat literal.length - 1) &&& 0x80 = 0 :=
    ((byte_bits _).2 (by omega)).1
  have hrest := h (pos + 1 + literal.length)
  rw [decodeFrom, if_pos hinsert, hbyte]
  refine bind_eq_ok.2 ⟨(), refuse_eq_ok.2 ?_, ?_⟩
  · rw [length_append]
    omega
  refine bind_eq_ok.2 ⟨(), ensureOutputLimit_ok hmax, ?_⟩
  rw [take_left, drop_left]
  exact hrest

theorem takeField_copy (hoffset : offset < 2 ^ 32) (hsize : size < 2 ^ 24) :
    takeField (copyHeader offset size) offsetFlags 0
        (byteOf offset 0 :: (putField offset offsetFlags.tail ++ putField size sizeFlags)) =
      (offset, putField size sizeFlags) ∧
    takeField (copyHeader offset size) sizeFlags 0 (putField size sizeFlags) = (size, []) := by
  obtain ⟨_, hlow, hoffsets, hsizes⟩ := copyHeader_announces offset size
  apply And.intro
  · have hfirst : 0 ||| (byteOf offset 0).toNat <<< (8 * 0) = offset % 256 ^ 1 := by
      rw [← or_byte offset 0, pow_zero, Nat.mod_one]
    have hread := takeField_putField (i := 1) (putField size sizeFlags) rfl hoffsets
    have hall : offset % 256 ^ (1 + offsetFlags.tail.length) = offset :=
      Nat.mod_eq_of_lt (by simpa [offsetFlags] using hoffset)
    rw [hall] at hread
    have hstep : takeField (copyHeader offset size) offsetFlags 0
        (byteOf offset 0 :: (putField offset offsetFlags.tail ++ putField size sizeFlags)) =
      takeField (copyHeader offset size) offsetFlags.tail
        (0 ||| (byteOf offset 0).toNat <<< (8 * 0))
        (putField offset offsetFlags.tail ++ putField size sizeFlags) := if_pos hlow
    rw [hstep, hfirst, hread]
  · have hread := takeField_putField (i := 0) [] rfl hsizes
    have hall : size % 256 ^ (0 + sizeFlags.length) = size :=
      Nat.mod_eq_of_lt (by simpa [sizeFlags] using hsize)
    rwa [hall, pow_zero, Nat.mod_one, append_nil] at hread

theorem expectedBytes_copyHeader (offset size : Nat) : expectedBytes (copyHeader offset size) =
    (byteOf offset 0 :: (putField offset offsetFlags.tail ++ putField size sizeFlags)).length := by
  obtain ⟨_, hlow, hoffsets, hsizes⟩ := copyHeader_announces offset size
  have hsplit : offsetFlags ++ sizeFlags = (0x01, 0) :: (offsetFlags.tail ++ sizeFlags) := rfl
  rw [expectedBytes, hsplit, filter_cons, if_pos (decide_eq_true hlow), filter_append,
    length_cons, length_append, filter_announced hoffsets, filter_announced hsizes,
    length_cons, length_append]

theorem Yields.copyInstruction (hoffset : offset < 2 ^ 32) (hpos : 0 < length)
    (hlen : length ≤ maxCopyLength) (hbase : offset + length ≤ base.length)
    (hmax : acc.length + length ≤ maxOutput.toNat)
    (h : Yields base maxOutput (acc ++ (base.drop offset).take length) rest out) :
    Yields base maxOutput acc (emitCopyInstruction offset length ++ rest) out := by
  intro pos
  rw [maxCopyLength] at hlen
  obtain ⟨size, hsize, hbytes, hlength⟩ : ∃ size < 2 ^ 24,
      emitCopyInstruction offset length = copyHeader offset size ::
        (byteOf offset 0 :: (putField offset offsetFlags.tail ++ putField size sizeFlags)) ∧
      (if size = 0 then 0x10000 else size) = length := by
    refine ⟨if length ≠ 0x10000 then length else 0, ?_, ?_, ?_⟩
    · split
      · omega
      · omega
    · rw [emitCopyInstruction, Nat.mod_eq_of_lt hoffset,
        Nat.mod_eq_of_lt (lt_of_le_of_lt hlen (by decide))]
      rfl
    · by_cases heq : length = 0x10000
      · rw [if_neg (not_not.2 heq), if_pos rfl, heq]
      · rw [if_pos heq, if_neg (by omega)]
  obtain ⟨hcopy, hlow, _, _⟩ := copyHeader_announces offset size
  obtain ⟨htakeOffset, htakeSize⟩ := takeField_copy hoffset hsize
  have hexpected := expectedBytes_copyHeader offset size
  have hne : copyHeader offset size ≠ 0x80 := by
    intro heq
    rw [heq] at hlow
    exact hlow (by decide)
  rw [hbytes, cons_append, decodeFrom, if_neg hcopy]
  generalize byteOf offset 0 :: (putField offset offsetFlags.tail ++ putField size sizeFlags) = fields
    at htakeOffset hexpected ⊢
  refine bind_eq_ok.2 ⟨(), refuse_eq_ok.2 hne, ?_⟩
  refine bind_eq_ok.2 ⟨(), refuse_eq_ok.2 ?_, ?_⟩
  · rw [hexpected, length_append]
    omega
  simp only [hexpected, take_left, drop_left, htakeOffset, htakeSize, hlength]
  refine bind_eq_ok.2 ⟨(), refuse_eq_ok.2 (by omega), ?_⟩
  refine bind_eq_ok.2 ⟨(), refuse_eq_ok.2 (not_lt.2 hbase), ?_⟩
  exact bind_eq_ok.2 ⟨(), ensureOutputLimit_ok hmax, h _⟩

theorem Yields.copy (hoffset : offset + length ≤ 2 ^ 32) (hbase : offset + length ≤ base.length)
    (hmax : acc.length + length ≤ maxOutput.toNat)
    (h : Yields base maxOutput (acc ++ (base.drop offset).take length) rest out) :
    Yields base maxOutput acc (emitCopy offset length ++ rest) out := by
  induction length using Nat.strong_induction_on generalizing offset acc with
  | _ length ih =>
    rw [emitCopy]
    by_cases hpos : 0 < length
    · have hchunk : 0 < min length maxCopyLength ∧ min length maxCopyLength ≤ length ∧
          min length maxCopyLength ≤ maxCopyLength := by
        simp only [maxCopyLength]
        omega
      rw [if_pos hpos]
      simp only
      generalize min length maxCopyLength = chunk at hchunk ⊢
      obtain ⟨hchunkPos, hchunkLe, hchunkMax⟩ := hchunk
      rw [append_assoc]
      have hcopied : ((base.drop offset).take chunk).length = chunk := by
        rw [length_take, length_drop]
        omega
      apply Yields.copyInstruction (by omega) hchunkPos hchunkMax (by omega) (by omega)
      apply ih (length - chunk) (by omega) (by omega) (by omega)
      · rw [length_append, hcopied]
        omega
      · have hsplit := take_add (l := base.drop offset) (i := chunk) (j := length - chunk)
        rw [Nat.add_sub_cancel' hchunkLe, drop_drop] at hsplit
        rw [append_assoc, ← hsplit]
        exact h
    · obtain rfl : length = 0 := by omega
      rw [if_neg hpos, nil_append]
      rwa [take_zero, append_nil] at h

end Step

section Match
variable {base target : Bytes} {index : DeltaIndex}

/-- A stretch of the base that the target repeats at `pos`, within reach of the copy instruction. -/
structure Matches (base target : Bytes) (pos offset length : Nat) : Prop where
  base_le : offset + length ≤ base.length
  target_le : pos + length ≤ target.length
  offset_le : offset + length ≤ 2 ^ 32
  same : (base.drop offset).take length = (target.drop pos).take length

def DeltaIndex.Within (index : DeltaIndex) (base : Bytes) : Prop :=
  ∀ entry ∈ index.entries, entry.offset.toNat ≤ base.length

theorem take_add_eq {xs ys : List α} (h : xs.take m = ys.take m)
    (h' : (xs.drop m).take n = (ys.drop m).take n) : xs.take (m + n) = ys.take (m + n) := by
  rw [take_add, take_add, h, h']

section
variable (hlen : len ≤ maxLen)
  (hsame : (base.drop basePos).take len = (target.drop targetPos).take len)
include hlen hsame

theorem matchChunks_spec :
    matchChunks base target basePos targetPos maxLen len ≤ maxLen ∧
      (base.drop basePos).take (matchChunks base target basePos targetPos maxLen len) =
        (target.drop targetPos).take (matchChunks base target basePos targetPos maxLen len) := by
  fun_induction matchChunks base target basePos targetPos maxLen len with
  | case1 len h ih =>
    apply ih h.1
    apply take_add_eq hsame
    rw [drop_drop, drop_drop]
    exact h.2
  | case2 len h => exact ⟨hlen, hsame⟩

theorem matchBytes_spec :
    matchBytes base target basePos targetPos maxLen len ≤ maxLen ∧
      (base.drop basePos).take (matchBytes base target basePos targetPos maxLen len) =
        (target.drop targetPos).take (matchBytes base target basePos targetPos maxLen len) := by
  fun_induction matchBytes base target basePos targetPos maxLen len with
  | case1 len h ih =>
    apply ih h.1
    apply take_add_eq hsame
    rw [drop_drop, drop_drop, take_one, take_one, head?_drop,
      head?_drop, h.2]
  | case2 len h => exact ⟨hlen, hsame⟩

end

theorem matchLength_spec (hoffset : offset ≤ base.length) (hword : offset < 2 ^ 32)
    (hpos : pos ≤ target.length) :
    Matches base target pos offset (matchLength base target offset pos) := by
  rw [matchLength]
  obtain ⟨maxLen, hmax⟩ : ∃ maxLen, min (min (base.length - offset) (target.length - pos))
      (2 ^ 32 - 1 - offset + 1) = maxLen := ⟨_, rfl⟩
  have hzero : (base.drop offset).take 0 = (target.drop pos).take 0 := rfl
  have hchunks := matchChunks_spec (Nat.zero_le maxLen) hzero
  have hbytes := matchBytes_spec hchunks.1 hchunks.2
  rw [hmax]
  exact ⟨by omega, by omega, by omega, hbytes.2⟩

theorem bestOf_matches (hentries : ∀ entry ∈ entries, entry.offset.toNat ≤ base.length)
    (hpos : pos ≤ target.length) (hbest : Matches base target pos best.1 best.2) :
    Matches base target pos (bestOf base target pos entries best).1
      (bestOf base target pos entries best).2 := by
  induction entries generalizing best with
  | nil => exact hbest
  | cons entry entries ih =>
    have hlength := matchLength_spec (hentries entry (.head _)) entry.offset.toNat_lt hpos
    have hnext : Matches base target pos
        (if matchLength base target entry.offset.toNat pos > best.2 then
          (entry.offset.toNat, matchLength base target entry.offset.toNat pos) else best).1
        (if matchLength base target entry.offset.toNat pos > best.2 then
          (entry.offset.toNat, matchLength base target entry.offset.toNat pos) else best).2 := by
      split
      · exact hlength
      · exact hbest
    rw [bestOf]
    generalize (if matchLength base target entry.offset.toNat pos > best.2 then
      (entry.offset.toNat, matchLength base target entry.offset.toNat pos) else best) = next
      at hnext ⊢
    split
    · exact hnext
    · exact ih (fun e he => hentries e (.tail _ he)) hnext

def KeyAt (target : Bytes) (pos : Nat) (key : Option UInt32) : Prop :=
  key.isSome → pos + 4 ≤ target.length

theorem targetKey_keyAt (target : Bytes) (pos : Nat) : KeyAt target pos (targetKey target pos) := by
  intro h
  rw [targetKey, Option.isSome_map, sliceAt_isSome] at h
  exact h

theorem rollTargetKey_keyAt (key : Option UInt32) (target : Bytes) (pos : Nat) :
    KeyAt target pos (rollTargetKey key target pos) := by
  intro h
  rw [rollTargetKey] at h
  cases hnext : target[pos + 3]? with
  | none =>
    rw [hnext] at h
    cases h
  | some next =>
    have hlt := (List.getElem?_eq_some_iff.1 hnext).1
    omega

theorem matches_zero (hpos : pos ≤ target.length) : Matches base target pos 0 0 :=
  ⟨Nat.zero_le _, hpos, Nat.zero_le _, rfl⟩

theorem findBestMatch_matches (hindex : index.Within base) (hkey : KeyAt target pos key)
    (hmin : 0 < minMatch)
    (h : findBestMatch base target index pos key minMatch = some (offset, length)) :
    Matches base target pos offset length ∧ 0 < length := by
  cases key with
  | none => cases h
  | some key =>
    have hpos := hkey rfl
    have hle : pos ≤ target.length := by omega
    have hzero : Matches base target pos ((0, 0) : Nat × Nat).1 ((0, 0) : Nat × Nat).2 :=
      matches_zero hle
    have hrun : ∀ entry ∈ index.entries.filter (fun entry => entry.key = key),
        entry.offset.toNat ≤ base.length := fun entry he => hindex entry (mem_of_mem_filter he)
    simp only [findBestMatch, Option.bind_eq_bind, Option.bind_some, Option.bind_eq_some_iff] at h
    generalize index.entries.filter (fun entry => entry.key = key) = offsets at hrun h
    obtain ⟨lowest, hlowest, h⟩ := h
    have hlow : ∀ entry ∈ [lowest], entry.offset.toNat ≤ base.length := by
      intro entry he
      rw [mem_singleton.1 he]
      exact hrun lowest (mem_of_head? hlowest)
    have hfirst := bestOf_matches hlow hle hzero
    split at h
    · split at h
      · rename_i hall
        have hlong : matchLength base target lowest.offset.toNat pos > ((0, 0) : Nat × Nat).2 := by
          simp only
          omega
        have hbest : bestOf base target pos [lowest] (0, 0) = (lowest.offset.toNat,
            matchLength base target lowest.offset.toNat pos) := by
          rw [bestOf, if_pos hlong, if_pos hall]
        rw [hbest] at h hfirst
        cases h
        exact ⟨hfirst, hlong⟩
      · split at h
        · rename_i hlong
          have hrecent : ∀ entry ∈ offsets.drop (offsets.length - (maxMatchCandidates - 1)),
              entry.offset.toNat ≤ base.length := fun e he => hrun e (mem_of_mem_drop he)
          have hbest := bestOf_matches hrecent hle hfirst
          rw [Option.some.inj h] at hbest hlong
          exact ⟨hbest, lt_of_lt_of_le hmin hlong⟩
        · cases h
    · split at h
      · rename_i hlong
        have hbest := bestOf_matches hrun hle hzero
        rw [Option.some.inj h] at hbest hlong
        exact ⟨hbest, lt_of_lt_of_le hmin hlong⟩
      · cases h

end Match

section Encode
variable {base target : Bytes} {index : DeltaIndex} {maxOutput : UInt64}

theorem literalRun_spec (index : DeltaIndex) (base : Bytes) (minMatch steps : Nat)
    (hpos : pos ≤ target.length) (hkey : KeyAt target pos key) :
    pos ≤ (literalRun index base target minMatch steps pos key).1 ∧
      (literalRun index base target minMatch steps pos key).1 ≤ target.length ∧
      (literalRun index base target minMatch steps pos key).1 ≤ pos + steps ∧
      KeyAt target (literalRun index base target minMatch steps pos key).1
        (literalRun index base target minMatch steps pos key).2 := by
  induction steps generalizing pos key with
  | zero => exact ⟨le_refl _, hpos, le_refl _, hkey⟩
  | succ steps ih =>
    rw [literalRun]
    split
    · rename_i hlt
      have hroll := rollTargetKey_keyAt key target (pos + 1)
      simp only
      split
      · exact ⟨Nat.le_succ _, hlt, by omega, hroll⟩
      · have hnextPos : pos + 1 ≤ target.length := hlt
        obtain ⟨hle, hend, hsteps, hnext⟩ := ih hnextPos hroll
        exact ⟨by omega, hend, by omega, hnext⟩
    · exact ⟨le_refl _, hpos, by omega, hkey⟩

theorem literalRun_pos_lt (index : DeltaIndex) (base : Bytes) (minMatch steps : Nat)
    (key : Option UInt32) (hpos : pos < target.length) :
    pos < (literalRun index base target minMatch (steps + 1) pos key).1 := by
  have hroll := rollTargetKey_keyAt key target (pos + 1)
  rw [literalRun, if_pos hpos]
  simp only
  split
  · exact Nat.lt_succ_self _
  · exact (literalRun_spec index base minMatch steps hpos hroll).1

/-- From a position on, the encoder writes what turns the target's front into the target. -/
theorem encodeFrom_yields (hindex : index.Within base) (hmin : 0 < minMatch)
    (hmax : target.length ≤ maxOutput.toNat) (hpos : pos ≤ target.length)
    (hkey : KeyAt target pos key) (hfuel : target.length - pos ≤ fuel) :
    Yields base maxOutput (target.take pos) (encodeFrom index base target minMatch fuel pos key)
      target := by
  induction fuel generalizing pos key with
  | zero =>
    obtain rfl : pos = target.length := by omega
    rw [encodeFrom, take_length]
    exact Yields.nil _
  | succ fuel ih =>
    have hfront : (target.take pos).length = pos := by
      rw [length_take]
      omega
    rw [encodeFrom]
    split
    · rename_i hlt
      split
      · rename_i offset length hfound
        obtain ⟨hmatch, hlength⟩ := findBestMatch_matches hindex hkey hmin hfound
        have htarget := hmatch.target_le
        apply Yields.copy hmatch.offset_le hmatch.base_le (by omega)
        rw [hmatch.same, ← take_add]
        exact ih htarget (targetKey_keyAt _ _) (by omega)
      · obtain ⟨_, hend, hsteps, hnext⟩ := literalRun_spec index base minMatch 127 hpos hkey
        have hstart := literalRun_pos_lt index base minMatch 126 key hlt
        simp only
        generalize literalRun index base target minMatch 127 pos key = run
          at hend hsteps hnext hstart ⊢
        have hlen : ((target.drop pos).take (run.1 - pos)).length = run.1 - pos := by
          rw [length_take, length_drop]
          omega
        have hne : (target.drop pos).take (run.1 - pos) ≠ [] := by
          apply length_pos_iff.1
          omega
        apply Yields.literal hne (by omega) (by omega)
        rw [← take_add, Nat.add_sub_cancel' (by omega)]
        exact ih hend hnext (by omega)
    · obtain rfl : pos = target.length := by omega
      rw [take_length]
      exact Yields.nil _

theorem encodeInsert_yields (hmax : acc.length + data.length ≤ maxOutput.toNat) :
    Yields base maxOutput acc (encodeInsert data) (acc ++ data) := by
  fun_induction encodeInsert data generalizing acc with
  | case1 =>
    rw [append_nil]
    exact Yields.nil _
  | case2 data hne ih =>
    have hpos := length_pos_iff.2 hne
    have hlen : (data.take 128).length = min 128 data.length := length_take
    have hchunk : data.take 128 ≠ [] := by
      apply length_pos_iff.1
      omega
    have hrest : (acc ++ data.take 128).length + (data.drop 128).length ≤ maxOutput.toNat := by
      rw [length_append, length_drop]
      omega
    have hsplit := ih hrest
    rw [append_assoc, take_append_drop] at hsplit
    rw [UInt8.ofNat_sub (by omega)]
    exact Yields.literal hchunk (by omega) (by omega) hsplit

theorem buildIndex_within (base : Bytes) : (buildIndex base).Within base := by
  intro entry he
  rw [buildIndex] at he
  split at he
  · cases he
  · simp only [mem_insertionSort, mem_map, mem_range] at he
    obtain ⟨i, hi, rfl⟩ := he
    generalize hlast : min (base.length - 4) (2 ^ 32 - 1) = lastOffset at hi ⊢
    generalize indexStride base.length lastOffset = stride at hi ⊢
    have hsample : i * stride ≤ lastOffset :=
      le_trans (Nat.mul_le_mul_right _ (Nat.lt_succ_iff.1 hi)) (Nat.div_mul_le_self _ _)
    have hcast : (UInt32.ofNat (i * stride)).toNat ≤ i * stride := by
      rw [UInt32.toNat_ofNat']
      exact Nat.mod_le _ _
    simp only
    omega

theorem minMatchFor_pos (targetLen : Nat) : 0 < minMatchFor targetLen := by
  rw [minMatchFor, minMatchLengthSmall, minMatchLengthLarge]
  split
  · decide
  · decide

theorem encodeWithIndex_yields (hindex : index.Within base)
    (hmax : target.length ≤ maxOutput.toNat) :
    Yields base maxOutput [] (encodeWithIndex index base target) target := by
  rw [encodeWithIndex]
  split
  · have hinsert : ([] : Bytes).length + target.length ≤ maxOutput.toNat := by
      rw [length_nil]
      omega
    exact encodeInsert_yields hinsert
  · exact encodeFrom_yields hindex (minMatchFor_pos _) hmax (Nat.zero_le _)
      (targetKey_keyAt _ _) (le_refl _)

/-- The decoder gives back the target of every delta the encoder writes, from any index over the
base. -/
theorem decode_encode {limit : UInt64} (hlimit : target.length ≤ limit.toNat) :
    decode base (encode base target) limit = .ok target ∧
      (buildIndex base).Within base ∧
      ∀ index : DeltaIndex, index.Within base →
        decode base (encodeWithIndex index base target) limit = .ok target := by
  refine ⟨?_, buildIndex_within base, fun index hindex => encodeWithIndex_yields hindex hlimit 0⟩
  have hyields := encodeWithIndex_yields (buildIndex_within base) hlimit
  rw [encode]
  split
  · rename_i hempty
    rw [encodeWithIndex, if_pos hempty] at hyields
    exact hyields 0
  · exact hyields 0

/-- A shifted copy between two literals. -/
theorem decode_encode_shifted :
    decode (utf8 "abcdefghijkl") (encode (utf8 "abcdefghijkl") (utf8 "xxbcdefghijklyy")) 64 =
      .ok (utf8 "xxbcdefghijklyy") :=
  (decode_encode (by decide +kernel)).1

end Encode

section Estimate
variable {target : Bytes}

theorem copyInstructionSizeOne_eq (offset length : Nat) :
    copyInstructionSizeOne offset length = (emitCopyInstruction offset length).length := by
  have hzero : (sizeFlags.filter fun flag => byteOf 0 flag.2 ≠ 0).length = 0 := rfl
  rw [copyInstructionSizeOne, emitCopyInstruction]
  simp only [length_cons, length_append, putField_length]
  split
  · omega
  · rw [hzero]
    omega

theorem copyInstructionSize_eq (offset remaining : Nat) :
    copyInstructionSize offset remaining = (emitCopy offset remaining).length := by
  fun_induction copyInstructionSize offset remaining with
  | case1 offset remaining hpos chunk ih =>
    rw [emitCopy, if_pos hpos, length_append, ← copyInstructionSizeOne_eq, ih]
  | case2 offset remaining hpos =>
    rw [emitCopy, if_neg hpos]
    rfl

theorem encodeInsert_length (data : Bytes) :
    (encodeInsert data).length = data.length + divCeil data.length 128 := by
  fun_induction encodeInsert data with
  | case1 => rfl
  | case2 data hne ih =>
    have hpos := length_pos_iff.2 hne
    rw [length_cons, length_append, ih, length_take, length_drop, divCeil,
      divCeil]
    omega

/-- Round for round the estimate counts what the encoder writes. -/
theorem estimateFrom_eq (index : DeltaIndex) (base : Bytes) (minMatch fuel : Nat)
    (hkey : KeyAt target pos key) :
    estimateFrom index base target minMatch fuel pos key =
      (encodeFrom index base target minMatch fuel pos key).length := by
  induction fuel generalizing pos key with
  | zero => rfl
  | succ fuel ih =>
    rw [estimateFrom, encodeFrom]
    split
    · rename_i hlt
      split
      · rw [length_append, copyInstructionSize_eq, ih (targetKey_keyAt _ _)]
      · obtain ⟨_, hend, _, hnext⟩ := literalRun_spec index base minMatch 127 (le_of_lt hlt) hkey
        simp only [length_cons, length_append, length_take, length_drop]
        rw [ih hnext]
        omega
    · rfl

theorem estimateDeltaSizeWithIndex_eq (index : DeltaIndex) (base target : Bytes) :
    estimateDeltaSizeWithIndex index base target = (encodeWithIndex index base target).length := by
  rw [estimateDeltaSizeWithIndex, encodeWithIndex]
  split
  · exact (encodeInsert_length target).symm
  · exact estimateFrom_eq index base _ _ (targetKey_keyAt _ _)

/-- The estimate of a delta's size is its length, from any index. -/
theorem estimateDeltaSize_exact (base target : Bytes) :
    estimateDeltaSize base target = (encode base target).length ∧
      ∀ index : DeltaIndex, estimateDeltaSizeWithIndex index base target =
        (encodeWithIndex index base target).length := by
  apply And.intro
  · rw [estimateDeltaSize, encode]
    split
    · exact (encodeInsert_length target).symm
    · exact estimateDeltaSizeWithIndex_eq _ base target
  · intro index
    exact estimateDeltaSizeWithIndex_eq index base target

end Estimate
end Heddle.Format
