import Heddle.Object.CanonicalRoundTrip
import Heddle.Object.TreeStream

namespace Heddle
open Heddle.Lib List

/-- A salted body, or a raw flat one. -/
def IsRawBody (data : Bytes) : Prop :=
  isSaltedTree data ∨ (isCanonicalTree data ∧ headerVersion data = treeEncodingVersion)

instance (data : Bytes) : Decidable (IsRawBody data) :=
  inferInstanceAs (Decidable (_ ∨ _))

section Image
variable (blake3 : Bytes → ContentHash) (decompress : Bytes → Nat → Except String Bytes)
variable {t : Tree ContentHash}

theorem canonicalMagic_ne_salted : treeCanonicalMagic ≠ treeSaltedMagic := by decide

theorem canonicalMagic_ne_redacted : treeCanonicalMagic ≠ treeRedactedMagic := by decide

section
variable (h : t.encodeCanonical blake3 = .ok data)
include h

theorem Tree.logicalLen_of_encode :
    t.logicalLen < 2 ^ 64 := by
  cases hscheme : t.scheme with
  | v3Flat =>
    obtain ⟨_, payload, logicalLen, hbody, _⟩ := (encodeRaw_ok_iff blake3 hscheme).1 h
    obtain ⟨_, _, _, _, hsum, _⟩ := encodeBody_ok_iff.1 hbody
    rw [Tree.logicalLen, ← hsum]
    exact (positionedBody_counts hbody).2.2
  | v4Salted =>
    obtain ⟨hvalid, payload, logicalLen, hbody, _⟩ := (encodeSalted_ok_iff blake3 hscheme).1 h
    obtain ⟨_, _, _, _, hsum, hbound⟩ := encodeBody_ok_iff.1 hbody
    rw [← salted_logicalLen hvalid hscheme]
    rcases hbound with hnil | hbound
    · rw [hnil]
      exact Nat.two_pow_pos 64
    · rwa [hsum] at hbound

theorem Tree.validate_of_encode :
    t.validate = .ok () := by
  cases hscheme : t.scheme with
  | v3Flat => exact ((encodeRaw_ok_iff blake3 hscheme).1 h).1
  | v4Salted => exact ((encodeSalted_ok_iff blake3 hscheme).1 h).1

theorem Tree.encodeCanonical_magic :
    data.take 4 = (if t.scheme = .v4Salted then treeSaltedMagic else treeCanonicalMagic) ∧
      (t.scheme = .v3Flat → headerVersion data = treeEncodingVersion ∧
        treeHeaderLen ≤ data.length) := by
  cases hscheme : t.scheme with
  | v3Flat =>
    obtain ⟨_, payload, logicalLen, _, rfl⟩ := (encodeRaw_ok_iff blake3 hscheme).1 h
    have hlen := TreeHeader.encode_length
      { version := treeEncodingVersion, treeId := t.hash blake3, entryCount := t.entries.length,
        payloadLen := payload.length, logicalLen := logicalLen } canonicalMagic_length
    refine ⟨(TreeHeader.encode_split _ payload canonicalMagic_length).1, fun _ => ⟨?_, ?_⟩⟩
    · rw [headerVersion_encode _ payload canonicalMagic_length]
    · rw [length_append, hlen]
      omega
  | v4Salted =>
    obtain ⟨_, payload, logicalLen, _, rfl⟩ := (encodeSalted_ok_iff blake3 hscheme).1 h
    exact ⟨(TreeHeader.encode_split _ payload saltedMagic_length).1, fun h => (nomatch h)⟩

end

theorem Tree.decodeCanonical_salted (hmagic : isSaltedTree data) :
    decodeCanonical blake3 decompress data = decodeSaltedV4 blake3 data := by
  rw [decodeCanonical, if_pos hmagic]

theorem Tree.decodeCanonical_headered (hmagic : isCanonicalTree data) :
    decodeCanonical blake3 decompress data = (do
      let header ← decodeHeader data
      if header.version = treeBlockEncodingVersion then
        decodeCanonicalStreamed blake3 decompress data
      else decodeRaw blake3 data header) := by
  have hcanonical : data.take 4 = treeCanonicalMagic := of_decide_eq_true hmagic
  have hsalted : ¬isSaltedTree data := by
    rw [isSaltedTree, hcanonical, decide_eq_true_iff]
    exact canonicalMagic_ne_salted
  have hredacted : ¬isRedactedTree data := by
    rw [isRedactedTree, hcanonical, decide_eq_true_iff]
    exact canonicalMagic_ne_redacted
  rw [decodeCanonical, if_neg hsalted, if_neg hredacted]

theorem decodeHeader_ok_iff :
    decodeHeader data = .ok header ↔ treeHeaderLen ≤ data.length ∧ isCanonicalTree data ∧
      (headerVersion data = treeEncodingVersion ∨
        headerVersion data = treeBlockEncodingVersion) ∧ headerFields data = .ok header := by
  simp only [decodeHeader, bind_eq_ok, refuse_eq_ok, not_lt, not_not, ne_eq, not_and_or]
  constructor
  · rintro ⟨_, hlen, _, hmagic, _, hversion, hfields⟩
    exact ⟨hlen, hmagic, hversion, hfields⟩
  · rintro ⟨hlen, hmagic, hversion, hfields⟩
    exact ⟨(), hlen, (), hmagic, (), hversion, hfields⟩

theorem headerFields_version (h : headerFields data = .ok header) :
    header.version = headerVersion data := by
  simp only [headerFields, bind_eq_ok, pure_eq_ok, Except.ok.injEq] at h
  obtain ⟨_, _, rfl⟩ := h
  rfl

theorem headerFields_isOk (hlen : treeHeaderLen ≤ data.length) :
    ∃ header, headerFields data = .ok header := by
  have hid : ((data.drop 5).take 32).length = 32 := by
    simp only [treeHeaderLen] at hlen
    rw [length_take, length_drop]
    omega
  refine ⟨_, bind_eq_ok.2 ⟨⟨⟨((data.drop 5).take 32).toArray, hid⟩⟩, ?_, rfl⟩⟩
  rw [ContentHash.ofSlice, dif_pos hid]
  rfl

theorem Tree.decodeCanonical_iff_encode (hraw : IsRawBody data) (hsize : data.length < 2 ^ 64) :
    decodeCanonical blake3 decompress data = .ok t ↔ t.encodeCanonical blake3 = .ok data := by
  rcases hraw with hsalted | ⟨hmagic, hversion⟩
  · rw [decodeCanonical_salted blake3 decompress hsalted, decodeSaltedV4_iff_encode blake3 hsize,
      and_iff_right_iff_imp]
    intro h
    have htake := (encodeCanonical_magic blake3 h).1
    rw [of_decide_eq_true hsalted] at htake
    by_contra hscheme
    rw [if_neg hscheme] at htake
    exact canonicalMagic_ne_salted htake.symm
  · have hne : headerVersion data ≠ treeBlockEncodingVersion := by
      rw [hversion]
      decide
    rw [decodeCanonical_headered blake3 decompress hmagic]
    constructor
    · intro h
      obtain ⟨header, hheader, hdecode⟩ := bind_eq_ok.1 h
      obtain ⟨hlen, _, _, hfields⟩ := decodeHeader_ok_iff.1 hheader
      rw [if_neg (by rw [headerFields_version hfields]; exact hne)] at hdecode
      exact ((decodeRaw_iff_encode blake3 hlen hmagic hversion hfields hsize).1 hdecode).2
    · intro h
      have hflat : t.scheme = .v3Flat := by
        cases hscheme : t.scheme with
        | v3Flat => rfl
        | v4Salted =>
          have htake := (encodeCanonical_magic blake3 h).1
          rw [if_pos hscheme, of_decide_eq_true hmagic] at htake
          exact absurd htake canonicalMagic_ne_salted
      obtain ⟨_, hlen⟩ := (encodeCanonical_magic blake3 h).2 hflat
      obtain ⟨header, hfields⟩ := headerFields_isOk hlen
      apply bind_eq_ok.2
      refine ⟨header, decodeHeader_ok_iff.2 ⟨hlen, hmagic, .inl hversion, hfields⟩, ?_⟩
      rw [if_neg (by rw [headerFields_version hfields]; exact hne)]
      exact (decodeRaw_iff_encode blake3 hlen hmagic hversion hfields hsize).2 ⟨hflat, h⟩

theorem Tree.isRawBody_of_encode (h : t.encodeCanonical blake3 = .ok data) : IsRawBody data := by
  obtain ⟨hmagic, hversion⟩ := encodeCanonical_magic blake3 h
  cases hscheme : t.scheme with
  | v3Flat =>
    rw [if_neg (by rw [hscheme]; exact fun h => nomatch h)] at hmagic
    exact .inr ⟨decide_eq_true hmagic, (hversion hscheme).1⟩
  | v4Salted =>
    rw [if_pos hscheme] at hmagic
    exact .inl (decide_eq_true hmagic)

/-- A tree has an encoding when it is valid and its spool ids fit their length field; it is the one
raw body that decodes to the tree. -/
theorem Tree.canonical_encoding_unique (t : Tree ContentHash) :
    ((∃ data, t.encodeCanonical blake3 = .ok data) ↔ t.validate = .ok () ∧
      t.logicalLen < 2 ^ 64 ∧ ∀ e ∈ t.entries, SpoolIdFits e.target) ∧
    ∀ data : Bytes, data.length < 2 ^ 64 →
      (t.encodeCanonical blake3 = .ok data ↔
        IsRawBody data ∧ decodeCanonical blake3 decompress data = .ok t) := by
  constructor
  · constructor
    · rintro ⟨data, h⟩
      have hvalid := validate_of_encode blake3 h
      have hsum := logicalLen_of_encode blake3 h
      exact ⟨hvalid, hsum, (encodeCanonical_isOk_iff blake3 hvalid hsum).1 ⟨data, h⟩⟩
    · rintro ⟨hvalid, hsum, hfits⟩
      exact (encodeCanonical_isOk_iff blake3 hvalid hsum).2 hfits
  · intro data hsize
    constructor
    · intro h
      have hraw := isRawBody_of_encode blake3 h
      exact ⟨hraw, (decodeCanonical_iff_encode blake3 decompress hraw hsize).2 h⟩
    · rintro ⟨hraw, h⟩
      exact (decodeCanonical_iff_encode blake3 decompress hraw hsize).1 h

end Image

section Overlong
open PartialTree

def noZstd (_ : Bytes) (_ : Nat) : Except String Bytes :=
  .error "zstd support is not compiled into this build"

def oneFile : Tree ContentHash where
  entries := [{ name := "a", target := .blob zeroHash false }]

theorem canonical_encoding_unique_oneFile :
    ∃ data, oneFile.encodeCanonical lengthHash = .ok data ∧
      Tree.decodeCanonical lengthHash noZstd data = .ok oneFile := by
  obtain ⟨hencode, hdecode⟩ := Tree.canonical_encoding_unique lengthHash noZstd oneFile
  obtain ⟨data, hdata⟩ := hencode.2 (by decide +kernel)
  have hlength : (oneFile.encodeCanonical lengthHash).map List.length = .ok 102 := by
    decide +kernel
  rw [hdata] at hlength
  have h102 : data.length = 102 := Except.ok.inj hlength
  exact ⟨data, hdata, ((hdecode data (by omega)).1 hdata).2⟩

def longText (n : Nat) : String := String.ofList ('a' :: '/' :: List.replicate (n + 1) 'a')

theorem validSegment_replicate (n : Nat) : validSegment (List.replicate (n + 1) 'a') = true := by
  have hhead : (List.replicate (n + 1) 'a').head? = some 'a' := rfl
  have hlast : (List.replicate (n + 1) 'a').getLast? = some 'a' := by
    rw [getLast?_replicate, if_neg (Nat.succ_ne_zero n)]
  simp only [validSegment, hhead, hlast, all_replicate, isEmpty_replicate,
    if_neg (Nat.succ_ne_zero n), decide_eq_false (Nat.succ_ne_zero n)]
  decide

theorem longText_canonical (n : Nat) : canonicalSpoolId (longText n) = true := by
  have hsplit : (longText n).toList.splitOn '/' = [['a'], List.replicate (n + 1) 'a'] := by
    have hrest : List.splitOnP (· == '/') (List.replicate (n + 1) 'a') =
        [List.replicate (n + 1) 'a'] := by
      apply splitOnP_eq_singleton
      intro c hc
      rw [eq_of_mem_replicate hc]
      rfl
    rw [longText, String.toList_ofList, splitOn_eq_splitOnP, ← hrest]
    change List.splitOnP (· == '/') (['a'] ++ '/' :: List.replicate (n + 1) 'a') = _
    apply splitOnP_append_cons_of_forall_mem
    · intro c hc
      rw [mem_singleton.1 hc]
      rfl
    · rfl
  rw [canonicalSpoolId, hsplit, Bool.and_eq_true]
  exact ⟨validSegment_replicate 0, validSegment_replicate n⟩

theorem length_le_utf8 (cs : List Char) : cs.length ≤ (utf8 (String.ofList cs)).length := by
  have hbytes : (utf8 (String.ofList cs)).length = cs.utf8Encode.size := by
    rw [← String.toByteArray_ofList]
    rfl
  rw [hbytes]
  clear hbytes
  induction cs with
  | nil => exact Nat.zero_le _
  | cons c cs ih =>
    have hpos : 0 < [c].utf8Encode.size := by
      rw [utf8Encode_singleton, size_toByteArray, length_pos_iff]
      exact String.utf8EncodeChar_ne_nil
    rw [utf8Encode_cons, ByteArray.size_append, length_cons]
    omega

def longSpoolEntry (n : Nat) : TreeEntry ContentHash where
  name := "s"
  target := .spoollink ⟨longText n, longText_canonical n⟩ ⟨Vector.replicate 32 0⟩

def longSpoolTree (n : Nat) : Tree ContentHash where
  entries := [longSpoolEntry n]

theorem longSpoolTree_validate (n : Nat) : (longSpoolTree n).validate = .ok () := by
  have hname : validateName "s" = .ok () := by decide
  have hentry : (longSpoolEntry n).validate = .ok () :=
    validate_ok_iff.2 ⟨hname, fun _ h => (nomatch h)⟩
  have hentries : Tree.validateEntries none (longSpoolTree n).entries = .ok () := by
    apply (Tree.validateEntries_ok_iff _ _).2
    refine ⟨fun e he => ?_, fun _ h => (nomatch h), pairwise_singleton _ _⟩
    rw [mem_singleton.1 he]
    exact hentry
  have hscheme : (longSpoolTree n).validateScheme = .ok () := rfl
  rw [Tree.validate, hscheme, hentries]
  rfl

theorem longSpoolEntry_overflows (h : 65535 ≤ n) : ¬SpoolIdFits (longSpoolEntry n).target := by
  intro hfits
  have hshort : (utf8 (longText n)).length ≤ 65535 := hfits
  have hlong := length_le_utf8 ('a' :: '/' :: List.replicate (n + 1) 'a')
  rw [length_cons, length_cons, length_replicate] at hlong
  rw [longText] at hshort
  omega

theorem longSpoolTree_not_encoded (h : 65535 ≤ n) :
    ¬∃ data, (longSpoolTree n).encodeCanonical lengthHash = .ok data := by
  rintro ⟨data, hencode⟩
  have hfits := (encodeCanonical_isOk_iff lengthHash (longSpoolTree_validate n)
    (Tree.logicalLen_of_encode lengthHash hencode)).1 ⟨data, hencode⟩
  exact longSpoolEntry_overflows h (hfits (longSpoolEntry n) (mem_singleton.2 rfl))

/-- A valid tree without an encoding. -/
theorem longSpool_not_encoded :
    ¬∀ t : Tree ContentHash, t.validate = .ok () → ∃ data,
      t.encodeCanonical lengthHash = .ok data ∧
        Tree.decodeCanonical lengthHash noZstd data = .ok t := by
  intro h
  obtain ⟨data, hencode, _⟩ := h (longSpoolTree 65535) (longSpoolTree_validate 65535)
  exact longSpoolTree_not_encoded (le_refl 65535) ⟨data, hencode⟩

end Overlong
end Heddle
