import Heddle.Lib.SortedList
import Heddle.Object.Canonical
import Mathlib.Data.List.Lex
import Mathlib.Data.Prod.Lex

namespace Heddle.Pack
open Heddle.Lib Heddle.Lib.MsgPack
open List hiding Vector count getElem?_eq_some_iff le_total le_trans lt lt_irrefl toString

inductive PackObjectId where
  | hash (hash : ContentHash)
  | stateId (stateId : StateId)
  | annotatedTag (hash : ContentHash)
  deriving DecidableEq

namespace PackObjectId

def variant : PackObjectId → Nat
  | .hash _ => 0
  | .stateId _ => 1
  | .annotatedTag _ => 2

def bytes : PackObjectId → Vector UInt8 32
  | .hash contentHash => contentHash.bytes
  | .stateId state => state.bytes
  | .annotatedTag contentHash => contentHash.bytes

theorem ext_bytes {a b : PackObjectId} (hvariant : a.variant = b.variant)
    (hbytes : a.bytes = b.bytes) : a = b := by
  cases a <;> cases b <;> cases hvariant
  · exact congrArg hash (ContentHash.ext hbytes)
  · exact congrArg stateId (congrArg StateId.mk hbytes)
  · exact congrArg annotatedTag (ContentHash.ext hbytes)

/-- The variant first, then the bytes. -/
instance : LinearOrder PackObjectId :=
  LinearOrder.lift' (fun id => toLex (id.variant, id.bytes.toList.map UInt8.toNat)) fun a b h => by
    obtain ⟨hvariant, hbytes⟩ := Prod.mk.inj (toLex_inj.1 h)
    have hlist := map_injective_iff.2 (fun _ _ => UInt8.toNat_inj.1) hbytes
    exact ext_bytes hvariant (Vector.toList_inj.1 hlist)

end PackObjectId

def indexMagic : Bytes := utf8 "LMI" ++ [0]
def indexVersion : Nat := 4
def indexEntryLen : Nat := 32 + 8
def versionedHeaderLen : Nat := 16
def stateIdOffsetTag : Nat := 1 <<< 63
def annotatedTagOffsetTag : Nat := 1 <<< 62
def packOffsetMask : Nat := 2 ^ 62 - 1

structure IndexEntry where
  id : PackObjectId
  offset : Nat
  deriving DecidableEq

structure PackIndex where
  entries : List IndexEntry := []

namespace PackIndex

def add (index : PackIndex) (id : PackObjectId) (offset : Nat) : PackIndex :=
  ⟨index.entries ++ [⟨id, offset⟩]⟩

def sort (index : PackIndex) : PackIndex := ⟨sortBy IndexEntry.id index.entries⟩

end PackIndex

def taggedOffset : PackObjectId → Nat → Nat
  | .hash _, offset => offset
  | .stateId _, offset => offset ||| stateIdOffsetTag
  | .annotatedTag _, offset => offset ||| annotatedTagOffsetTag

def encodeIndexEntry (entry : IndexEntry) : Option Bytes :=
  if entry.offset ≤ packOffsetMask then
    some (entry.id.bytes.toList ++ beBytes 8 (taggedOffset entry.id entry.offset))
  else none

def decodeIndexEntry (bytes : Bytes) : Except String IndexEntry := do
  let (rawId, rest) ← takeVector "Invalid index id length" 32 bytes
  let (tagged, _) ← takeBe "Invalid offset length" 8 rest
  let id : PackObjectId :=
    if tagged.1 &&& stateIdOffsetTag ≠ 0 then .stateId ⟨rawId⟩
    else if tagged.1 &&& annotatedTagOffsetTag ≠ 0 then .annotatedTag ⟨rawId⟩
    else .hash ⟨rawId⟩
  return ⟨id, tagged.1 &&& packOffsetMask⟩

def indexHeader (count : Nat) : Bytes := indexMagic ++ beBytes 4 indexVersion ++ beBytes 8 count

def PackIndex.toBytes (index : PackIndex) : Option Bytes := do
  let entries ← index.entries.mapM encodeIndexEntry
  return indexHeader index.entries.length ++ entries.flatten

/-- A parsed index reads its entries from the bytes. -/
structure EncodedIndex where
  data : Bytes
  entriesStart : Nat
  count : Nat

namespace EncodedIndex
variable (index : EncodedIndex)

def entry (i : Nat) : Except String IndexEntry :=
  match sliceAt index.data (index.entriesStart + i * indexEntryLen) indexEntryLen with
  | none => .error "Index data truncated"
  | some bytes => decodeIndexEntry bytes

def findBetween (id : PackObjectId) (low high : Nat) : Except String (Option Nat) :=
  if _hlow : low < high then do
    let middle := low + (high - low) / 2
    let entry ← index.entry middle
    match compare entry.id id with
    | .lt => findBetween id (middle + 1) high
    | .gt => findBetween id low middle
    | .eq => return some entry.offset
  else return none
termination_by high - low

def find (id : PackObjectId) : Except String (Option Nat) := index.findBetween id 0 index.count

def checkOrder (previous : Option PackObjectId) (i : Nat) :
    Except String (Option PackObjectId) := do
  let entry ← index.entry i
  refuse (previous.any (entry.id < ·)) "index identities are not ordered"
  return some entry.id

end EncodedIndex

def verifyIndexHeader (data : Bytes) : Except String Nat := do
  refuse (data.length < versionedHeaderLen) "Index too short"
  refuse (data.take 4 ≠ indexMagic) "Invalid index magic"
  let version := ofBeBytes ((data.drop 4).take 4)
  refuse (version ≠ indexVersion) ("Unsupported index version: " ++ toString version)
  return ofBeBytes ((data.drop 8).take 8)

def verifyIndexVersion (data : Bytes) : Except String Unit := do
  if data.length < 8 ∨ data.take 4 ≠ indexMagic then
    let _ ← verifyIndexHeader data
  let version := ofBeBytes ((data.drop 4).take 4)
  refuse (indexVersion < version) ("pack index uses format version " ++ toString version ++
    ", but this binary supports " ++ toString indexVersion ++ "; upgrade heddle")
  refuse (version ≠ indexVersion) ("pack index uses unsupported format version " ++
    toString version ++
    "; recreate the repository or re-adopt its Git history with this Heddle version")

def fromBytes (data : Bytes) : Except String EncodedIndex := do
  verifyIndexVersion data
  let count ← verifyIndexHeader data
  let maxEntries := (data.length - versionedHeaderLen) / indexEntryLen
  refuse (maxEntries < count) ("Index entry count " ++ toString count ++
    " exceeds available data capacity " ++ toString maxEntries)
  let index : EncodedIndex := ⟨data, versionedHeaderLen, count⟩
  refuse (versionedHeaderLen + count * indexEntryLen ≠ data.length) "index has trailing bytes"
  let _ ← (range count).foldlM index.checkOrder none
  return index

section Entry

theorem and_shiftLeft_eq_zero (h : n < 2 ^ i) : n &&& 1 <<< i = 0 := by
  rw [Nat.one_shiftLeft, Nat.and_two_pow, Nat.testBit_lt_two_pow h, Bool.toNat_false, Nat.zero_mul]

theorem or_and_shiftLeft_ne_zero (n i : Nat) : (n ||| 1 <<< i) &&& 1 <<< i ≠ 0 := by
  rw [Nat.one_shiftLeft, Nat.and_two_pow, Nat.testBit_or, Nat.testBit_two_pow_self, Bool.or_true,
    Bool.toNat_true, Nat.one_mul]
  exact (Nat.two_pow_pos i).ne'

theorem decodeIndexEntry_encode (h : encodeIndexEntry entry = some bytes) :
    bytes.length = indexEntryLen ∧ decodeIndexEntry bytes = .ok entry := by
  obtain ⟨id, offset⟩ := entry
  unfold encodeIndexEntry at h
  split at h
  · rename_i hoffset
    cases h
    have hlow : offset < 2 ^ 62 := Nat.lt_of_le_sub_one (Nat.two_pow_pos 62) hoffset
    have hhigh : offset < 2 ^ 63 := hlow.trans (by decide)
    have hstate : offset ||| stateIdOffsetTag = offset + 1 * 2 ^ 63 := or_shiftLeft_eq_add hhigh 1
    have htag : offset ||| annotatedTagOffsetTag = offset + 1 * 2 ^ 62 := or_shiftLeft_eq_add hlow 1
    have hfits : taggedOffset id offset < 256 ^ 8 := by
      cases id <;> simp only [taggedOffset, hstate, htag] <;> omega
    refine ⟨by rw [length_append, length_beBytes, Vector.length_toList]; rfl, ?_⟩
    have htake : takeVector "Invalid index id length" 32
        (id.bytes.toList ++ beBytes 8 (taggedOffset id offset)) = .ok (id.bytes, _) :=
      takeVector_ok_iff.2 rfl
    have hbe : takeBe "Invalid offset length" 8 (beBytes 8 (taggedOffset id offset)) =
        .ok (⟨taggedOffset id offset, hfits⟩, []) :=
      takeBe_ok_iff.2 (append_nil _).symm
    have hmask : taggedOffset id offset &&& packOffsetMask = offset := by
      rw [packOffsetMask, Nat.and_two_pow_sub_one_eq_mod]
      cases id <;> simp only [taggedOffset, hstate, htag] <;> omega
    unfold decodeIndexEntry
    simp only [htake, hbe, bind, Except.bind, hmask]
    cases id with
    | hash contentHash =>
      have h63 := and_shiftLeft_eq_zero hhigh
      have h62 := and_shiftLeft_eq_zero hlow
      exact congrArg (fun id => Except.ok (IndexEntry.mk id offset))
        ((if_neg (not_not.2 h63)).trans (if_neg (not_not.2 h62)))
    | stateId state =>
      have h63 := or_and_shiftLeft_ne_zero offset 63
      exact congrArg (fun id => Except.ok (IndexEntry.mk id offset)) (if_pos h63)
    | annotatedTag contentHash =>
      have hlt : offset ||| annotatedTagOffsetTag < 2 ^ 63 := by
        rw [htag]
        omega
      have h63 := and_shiftLeft_eq_zero hlt
      have h62 := or_and_shiftLeft_ne_zero offset 62
      exact congrArg (fun id => Except.ok (IndexEntry.mk id offset))
        ((if_neg (not_not.2 h63)).trans (if_pos h62))
  · cases h

end Entry

section Frames
variable {es : List IndexEntry} {frames : List Bytes}
  (h : List.Forall₂ (fun entry frame => encodeIndexEntry entry = some frame) es frames)
include h

theorem length_frames : frames.flatten.length = es.length * indexEntryLen := by
  induction h with
  | nil => rfl
  | cons hframe _ ih =>
    rw [flatten_cons, length_append, ih, (decodeIndexEntry_encode hframe).1,
      length_cons, Nat.succ_mul, Nat.add_comm]

theorem sliceAt_frame (hi : es[i]? = some e) (before : Bytes) :
    ∃ frame, encodeIndexEntry e = some frame ∧
      sliceAt (before ++ frames.flatten) (before.length + i * indexEntryLen) indexEntryLen =
        some frame := by
  induction h generalizing i before with
  | nil => cases hi
  | @cons e' frame es frames hframe _ ih =>
    have hlen := (decodeIndexEntry_encode hframe).1
    cases i with
    | zero =>
      cases hi
      refine ⟨frame, hframe, sliceAt_eq_some.2 ⟨before, frames.flatten, ?_, ?_, hlen⟩⟩
      · rw [flatten_cons, append_assoc]
      · rw [Nat.zero_mul, Nat.add_zero]
    | succ i =>
      obtain ⟨frame', hframe', hslice⟩ := ih hi (before ++ frame)
      rw [append_assoc, length_append, hlen, Nat.add_assoc, Nat.add_comm indexEntryLen,
        ← Nat.succ_mul] at hslice
      exact ⟨frame', hframe', hslice⟩

theorem entry_encoded (hi : es[i]? = some e) (hheader : header.length = versionedHeaderLen) :
    (EncodedIndex.mk (header ++ frames.flatten) versionedHeaderLen es.length).entry i = .ok e := by
  obtain ⟨frame, hframe, hslice⟩ := sliceAt_frame h hi header
  unfold EncodedIndex.entry
  simp only [← hheader, hslice]
  exact (decodeIndexEntry_encode hframe).2

end Frames

section Search
variable {index : EncodedIndex} {es : List IndexEntry}
  (hentry : ∀ i e, es[i]? = some e → index.entry i = .ok e)
  (hsorted : es.Pairwise fun a b => a.id ≤ b.id)
include hentry hsorted

omit hentry in
theorem id_le {i j : Nat} (hij : i ≤ j) (hi : es[i]? = some a) (hj : es[j]? = some b) :
    a.id ≤ b.id := by
  rcases Nat.eq_or_lt_of_le hij with rfl | hlt
  · cases hi.symm.trans hj
    exact le_rfl
  · obtain ⟨_, rfl⟩ := List.getElem?_eq_some_iff.1 hi
    obtain ⟨_, rfl⟩ := List.getElem?_eq_some_iff.1 hj
    exact pairwise_iff_getElem.1 hsorted _ _ _ _ hlt

theorem findBetween_ok (id : PackObjectId) (hhigh : high ≤ es.length)
    (hbelow : ∀ i e, i < low → es[i]? = some e → e.id < id)
    (habove : ∀ i e, high ≤ i → es[i]? = some e → id < e.id) :
    (∃ e ∈ es, e.id = id ∧ index.findBetween id low high = .ok (some e.offset)) ∨
      (∀ e ∈ es, e.id ≠ id) ∧ index.findBetween id low high = .ok none := by
  induction hn : high - low using Nat.strong_induction_on generalizing low high with
  | _ n ih =>
    rw [EncodedIndex.findBetween]
    by_cases hlow : low < high
    · have hlt : low + (high - low) / 2 < es.length := by omega
      have hmiddle := getElem?_eq_getElem hlt
      rw [dif_pos hlow]
      simp only [hentry _ _ hmiddle, bind, Except.bind]
      cases hcompare : compare es[low + (high - low) / 2].id id with
      | lt =>
        refine ih _ (by omega) hhigh (fun i e hi he => ?_) habove rfl
        have hle := id_le hsorted (Nat.lt_succ_iff.1 hi) he hmiddle
        exact hle.trans_lt (compare_lt_iff_lt.1 hcompare)
      | gt =>
        refine ih _ (by omega) (by omega) hbelow (fun i e hi he => ?_) rfl
        have hle := id_le hsorted hi hmiddle he
        exact (compare_gt_iff_gt.1 hcompare).trans_le hle
      | eq => exact .inl ⟨_, getElem_mem hlt, compare_eq_iff_eq.1 hcompare, rfl⟩
    · rw [dif_neg hlow]
      refine .inr ⟨fun e he => ?_, rfl⟩
      obtain ⟨i, hi⟩ := mem_iff_getElem?.1 he
      rcases Nat.lt_or_ge i low with hlt | hge
      · exact (hbelow i e hlt hi).ne
      · exact (habove i e (by omega) hi).ne'

theorem checkOrder_run (hn : n ≤ es.length) :
    ∃ previous, (range n).foldlM index.checkOrder none = .ok previous ∧
      ∀ p ∈ previous, ∃ i e, i < n ∧ es[i]? = some e ∧ e.id = p := by
  induction n with
  | zero => exact ⟨none, rfl, nofun⟩
  | succ n ih =>
    obtain ⟨previous, hrun, hprevious⟩ := ih (Nat.le_of_succ_le hn)
    have hlast := getElem?_eq_getElem hn
    have hordered : ¬ previous.any (es[n].id < ·) = true := by
      intro hany
      obtain ⟨p, hp, hlt⟩ := (Option.any_eq_true _ _).1 hany
      obtain ⟨i, e, hi, he, rfl⟩ := hprevious p hp
      exact (id_le hsorted hi.le he hlast).not_gt (of_decide_eq_true hlt)
    refine ⟨some es[n].id, ?_, fun p hp => ⟨n, es[n], n.lt_succ_self, hlast, Option.some.inj hp⟩⟩
    rw [range_succ, foldlM_append, hrun]
    simp only [foldlM_cons, foldlM_nil, EncodedIndex.checkOrder, hentry _ _ hlast, bind,
      Except.bind, refuse, if_neg hordered]
    rfl

end Search

section Parse

theorem length_indexHeader (count : Nat) : (indexHeader count).length = versionedHeaderLen := by
  rw [indexHeader, length_append, length_append, length_beBytes, length_beBytes]
  rfl

theorem verify_indexHeader (hcount : count < 2 ^ 64) (rest : Bytes) :
    verifyIndexVersion (indexHeader count ++ rest) = .ok () ∧
      verifyIndexHeader (indexHeader count ++ rest) = .ok count := by
  have hsplit : indexHeader count ++ rest =
      indexMagic ++ (beBytes 4 indexVersion ++ (beBytes 8 count ++ rest)) := by
    rw [indexHeader, append_assoc, append_assoc]
  have hmagicLen : indexMagic.length = 4 := by decide +kernel
  have hlen : versionedHeaderLen ≤ (indexHeader count ++ rest).length := by
    rw [length_append, length_indexHeader]
    exact Nat.le_add_right _ _
  have hmagic : (indexHeader count ++ rest).take 4 = indexMagic := by
    rw [hsplit, take_left' hmagicLen]
  have hdrop : (indexHeader count ++ rest).drop 4 =
      beBytes 4 indexVersion ++ (beBytes 8 count ++ rest) := by
    rw [hsplit, drop_left' hmagicLen]
  have hversion : ofBeBytes (((indexHeader count ++ rest).drop 4).take 4) = indexVersion := by
    rw [hdrop, take_left' (length_beBytes 4 _), ofBeBytes_beBytes (by decide)]
  have hfield : ofBeBytes (((indexHeader count ++ rest).drop 8).take 8) = count := by
    rw [← drop_drop (i := 4) (j := 4), hdrop, drop_left' (length_beBytes 4 _),
      take_left' (length_beBytes 8 _), ofBeBytes_beBytes hcount]
  have hheader : verifyIndexHeader (indexHeader count ++ rest) = .ok count := by
    simp only [verifyIndexHeader, bind_eq_ok, refuse_eq_ok, pure_eq_ok, Except.ok.injEq]
    exact ⟨(), hlen.not_gt, (), not_not.2 hmagic, (), not_not.2 hversion, hfield⟩
  refine ⟨?_, hheader⟩
  have hlong : ¬ ((indexHeader count ++ rest).length < 8 ∨
      (indexHeader count ++ rest).take 4 ≠ indexMagic) := by
    rw [versionedHeaderLen] at hlen
    exact not_or.2 ⟨by omega, not_not.2 hmagic⟩
  simp only [verifyIndexVersion, if_neg hlong, hversion, refuse, lt_irrefl, if_false, ne_eq,
    not_true]
  rfl

theorem fromBytes_encoded
    (h : List.Forall₂ (fun entry frame => encodeIndexEntry entry = some frame) es frames)
    (hcount : es.length < 2 ^ 64) (hsorted : es.Pairwise fun a b => a.id ≤ b.id) :
    fromBytes (indexHeader es.length ++ frames.flatten) =
      .ok ⟨indexHeader es.length ++ frames.flatten, versionedHeaderLen, es.length⟩ := by
  have hheader := length_indexHeader es.length
  obtain ⟨hversion, hcounted⟩ := verify_indexHeader hcount frames.flatten
  obtain ⟨previous, hrun, _⟩ :=
    checkOrder_run (fun i e hi => entry_encoded h hi hheader) hsorted le_rfl
  have hlen : (indexHeader es.length ++ frames.flatten).length =
      versionedHeaderLen + es.length * indexEntryLen := by
    rw [length_append, hheader, length_frames h]
  simp only [fromBytes, bind_eq_ok, refuse_eq_ok, pure_eq_ok]
  refine ⟨(), hversion, es.length, hcounted, (), ?_, (), not_not.2 hlen.symm, previous, hrun, rfl⟩
  rw [hlen, Nat.add_sub_cancel_left, Nat.mul_div_cancel _ (by decide)]
  exact lt_irrefl _

theorem added_entries (pairs : List (PackObjectId × Nat)) (index : PackIndex) :
    (pairs.foldl (fun index pair => index.add pair.1 pair.2) index).entries =
      index.entries ++ pairs.map fun pair => ⟨pair.1, pair.2⟩ := by
  induction pairs generalizing index with
  | nil => exact (append_nil _).symm
  | cons pair pairs ih =>
    rw [foldl_cons, ih, PackIndex.add, append_assoc, map_cons, singleton_append]

theorem mapM_encodeIndexEntry
    (h : List.Forall₂ (fun entry frame => encodeIndexEntry entry = some frame) es frames) :
    es.mapM encodeIndexEntry = some frames := by
  induction h with
  | nil => rfl
  | cons hframe _ ih =>
    rw [mapM_cons, hframe, ih]
    rfl

/-- What was added for an id is found again after the index was written and read. -/
theorem find_of_added (pairs : List (PackObjectId × Nat)) (hcount : pairs.length < 2 ^ 64)
    (hoffsets : ∀ pair ∈ pairs, pair.2 ≤ packOffsetMask) :
    let index := (pairs.foldl (fun index pair => index.add pair.1 pair.2) ({} : PackIndex)).sort
    ∃ data parsed, index.toBytes = some data ∧ fromBytes data = .ok parsed ∧ ∀ id,
      (∃ offset, (id, offset) ∈ pairs ∧ parsed.find id = .ok (some offset)) ∨
        (∀ pair ∈ pairs, pair.1 ≠ id) ∧ parsed.find id = .ok none := by
  intro index
  have hentries : index.entries = sortBy IndexEntry.id (pairs.map fun pair => ⟨pair.1, pair.2⟩) :=
    congrArg (sortBy IndexEntry.id) (added_entries pairs {})
  have hlen : index.entries.length = pairs.length := by
    rw [hentries, sortBy, List.length_insertionSort, List.length_map]
  have hmem : ∀ entry, entry ∈ index.entries ↔ (entry.id, entry.offset) ∈ pairs := by
    intro entry
    rw [hentries, mem_sortBy, List.mem_map]
    constructor
    · rintro ⟨pair, hpair, rfl⟩
      exact hpair
    · exact fun hpair => ⟨_, hpair, rfl⟩
  have htotal : Std.Total fun a b : IndexEntry => a.id ≤ b.id := ⟨fun a b => le_total a.id b.id⟩
  have htrans : IsTrans IndexEntry fun a b => a.id ≤ b.id := ⟨fun _ _ _ => le_trans⟩
  have hsorted : index.entries.Pairwise fun a b => a.id ≤ b.id := by
    rw [hentries]
    exact List.pairwise_insertionSort _ _
  obtain ⟨frames, hframes⟩ := (exists_forall₂_iff (fun entry frame =>
    encodeIndexEntry entry = some frame) index.entries).2 fun entry hentry =>
      ⟨_, if_pos (hoffsets _ ((hmem entry).1 hentry))⟩
  have hdata : index.toBytes = some (indexHeader index.entries.length ++ frames.flatten) := by
    unfold PackIndex.toBytes
    rw [mapM_encodeIndexEntry hframes]
    rfl
  refine ⟨_, _, hdata, fromBytes_encoded hframes (hlen ▸ hcount) hsorted, fun id => ?_⟩
  have hentry := fun i e hi =>
    entry_encoded (i := i) (e := e) hframes hi (length_indexHeader index.entries.length)
  have hend : ∀ i e, index.entries.length ≤ i → index.entries[i]? = some e → id < e.id := by
    intro i e hi he
    rw [List.getElem?_eq_none hi] at he
    cases he
  rcases findBetween_ok hentry hsorted id le_rfl (fun i _ hi => absurd hi (Nat.not_lt_zero i)) hend
    with ⟨entry, hentry, rfl, hfind⟩ | ⟨hnone, hfind⟩
  · exact .inl ⟨entry.offset, (hmem entry).1 hentry, hfind⟩
  · exact .inr ⟨fun pair hpair => hnone ⟨pair.1, pair.2⟩ ((hmem _).2 hpair), hfind⟩

/-- One id twice, and one that is only a tag's. -/
theorem find_of_added_repeated :
    let pairs : List (PackObjectId × Nat) := [(.hash ⟨Vector.replicate 32 1⟩, 12),
      (.annotatedTag ⟨Vector.replicate 32 0⟩, packOffsetMask), (.hash ⟨Vector.replicate 32 1⟩, 40)]
    let index := (pairs.foldl (fun index pair => index.add pair.1 pair.2) ({} : PackIndex)).sort
    ∃ data parsed, index.toBytes = some data ∧ fromBytes data = .ok parsed ∧ ∀ id,
      (∃ offset, (id, offset) ∈ pairs ∧ parsed.find id = .ok (some offset)) ∨
        (∀ pair ∈ pairs, pair.1 ≠ id) ∧ parsed.find id = .ok none :=
  find_of_added _ (by decide) (by decide)

end Parse

end Heddle.Pack
