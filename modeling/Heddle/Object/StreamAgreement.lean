import Heddle.Object.StreamEager

namespace Heddle
open Heddle.Lib List

def treeOf (items : List DecodedStreamEntry) (positions : List UInt32) : Tree ContentHash where
  entries := items.map DecodedStreamEntry.entry
  sourcePositions := positions

def DecodesTo (items : List DecodedStreamEntry) (t : Tree ContentHash) : Prop :=
  ∃ positions, Recorded (items.map DecodedStreamEntry.position) positions ∧
    t = treeOf items positions ∧ t.validate = .ok ()

theorem Recorded.eq_nil (h : Recorded ps positions) (hnone : ∀ p ∈ ps, p = none) :
    positions = [] := by
  rcases h with ⟨hnil, _⟩ | rfl
  · exact hnil
  · cases positions with
    | nil => rfl
    | cons p positions => exact absurd (hnone (some p) mem_cons_self) (by simp)

theorem Recorded.all_none (h : Recorded ps []) :
    ∀ p ∈ ps, p = none := by
  rcases h with ⟨_, hnone⟩ | rfl
  · exact hnone
  · exact fun _ h => (nomatch h)

section Trees
variable (blake3 : Bytes → ContentHash) {t : Tree ContentHash} {items : List DecodedStreamEntry}

theorem pair_fst (items : List DecodedStreamEntry) :
    (items.map DecodedStreamEntry.pair).map Prod.fst = items.map DecodedStreamEntry.entry := by
  rw [map_map]
  rfl

theorem pair_snd (items : List DecodedStreamEntry) :
    (items.map DecodedStreamEntry.pair).map Prod.snd = items.map DecodedStreamEntry.position := by
  rw [map_map]
  rfl

section
variable (h : Recorded (items.map DecodedStreamEntry.position) positions)
include h

theorem treeOf_positioned :
    (treeOf items positions).positioned = items.map DecodedStreamEntry.pair := by
  rw [treeOf, ← pair_fst]
  rw [← pair_snd] at h
  exact Tree.positioned_of_recorded h

theorem treeOf_logicalLen :
    (treeOf items positions).logicalLen = (items.map DecodedStreamEntry.logicalLen).sum := by
  rw [Tree.logicalLen, treeOf_positioned h, map_map]
  rfl

theorem treeOf_hash :
    (treeOf items positions).hash blake3 =
      computeTypedWithLen blake3 treeEmptyPrefix (items.map DecodedStreamEntry.logicalLen).sum
        (items.flatMap DecodedStreamEntry.hashed) := by
  rw [Tree.hash]
  change Tree.flatHashV3 blake3 (treeOf items positions) = _
  rw [Tree.flatHashV3, treeOf_positioned h, map_map, flatMap_map]
  rfl

end

theorem namesAscend_none_iff : NamesAscend none items ↔
    (items.map DecodedStreamEntry.entry).Pairwise (fun a b => a.name < b.name) := by
  rw [NamesAscend, pairwise_map]
  exact ⟨fun h => h.2, fun h => ⟨fun _ h => (by cases h), h⟩⟩

theorem idMatches_iff {body : TreeBody} (hlean : body.layout.isLean = false)
    (h : Recorded (items.map DecodedStreamEntry.position) positions) :
    body.IdMatches blake3 items ↔ (treeOf items positions).logicalLen = body.header.logicalLen ∧
      (treeOf items positions).hash blake3 = body.header.treeId := by
  rw [treeOf_logicalLen h, treeOf_hash blake3 h, TreeBody.IdMatches]
  cases hlayout : body.layout with
  | lean bodyStart =>
    rw [hlayout] at hlean
    cases hlean
  | raw | blocked =>
    constructor
    · rintro ⟨hsum, hid⟩
      exact ⟨hsum, by rw [hsum]; exact hid⟩
    · rintro ⟨hsum, hid⟩
      exact ⟨hsum, by rw [← hsum]; exact hid⟩

end Trees

section Raw
variable (blake3 : Bytes → ContentHash) (decompress : Bytes → Nat → Except String Bytes)
variable {t : Tree ContentHash} {header : TreeHeader}

theorem readFrom_iff :
    (∃ items, items.map DecodedStreamEntry.pair = pairs ∧ List.Forall₂ ReadFrom items frames) ↔
      List.Forall₂ (fun frame pair => decodeEntryFrame frame = .ok pair) frames pairs ∧
        ∀ frame ∈ frames, frame.length < 2 ^ 32 := by
  constructor
  · rintro ⟨items, rfl, h⟩
    induction h with
    | nil => exact ⟨.nil, fun _ h => (nomatch h)⟩
    | cons hread _ ih =>
      exact ⟨.cons hread.1 ih.1, forall_mem_cons.2 ⟨hread.2.2, ih.2⟩⟩
  · rintro ⟨h, hshort⟩
    induction h with
    | nil => exact ⟨[], rfl, .nil⟩
    | @cons frame pair _ _ hdecode _ ih =>
      obtain ⟨hfirst, hrest⟩ := forall_mem_cons.1 hshort
      obtain ⟨items, hpairs, hread⟩ := ih hrest
      refine ⟨⟨pair.1, pair.2, 4 + frame.length⟩ :: items, ?_, .cons ⟨hdecode, rfl, hfirst⟩ hread⟩
      rw [map_cons, hpairs]
      rfl

theorem decodeRaw_iff_holds (source : BytesTreeSource)
    (hlen : source.bytes.length = treeHeaderLen + header.payloadLen) :
    Tree.decodeRaw blake3 source.bytes header = .ok t ↔
      ∃ items, (TreeBody.mk source header .raw).Holds blake3 decompress items ∧
        DecodesTo items t := by
  have hsize : treeHeaderLen ≤ source.bytes.length := by omega
  have hwalk : ∀ items : List DecodedStreamEntry, (∃ last,
      walk ((TreeBody.mk source header .raw).step decompress) items.length
        (TreeBody.mk source header .raw).freshReader.cursor = .ok (items, last) ∧
        last.byteOffset = source.bytes.length) ↔ NamesAscend none items ∧
        ∃ frames, List.Forall₂ ReadFrom items frames ∧
          source.bytes.drop treeHeaderLen = frames.flatMap framed := by
    intro items
    rw [rawWalk_ok_iff decompress rfl hlen.symm]
    exact and_iff_right hsize
  simp only [Tree.decodeRaw, bind_eq_ok, refuse_eq_ok, liftTree_eq_ok, pure_eq_ok,
    Except.ok.injEq, not_lt, not_not, tryFromDecodedLayout_ok_iff]
  constructor
  · rintro ⟨_, _, _, _, ⟨decoded, stop⟩, hfold, _, rfl, tree, ⟨htree, hvalid⟩, _, hhash, _, hsum, rfl⟩
    obtain ⟨pairs, frames, hcount, hshort, hentries, hencode, hdrop, hfst, hpos⟩ :=
      (foldRaw_ok_iff hsize).1 hfold
    obtain ⟨items, rfl, hread⟩ := readFrom_iff.2 ⟨frames_items_iff.2 ⟨hentries, hencode⟩, hshort⟩
    rw [pair_fst] at hfst
    rw [pair_snd] at hpos
    have htree : tree = treeOf items decoded.positions := by rw [htree, hfst]; rfl
    refine ⟨items, ⟨?_, ?_, ?_, trivial⟩, decoded.positions, hpos, htree, hvalid⟩
    · have hsorted := (Tree.validate_entries hvalid).2
      rw [htree] at hsorted
      obtain ⟨last, hlast, hoffset⟩ := (hwalk items).2
        ⟨namesAscend_none_iff.2 hsorted, frames, hread, hdrop⟩
      exact ⟨last, hlast, hoffset.trans hlen⟩
    · rw [List.Forall₂.length_eq hread, hcount]
    · apply (idMatches_iff blake3 rfl hpos).2
      rw [← htree]
      exact ⟨hsum, hhash⟩
  · rintro ⟨items, ⟨⟨last, hlast, hoffset⟩, hcount, hid, _⟩, positions, hpos, htree, hvalid⟩
    obtain ⟨_, frames, hread, hdrop⟩ := (hwalk items).1 ⟨last, hlast, hoffset.trans hlen.symm⟩
    obtain ⟨hdecode, hshort⟩ := readFrom_iff.1 ⟨items, rfl, hread⟩
    obtain ⟨hentries, hencode⟩ := frames_items_iff.1 hdecode
    obtain ⟨hsum, hhash⟩ := (idMatches_iff blake3 rfl hpos).1 hid
    rw [← htree] at hsum hhash
    refine ⟨(), by omega, (), by omega, (⟨t.entries, t.sourcePositions⟩, source.bytes.length),
      (foldRaw_ok_iff hsize).2 ⟨items.map DecodedStreamEntry.pair, frames, ?_, hshort, hentries,
        hencode, hdrop, ?_, ?_⟩, (), rfl, t, ⟨?_, hvalid⟩, (), hhash, (), hsum, rfl⟩
    · rw [← List.Forall₂.length_eq hread, hcount]
    · rw [pair_fst, htree]
      rfl
    · rw [pair_snd, htree]
      exact hpos
    · rw [htree]
      rfl

end Raw

section Blocked
variable (blake3 : Bytes → ContentHash) (decompress : Bytes → Nat → Except String Bytes)
variable {t : Tree ContentHash} {header : TreeHeader}

theorem decodeStreamed_iff_holds (hheader : decodeHeader data = .ok header)
    (hopen : openLayout ⟨data, .sequentialVerify⟩ header.treeId = .ok (header, layout))
    (hlean : layout.isLean = false) :
    Tree.decodeCanonicalStreamed blake3 decompress data = .ok t ↔
      ∃ items, (TreeBody.mk ⟨data, .sequentialVerify⟩ header layout).Complete blake3 decompress
        items ∧ DecodesTo items t := by
  have hr : TreeEntryReader.openAt decompress ⟨data, .sequentialVerify⟩ header.treeId none =
      .ok (TreeBody.mk ⟨data, .sequentialVerify⟩ header layout).freshReader :=
    (openAt_none_ok_iff decompress).2 ⟨header, layout, hopen, rfl⟩
  simp only [Tree.decodeCanonicalStreamed, bind_eq_ok, refuse_eq_ok, liftTree_eq_ok, pure_eq_ok,
    Except.ok.injEq, not_not, tryFromDecodedLayout_ok_iff, hheader, hr, exists_eq_left']
  constructor
  · rintro ⟨⟨decoded, r⟩, hcollect, _, hfinish, tree, ⟨htree, hvalid⟩, _, _, rfl⟩
    obtain ⟨hcoherent, items, hprogress, hpush⟩ := TreeEntryReader.collectWith_ok decompress
      (TreeBody.freshReader_coherent decompress _) hcollect
    obtain ⟨hentries, hpos⟩ := (decodedPush_ok_iff _ _).1 hpush
    rw [pair_fst] at hentries
    rw [pair_snd] at hpos
    exact ⟨items, (finish_isOk_iff blake3 decompress hprogress hcoherent).1 ⟨_, hfinish⟩,
      decoded.positions, hpos, by rw [htree, hentries]; rfl, hvalid⟩
  · rintro ⟨items, hcomplete, positions, hpos, htree, hvalid⟩
    obtain ⟨last, hreads⟩ := hcomplete.reads
    have hpush : (items.map DecodedStreamEntry.pair).foldlM DecodedEntries.push {} =
        .ok ⟨items.map DecodedStreamEntry.entry, positions⟩ :=
      (decodedPush_ok_iff _ _).2 ⟨(pair_fst items).symm, by rw [pair_snd]; exact hpos⟩
    have hfuel : items.length < header.entryCount + 1 := by
      rw [hcomplete.counted]
      exact Nat.lt_succ_self _
    obtain ⟨r, hcollect, hend⟩ := TreeEntryReader.collectWith_refines hreads hfuel hpush
    obtain ⟨hcoherent, seen, hprogress, _⟩ := TreeEntryReader.collectWith_ok decompress
      (TreeBody.freshReader_coherent decompress _) hcollect
    obtain rfl := hprogress.seen_eq hreads hend.at_end
    obtain ⟨r', hfinish⟩ := (finish_isOk_iff blake3 decompress hprogress hcoherent).2 hcomplete
    obtain ⟨_, hhash⟩ := (idMatches_iff blake3 hlean hpos).1 hcomplete.id
    rw [← htree] at hhash
    exact ⟨_, hcollect, r', hfinish, t, ⟨htree, hvalid⟩, (), hhash, rfl⟩

end Blocked

section LeanBody
variable (blake3 : Bytes → ContentHash) (decompress : Bytes → Nat → Except String Bytes)
variable {t : Tree ContentHash} {source : BytesTreeSource}

theorem takeVarintFrom_bounds {next : Nat} (hvalue : value < 2 ^ 64)
    (h : takeVarintFrom (sliceInput bytes).byte shifts value offset = .ok (found, next)) :
    found < 2 ^ 64 ∧ next ≤ bytes.length := by
  induction shifts generalizing value offset with
  | nil => cases h
  | cons shift shifts ih =>
    rw [takeVarintFrom] at h
    obtain ⟨b, hbyte, h⟩ := bind_eq_ok.1 h
    have hnext : value ||| ((b &&& 0x7f).toNat <<< shift) % 2 ^ 64 < 2 ^ 64 :=
      Nat.or_lt_two_pow hvalue (Nat.mod_lt _ (Nat.two_pow_pos 64))
    simp only at h
    split at h
    · cases h
      refine ⟨hnext, ?_⟩
      have hget : bytes[offset]? = some b := orElseErr_eq_ok.1 hbyte
      exact (List.getElem?_eq_some_iff.1 hget).1
    · exact ih hnext h

theorem leanWalk_positions {body : TreeBody} (hlayout : body.layout = .lean bodyStart)
    (h : walk (body.step decompress) n cursor = .ok (items, last)) :
    ∀ position ∈ items.map DecodedStreamEntry.position, position = none := by
  have hstep : ∀ cursor (seen : List DecodedStreamEntry) item next,
      (∀ position ∈ seen.map DecodedStreamEntry.position, position = none) →
      body.step decompress cursor = .ok (item, next) →
      ∀ position ∈ (seen ++ [item]).map DecodedStreamEntry.position, position = none := by
    intro cursor seen item next hseen hstep
    obtain ⟨hentry, _⟩ := (TreeBody.step_ok_iff decompress).1 hstep
    rw [TreeBody.entryAt, hlayout] at hentry
    obtain ⟨_, _, hposition, _⟩ := readLeanEntry_ok_iff.1 hentry
    rw [map_append, forall_mem_append]
    exact ⟨hseen, fun position hmem => by rw [mem_singleton.1 hmem, hposition]⟩
  have hnone : ∀ position ∈ ([] : List DecodedStreamEntry).map DecodedStreamEntry.position,
      position = none := fun _ h => absurd h not_mem_nil
  exact walk_inv hstep h hnone

def leanBody (source : BytesTreeSource) (expectedId : ContentHash) (count bodyStart : Nat) :
    TreeBody where
  source := source
  header := {
    version := treeLeanEncodingVersion
    treeId := expectedId
    entryCount := count
    payloadLen := source.bytes.length - bodyStart
    logicalLen := 0 }
  layout := .lean bodyStart

theorem openLean_ok_iff :
    openLean source expectedId = .ok (header, layout) ↔ ∃ count bodyStart,
      (sliceInput source.bytes).takeVarint 4 = .ok (count, bodyStart) ∧
        TreeBody.mk source header layout = leanBody source expectedId count bodyStart := by
  simp only [ openLean, bind_eq_ok, refuse_eq_ok, pure_eq_ok, Except.ok.injEq, Prod.mk.injEq,
    ← takeVarint_same source _ _, not_lt]
  constructor
  · rintro ⟨⟨count, bodyStart⟩, hcount, _, _, rfl, rfl⟩
    exact ⟨count, bodyStart, hcount, rfl⟩
  · rintro ⟨count, bodyStart, hcount, hbody⟩
    cases hbody
    exact ⟨(count, bodyStart), hcount, (), (takeVarintFrom_bounds (Nat.two_pow_pos 64) hcount).2, rfl,
      rfl⟩

theorem leanWalk_iff (hsize : source.bytes.length < 2 ^ 64) (expectedId : ContentHash)
    (count bodyStart stop : Nat) (entries : List (TreeEntry ContentHash)) :
    decodeLeanFrom source.bytes count "" bodyStart [] = .ok (entries, stop) ↔
      ∃ items last, walk ((leanBody source expectedId count bodyStart).step decompress) count
          (leanBody source expectedId count bodyStart).freshReader.cursor = .ok (items, last) ∧
        entries = items.map DecodedStreamEntry.entry ∧ last.byteOffset = stop := by
  have hiff : decodeLeanFrom (leanBody source expectedId count bodyStart).source.bytes count ""
      (leanBody source expectedId count bodyStart).freshReader.cursor.byteOffset [] =
      .ok (entries, stop) ↔ ∃ items last, walk ((leanBody source expectedId count bodyStart).step decompress)
      count (leanBody source expectedId count bodyStart).freshReader.cursor = .ok (items, last) ∧
      entries = [] ++ items.map DecodedStreamEntry.entry ∧ last.byteOffset = stop :=
    decodeLeanFrom_ok_iff decompress hsize rfl rfl
  exact hiff

theorem decodeLean_iff_holds (source : BytesTreeSource) (hlean : isLeanTree source.bytes)
    (hsize : source.bytes.length < 2 ^ 64) :
    decodeLean blake3 source.bytes expectedId = .ok t ↔
      ∃ header layout items, openLean source expectedId = .ok (header, layout) ∧
        (TreeBody.mk source header layout).Holds blake3 decompress items ∧ DecodesTo items t := by
  simp only [ decodeLean, decodeLeanEntries, bind_eq_ok, refuse_eq_ok, liftTree_eq_ok,
    pure_eq_ok, Except.ok.injEq, not_not, tryFromDecodedLayout_ok_iff, openLean_ok_iff]
  constructor
  · rintro ⟨_, ⟨_, _, ⟨count, bodyStart⟩, hcount, ⟨entries, stop⟩, hfrom, _, _, rfl⟩, _, hstop, tree,
      ⟨htree, hvalid⟩, _, hhash, rfl⟩
    have hbound := (takeVarintFrom_bounds (Nat.two_pow_pos 64) hcount).1
    rw [Nat.min_eq_right (by simp only [usizeMax]; omega)] at hfrom
    obtain ⟨items, last, hwalk, rfl, hlast⟩ :=
      (leanWalk_iff decompress hsize expectedId count bodyStart stop entries).1 hfrom
    have hlength := walk_length hwalk
    refine ⟨_, _, items, ⟨count, bodyStart, hcount, rfl⟩,
      ⟨⟨last, hlength.symm ▸ hwalk, hlast.trans hstop⟩, hlength, ?_, trivial⟩, [],
      .inl ⟨rfl, leanWalk_positions decompress rfl hwalk⟩, htree, hvalid⟩
    exact ⟨tree, tryFromDecodedLayout_ok_iff.2 ⟨htree, hvalid⟩, hhash⟩
  · rintro ⟨header, layout, items, ⟨count, bodyStart, hcount, hbody⟩, hholds, positions, hpos, htree,
      hvalid⟩
    rw [hbody] at hholds
    obtain ⟨⟨last, hwalk, hlast⟩, hlength, ⟨tree, htree', hhash⟩, _⟩ := hholds
    have hlength : items.length = count := hlength
    rw [hlength] at hwalk
    have hbound := (takeVarintFrom_bounds (Nat.two_pow_pos 64) hcount).1
    have hfrom := (leanWalk_iff decompress hsize expectedId count bodyStart
      source.bytes.length _).2 ⟨items, last, hwalk, rfl, hlast⟩
    have hsame : positions = [] := hpos.eq_nil (leanWalk_positions decompress rfl hwalk)
    obtain ⟨rfl, _⟩ := tryFromDecodedLayout_ok_iff.1 htree'
    have heq : t = { entries := items.map DecodedStreamEntry.entry } := by
      rw [htree, hsame]
      rfl
    refine ⟨(items.map DecodedStreamEntry.entry, source.bytes.length), ⟨(), hlean,
      (count, bodyStart), hcount, _, ?_, (), ?_, rfl⟩, (), rfl, t, ⟨heq, hvalid⟩, (), ?_, rfl⟩
    · rw [Nat.min_eq_right (by simp only [usizeMax]; omega)]
      exact hfrom
    · simp only [not_and, not_not, implies_true]
    · rw [heq]
      exact hhash

end LeanBody

end Heddle
