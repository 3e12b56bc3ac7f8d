import Heddle.Object.CanonicalImage
import Heddle.Object.TreeDelta

namespace Heddle
open Heddle.Lib
open List hiding count le_refl le_trans min not_le not_lt

section Ops
variable {data : Bytes} {ops : List TreeDeltaOp}

def TreeDeltaOp.Writable : TreeDeltaOp → Prop
  | .remove name => validateName name = .ok ()
  | .upsert e => validateName e.name = .ok () ∧ e.gitMode = none

theorem encodeDeltaOps_cons_ok_iff :
    encodeDeltaOps previous (op :: ops) = .ok frames ↔
      ∃ bytes rest, encodeDeltaOp previous op = .ok bytes ∧
        ¬(previous ≠ "" ∧ op.name ≤ previous) ∧ encodeDeltaOps op.name ops = .ok rest ∧
        frames = bytes :: rest := by
  simp only [encodeDeltaOps, bind_eq_ok, refuse_eq_ok, pure_eq_ok, Except.ok.injEq]
  apply Iff.intro
  · intro h
    obtain ⟨bytes, hop, _, hsorted, rest, hrest, hframes⟩ := h
    exact ⟨bytes, rest, hop, hsorted, hrest, hframes.symm⟩
  · intro h
    obtain ⟨bytes, rest, hop, hsorted, hrest, hframes⟩ := h
    exact ⟨bytes, hop, (), hsorted, rest, hrest, hframes.symm⟩

theorem encodeDeltaOp_isOk (h : op.Writable) (previous : String) :
    ∃ bytes, encodeDeltaOp previous op = .ok bytes := by
  cases op with
  | remove name => exact ⟨_, rfl⟩
  | upsert e =>
    have hentry : encodeLeanEntry e previous = .ok _ := encodeLeanEntry_ok_iff.2 ⟨h.2, rfl⟩
    exact ⟨_, bind_eq_ok.2 ⟨_, hentry, rfl⟩⟩

theorem encodeDeltaOps_isOk (hops : ∀ op ∈ ops, op.Writable)
    (hsorted : SortedBy TreeDeltaOp.name ops)
    (hprevious : previous ≠ "" → ∀ op ∈ ops, previous < op.name) :
    ∃ frames, encodeDeltaOps previous ops = .ok frames := by
  induction ops generalizing previous with
  | nil => exact ⟨[], rfl⟩
  | cons op ops ih =>
    obtain ⟨habove, hrest⟩ := sortedBy_cons.1 hsorted
    obtain ⟨bytes, hbytes⟩ := encodeDeltaOp_isOk (hops op (.head _)) previous
    obtain ⟨rest, hframes⟩ := ih (fun o ho => hops o (.tail _ ho)) hrest fun _ => habove
    have hbefore : ¬(previous ≠ "" ∧ op.name ≤ previous) := by
      intro hle
      exact absurd (hprevious hle.1 op (.head _)) (not_lt_of_ge hle.2)
    exact ⟨_, encodeDeltaOps_cons_ok_iff.2 ⟨bytes, rest, hbytes, hbefore, hframes, rfl⟩⟩

theorem encodeDeltaOps_length (h : encodeDeltaOps previous ops = .ok frames) :
    frames.length = ops.length := by
  induction ops generalizing previous frames with
  | nil =>
    cases h
    rfl
  | cons op ops ih =>
    obtain ⟨bytes, rest, _, _, hrest, rfl⟩ := encodeDeltaOps_cons_ok_iff.1 h
    rw [length_cons, length_cons, ih hrest]

theorem encodeDeltaOps_take (h : encodeDeltaOps previous ops = .ok frames) (n : Nat) :
    encodeDeltaOps previous (ops.take n) = .ok (frames.take n) := by
  induction ops generalizing previous frames n with
  | nil =>
    cases h
    rw [take_nil, take_nil]
    rfl
  | cons op ops ih =>
    obtain ⟨bytes, rest, hop, hsorted, hrest, rfl⟩ := encodeDeltaOps_cons_ok_iff.1 h
    cases n with
    | zero => rfl
    | succ n =>
      rw [take_succ_cons, take_succ_cons]
      exact encodeDeltaOps_cons_ok_iff.2 ⟨bytes, _, hop, hsorted, ih hrest n, rfl⟩

theorem decodeDeltaOp_encode (hsize : data.length < 2 ^ 64) (hwritable : op.Writable)
    (hencode : encodeDeltaOp previous op = .ok bytes) (h : BytesAt data offset bytes) :
    decodeDeltaOp data offset previous = .ok (op, offset + bytes.length) := by
  cases op with
  | remove name =>
    cases hencode
    have hlen := validateName_length hwritable
    obtain ⟨mid, start, hshared, hsuffix, hsuffixAt, hend⟩ :=
      takeSharedName (by omega) h.cons.2
    have hsuffixRead := sliceInput_field hsize hsuffixAt "delta name length"
    rw [length_drop] at hsuffixRead
    refine bind_eq_ok.2 ⟨_, sliceInput_byte h, ?_⟩
    rw [if_pos rfl]
    refine bind_eq_ok.2 ⟨_, hshared, bind_eq_ok.2 ⟨_, hsuffix, ?_⟩⟩
    refine bind_eq_ok.2 ⟨(), refuse_eq_ok.2 (not_lt.2 (sharedPrefix_le_left _ _)), ?_⟩
    refine bind_eq_ok.2 ⟨_, hsuffixRead, ?_⟩
    refine bind_eq_ok.2 ⟨_, orElseErr_eq_ok.2 (fromUtf8_sharedName _ _), ?_⟩
    rw [pure_eq_ok, hend, length_cons]
    congr 2
    omega
  | upsert e =>
    obtain ⟨entry, hentry, hbytes⟩ := bind_eq_ok.1 hencode
    cases hbytes
    have hread := decodeCompactEntry_encode hsize hwritable.1 hentry h.cons.2
    refine bind_eq_ok.2 ⟨_, sliceInput_byte h, ?_⟩
    rw [if_neg (by decide), if_pos rfl]
    refine bind_eq_ok.2 ⟨_, hread, ?_⟩
    rw [pure_eq_ok, length_cons]
    congr 2
    omega

theorem decodeDeltaOpsFrom_encode (hsize : data.length < 2 ^ 64)
    (hops : ∀ op ∈ ops, op.Writable) (hencode : encodeDeltaOps previous ops = .ok frames)
    (h : BytesAt data offset frames.flatten) (before : List TreeDeltaOp) :
    decodeDeltaOpsFrom data ops.length previous offset before =
      .ok (before ++ ops, offset + frames.flatten.length) := by
  induction ops generalizing previous offset frames before with
  | nil =>
    cases hencode
    rw [append_nil]
    rfl
  | cons op ops ih =>
    obtain ⟨bytes, rest, hop, hsorted, hrest, rfl⟩ := encodeDeltaOps_cons_ok_iff.1 hencode
    rw [flatten_cons] at h ⊢
    obtain ⟨hat, hatRest⟩ := h.append
    have hread := decodeDeltaOp_encode hsize (hops op (.head _)) hop hat
    rw [length_cons, decodeDeltaOpsFrom]
    refine bind_eq_ok.2 ⟨_, hread, bind_eq_ok.2 ⟨(), refuse_eq_ok.2 hsorted, ?_⟩⟩
    have hstep := ih (fun o ho => hops o (.tail _ ho)) hrest hatRest (before ++ [op])
    rw [hstep, append_assoc, singleton_append, length_append, Nat.add_assoc]

end Ops

section Header
variable {data : Bytes} {header : TreeDeltaHeader}

structure TreeDeltaHeader.Fits (header : TreeDeltaHeader) : Prop where
  resultCount : header.resultCount < 2 ^ 32
  opCount : header.opCount < 2 ^ 16
  firstOpCount : header.firstOpCount < 2 ^ 16
  firstBaseCount : header.firstBaseCount < 2 ^ 16
  firstEnd : header.firstEnd < 2 ^ 32
  hundredOpCount : header.hundredOpCount < 2 ^ 16
  hundredBaseCount : header.hundredBaseCount < 2 ^ 16
  hundredEnd : header.hundredEnd < 2 ^ 32

theorem treeDeltaMagic_length : treeDeltaMagic.length = 4 := by decide +kernel

theorem TreeDeltaHeader.encode_length (header : TreeDeltaHeader) :
    header.encode.length = treeDeltaHeaderLen := by
  simp only [encode, length_append, treeDeltaMagic_length, length_singleton,
    ContentHash.asBytes_length, length_leBytes, treeDeltaHeaderLen]

theorem readLeAt_leBytes (hn : n < 256 ^ width) (h : BytesAt data offset (leBytes width n)) :
    readLeAt data offset width = .ok n := by
  have hslice := h.sliceAt
  rw [length_leBytes] at hslice
  refine bind_eq_ok.2 ⟨_, orElseErr_eq_ok.2 hslice, ?_⟩
  rw [pure_eq_ok, ofLeBytes_leBytes hn]

theorem deltaHeaderFields_encode (hfits : header.Fits) (h : BytesAt data 0 header.encode) :
    deltaHeaderFields data = .ok header := by
  obtain ⟨_, h⟩ := BytesAt.append h
  obtain ⟨_, h⟩ := h.append
  obtain ⟨hanchor, h⟩ := h.append
  obtain ⟨hresult, h⟩ := h.append
  obtain ⟨hops, h⟩ := h.append
  obtain ⟨hfirstOps, h⟩ := h.append
  obtain ⟨hfirstBase, h⟩ := h.append
  obtain ⟨hfirstEnd, h⟩ := h.append
  obtain ⟨hhundredOps, h⟩ := h.append
  obtain ⟨hhundredBase, hhundredEnd⟩ := h.append
  simp only [treeDeltaMagic_length, length_singleton, ContentHash.asBytes_length,
    length_leBytes, Nat.reduceAdd] at hanchor hresult hops hfirstOps hfirstBase hfirstEnd
  simp only [treeDeltaMagic_length, length_singleton, ContentHash.asBytes_length,
    length_leBytes, Nat.reduceAdd] at hhundredOps hhundredBase hhundredEnd
  have hslice := hanchor.take_drop
  rw [ContentHash.asBytes_length] at hslice
  refine bind_eq_ok.2 ⟨header.anchor, orElseErr_eq_ok.2 ?_, ?_⟩
  · rw [hslice, ContentHash.ofSlice_asBytes]
  refine bind_eq_ok.2 ⟨_, readLeAt_leBytes hfits.resultCount hresult, ?_⟩
  refine bind_eq_ok.2 ⟨_, readLeAt_leBytes hfits.opCount hops, ?_⟩
  refine bind_eq_ok.2 ⟨_, readLeAt_leBytes hfits.firstOpCount hfirstOps, ?_⟩
  refine bind_eq_ok.2 ⟨_, readLeAt_leBytes hfits.firstBaseCount hfirstBase, ?_⟩
  refine bind_eq_ok.2 ⟨_, readLeAt_leBytes hfits.firstEnd hfirstEnd, ?_⟩
  refine bind_eq_ok.2 ⟨_, readLeAt_leBytes hfits.hundredOpCount hhundredOps, ?_⟩
  refine bind_eq_ok.2 ⟨_, readLeAt_leBytes hfits.hundredBaseCount hhundredBase, ?_⟩
  exact bind_eq_ok.2 ⟨_, readLeAt_leBytes hfits.hundredEnd hhundredEnd, rfl⟩

theorem decodeTreeDeltaHeaderPrefix_encode (hfits : header.Fits)
    (hbounds : ¬header.outOfBounds objectLen) (h : BytesAt data 0 header.encode) :
    decodeTreeDeltaHeaderPrefix data objectLen = .ok header := by
  have hlen := h.le
  rw [TreeDeltaHeader.encode_length, Nat.zero_add] at hlen
  obtain ⟨hmagic, hrest⟩ := BytesAt.append h
  have hmagicAt := hmagic.take_drop
  rw [treeDeltaMagic_length] at hmagicAt
  rw [treeDeltaMagic_length, singleton_append] at hrest
  have hversion : headerVersion data = treeDeltaEncodingVersion := by
    rw [headerVersion, headD_eq_head?_getD, head?_drop, hrest.cons.1]
    rfl
  refine bind_eq_ok.2 ⟨(), refuse_eq_ok.2 (not_lt.2 hlen), ?_⟩
  refine bind_eq_ok.2 ⟨(), refuse_eq_ok.2 (not_not.2 (decide_eq_true hmagicAt)), ?_⟩
  refine bind_eq_ok.2 ⟨(), refuse_eq_ok.2 (not_not.2 hversion), ?_⟩
  refine bind_eq_ok.2 ⟨header, deltaHeaderFields_encode hfits h, ?_⟩
  exact bind_eq_ok.2 ⟨(), refuse_eq_ok.2 hbounds, rfl⟩

end Header

structure Tree.Plain (t : Tree ContentHash) : Prop where
  valid : t.validate = .ok ()
  scheme : t.scheme = .v3Flat
  layout : t.hasGitLayout = false

theorem Tree.Plain.sorted (h : Tree.Plain t) : SortedBy TreeEntry.name t.entries :=
  (validate_entries h.valid).2

theorem Tree.Plain.name {t : Tree ContentHash} (h : t.Plain) (he : e ∈ t.entries) :
    validateName e.name = .ok () :=
  TreeEntry.validate_name ((validate_entries h.valid).1 e he)

section Delta
variable {a c : Tree ContentHash}

section
variable (ha : a.Plain) (hc : c.Plain)
include ha hc

theorem treeDelta_writable :
    ∀ op ∈ treeDelta a c, TreeDeltaOp.Writable op := by
  intro op hop
  rcases mem_diffBy hop with h | h
  · obtain ⟨e, he, rfl⟩ := h
    exact ha.name he
  · obtain ⟨e, he, rfl⟩ := h
    exact ⟨hc.name he, (Tree.hasGitLayout_iff.1 hc.layout).2 e he⟩

theorem treeDelta_sorted :
    SortedBy TreeDeltaOp.name (treeDelta a c) :=
  diffBy_sorted ha.sorted hc.sorted

theorem editBy_treeDelta :
    editBy TreeEntry.name a.entries (treeDelta a c) = c.entries :=
  editBy_diffBy ha.sorted hc.sorted

theorem applyTreeDelta_treeDelta :
    applyTreeDelta a (treeDelta a c) = .ok c := by
  refine bind_eq_ok.2 ⟨(), refuse_eq_ok.2 (TreeScheme.ne_salted.2 ha.scheme), ?_⟩
  apply liftTree_eq_ok.2
  rw [editBy_treeDelta ha hc]
  exact tryFromDecodedLayout_ok_iff.2
    ⟨Tree.eq_of_plain hc.valid hc.scheme hc.layout, hc.valid⟩

end

structure PorchCut (a c : Tree ContentHash) (n opCount baseCount : Nat) : Prop where
  opCount_le : opCount ≤ (treeDelta a c).length
  base : editBy TreeEntry.name (a.entries.take baseCount) ((treeDelta a c).take opCount) =
    c.entries.take n
  merged : (editBy TreeEntry.name a.entries ((treeDelta a c).take opCount)).take
    (min n c.entries.length) = c.entries.take n

theorem deltaPrefixCounts_cut (ha : a.Plain) (hc : c.Plain)
    (h : deltaPrefixCounts a c (treeDelta a c) n = .ok (opCount, baseCount)) :
    PorchCut a c n opCount baseCount := by
  unfold deltaPrefixCounts at h
  split at h
  · rename_i hnone
    cases h
    have hempty : c.entries.take n = [] := getLast?_eq_none_iff.1 hnone
    have hlen : min n c.entries.length = 0 := by rw [← length_take, hempty, length_nil]
    refine ⟨Nat.zero_le _, ?_, ?_⟩
    · rw [hempty, take_zero, take_zero, editBy_nil]
    · rw [hempty, hlen, take_zero]
  · rename_i last hlast
    simp only [bind_eq_ok, refuse_eq_ok, pure_eq_ok, Except.ok.injEq, Prod.mk.injEq] at h
    obtain ⟨_, _, _, _, rfl, rfl⟩ := h
    have hfirst := takeWhile_le_last hc.sorted hlast
    have hsorted := treeDelta_sorted ha hc
    have hcut := editBy_takeWhile ha.sorted hsorted last.name
    have hwhole := editBy_takeWhile_append ha.sorted hsorted last.name
    rw [editBy_treeDelta ha hc, hfirst] at hcut hwhole
    refine ⟨(List.takeWhile_prefix _).length_le, ?_, ?_⟩
    · rw [take_length_takeWhile, take_length_takeWhile]
      exact hcut
    · rw [take_length_takeWhile]
      have hlen : (c.entries.take n).length = min n c.entries.length := length_take
      refine Eq.trans (congrArg _ hwhole) ?_
      rw [← hlen, take_left]

theorem deltaPrefixCounts_isOk (ha : a.Plain) (hc : c.Plain)
    (hops : (treeDelta a c).length ≤ treeDeltaMaxOps) (hn : n ≤ 100) :
    ∃ opCount baseCount, deltaPrefixCounts a c (treeDelta a c) n = .ok (opCount, baseCount) ∧
      opCount < 2 ^ 16 ∧ baseCount < 2 ^ 16 := by
  unfold deltaPrefixCounts
  split
  · exact ⟨0, 0, rfl, Nat.two_pow_pos _, Nat.two_pow_pos _⟩
  · rename_i last hlast
    have hcut := editBy_takeWhile ha.sorted (treeDelta_sorted ha hc) last.name
    rw [editBy_treeDelta ha hc, takeWhile_le_last hc.sorted hlast] at hcut
    have hopLen := (List.takeWhile_prefix (l := treeDelta a c)
      fun op : TreeDeltaOp => op.name ≤ last.name).length_le
    have hbase := length_le_editBy TreeEntry.name
      (a.entries.takeWhile fun e => e.name ≤ last.name)
      ((treeDelta a c).takeWhile fun op : TreeDeltaOp => op.name ≤ last.name)
    rw [hcut, length_take] at hbase
    rw [treeDeltaMaxOps] at hops
    have hopBound : ¬2 ^ 16 ≤
        ((treeDelta a c).takeWhile fun op : TreeDeltaOp => op.name ≤ last.name).length := by
      omega
    have hbaseBound : ¬2 ^ 16 ≤ (a.entries.takeWhile fun e => e.name ≤ last.name).length := by
      omega
    exact ⟨_, _, bind_eq_ok.2 ⟨(), refuse_eq_ok.2 hopBound,
      bind_eq_ok.2 ⟨(), refuse_eq_ok.2 hbaseBound, rfl⟩⟩, not_le.1 hopBound,
      not_le.1 hbaseBound⟩

theorem deltaPrefixCounts_mono (hc : c.Plain) (hle : n ≤ m)
    (h : deltaPrefixCounts a c ops n = .ok counts)
    (h' : deltaPrefixCounts a c ops m = .ok counts') :
    counts.1 ≤ counts'.1 := by
  unfold deltaPrefixCounts at h h'
  split at h
  · cases h
    exact Nat.zero_le _
  · rename_i last hlast
    have hmem : last ∈ c.entries.take m :=
      take_subset_take_left _ hle (mem_of_getLast? hlast)
    split at h'
    · rename_i hnone
      rw [getLast?_eq_none_iff.1 hnone] at hmem
      cases hmem
    · rename_i last' hlast'
      simp only [bind_eq_ok, refuse_eq_ok, pure_eq_ok, Except.ok.injEq] at h h'
      obtain ⟨_, _, _, _, rfl⟩ := h
      obtain ⟨_, _, _, _, rfl⟩ := h'
      have hname : last.name ≤ last'.name := by
        rw [← takeWhile_le_last hc.sorted hlast'] at hmem
        exact mem_takeWhile_le TreeEntry.name hmem
      apply length_takeWhile_mono
      intro op hop
      exact decide_eq_true (le_trans (of_decide_eq_true hop) hname)

theorem deltaEndFor_ok_iff : deltaEndFor frames count = .ok stop ↔
    count ≤ frames.length ∧ treeDeltaHeaderLen + (frames.take count).flatten.length = stop ∧
      stop < 2 ^ 32 := by
  simp only [deltaEndFor, bind_eq_ok, refuse_eq_ok, pure_eq_ok, Except.ok.injEq, not_lt, not_le]
  apply Iff.intro
  · intro h
    obtain ⟨_, hcount, _, _, _, hbound, rfl⟩ := h
    exact ⟨hcount, rfl, hbound⟩
  · intro h
    obtain ⟨hcount, rfl, hbound⟩ := h
    exact ⟨(), hcount, (), by omega, (), hbound, rfl⟩

end Delta

section Main
variable (blake3 : Bytes → ContentHash) {a c : Tree ContentHash}

/-- What the fields of a delta header hold: fewer than `2 ^ 32` entries, and a hundred-entry porch
that ends below `2 ^ 32`. -/
def DeltaFits (a c : Tree ContentHash) : Prop :=
  c.entries.length < 2 ^ 32 ∧ ∀ counts frames,
    deltaPrefixCounts a c (treeDelta a c) 100 = .ok counts →
      encodeDeltaOps "" (treeDelta a c) = .ok frames →
        treeDeltaHeaderLen + (frames.take counts.1).flatten.length < 2 ^ 32

/-- The operations of a porch are read from the bytes before its end alone; with the anchor entries
it counts they are the first `n` entries of the result, and walked along the whole anchor they give
these first. -/
def PorchYields (data : Bytes) (a c : Tree ContentHash) (header : TreeDeltaHeader)
    (opCount baseCount stop n : Nat) : Prop :=
  ∃ ops, decodeTreeDeltaOpsPrefix (data.take stop) data.length opCount =
      .ok (header, ops, stop) ∧
    editBy TreeEntry.name (a.entries.take baseCount) ops = c.entries.take n ∧
    (editBy TreeEntry.name a.entries ops).take (min n header.resultCount) = c.entries.take n

structure EncodedDelta (data : Bytes) (a c : Tree ContentHash) (header : TreeDeltaHeader)
    (frames : List Bytes) : Prop where
  bytes : data = header.encode ++ frames.flatten
  ops : encodeDeltaOps "" (treeDelta a c) = .ok frames
  fits : header.Fits
  anchor : header.anchor = a.hash blake3
  resultCount : header.resultCount = c.entries.length
  opCount : header.opCount = (treeDelta a c).length
  first : deltaPrefixCounts a c (treeDelta a c) 1 = .ok (header.firstOpCount, header.firstBaseCount)
  hundred : deltaPrefixCounts a c (treeDelta a c) 100 =
    .ok (header.hundredOpCount, header.hundredBaseCount)
  firstEnd : deltaEndFor frames header.firstOpCount = .ok header.firstEnd
  hundredEnd : deltaEndFor frames header.hundredOpCount = .ok header.hundredEnd

theorem encodeTreeDelta_ok_iff (ha : a.Plain) (hc : c.Plain)
    (hops : (treeDelta a c).length ≤ treeDeltaMaxOps) :
    encodeTreeDelta blake3 (a.hash blake3) a c (treeDelta a c) = .ok data ↔
      ∃ header frames, EncodedDelta blake3 data a c header frames := by
  have hopCount : (treeDelta a c).length < 2 ^ 16 := by
    rw [treeDeltaMaxOps] at hops
    omega
  apply Iff.intro
  · intro h
    simp only [encodeTreeDelta, bind_eq_ok, refuse_eq_ok, pure_eq_ok, Except.ok.injEq,
      not_le] at h
    obtain ⟨_, _, _, _, _, _, _, _, _, _, _, _, applied, happlied, _, _, _, hresult, _, _, first,
      hfirst, hundred, hhundred, frames, hframes, firstEnd, hfirstEnd, hundredEnd, hhundredEnd, _, _,
      hdata⟩ := h
    obtain ⟨opFirst, baseFirst, hfirst', hopFirst, hbaseFirst⟩ :=
      deltaPrefixCounts_isOk ha hc hops (n := 1) (by omega)
    obtain ⟨opHundred, baseHundred, hhundred', hopHundred, hbaseHundred⟩ :=
      deltaPrefixCounts_isOk ha hc hops (n := 100) (le_refl _)
    cases hfirst.symm.trans hfirst'
    cases hhundred.symm.trans hhundred'
    exact ⟨_, frames, hdata.symm, hframes, ⟨hresult, hopCount, hopFirst, hbaseFirst,
      (deltaEndFor_ok_iff.1 hfirstEnd).2.2, hopHundred, hbaseHundred,
      (deltaEndFor_ok_iff.1 hhundredEnd).2.2⟩, rfl, rfl, rfl, hfirst, hhundred, hfirstEnd,
      hhundredEnd⟩
  · intro h
    obtain ⟨header, frames, h⟩ := h
    have hheader : header = {
        anchor := a.hash blake3
        resultCount := c.entries.length
        opCount := (treeDelta a c).length
        firstOpCount := header.firstOpCount
        firstBaseCount := header.firstBaseCount
        firstEnd := header.firstEnd
        hundredOpCount := header.hundredOpCount
        hundredBaseCount := header.hundredBaseCount
        hundredEnd := header.hundredEnd } := by
      rw [← h.anchor, ← h.resultCount, ← h.opCount]
    have hresult := h.fits.resultCount
    rw [h.resultCount] at hresult
    have hschemes : ¬(a.scheme = .v4Salted ∨ c.scheme = .v4Salted) := by
      rw [not_or, TreeScheme.ne_salted, TreeScheme.ne_salted]
      exact ⟨ha.scheme, hc.scheme⟩
    have hlayouts : ¬(a.hasGitLayout || c.hasGitLayout) = true := by
      rw [ha.layout, hc.layout]
      exact Bool.false_ne_true
    refine bind_eq_ok.2 ⟨(), refuse_eq_ok.2 hschemes, ?_⟩
    refine bind_eq_ok.2 ⟨(), refuse_eq_ok.2 hlayouts, ?_⟩
    refine bind_eq_ok.2 ⟨(), liftTree_eq_ok.2 ha.valid, ?_⟩
    refine bind_eq_ok.2 ⟨(), liftTree_eq_ok.2 hc.valid, ?_⟩
    refine bind_eq_ok.2 ⟨(), refuse_eq_ok.2 (not_not.2 rfl), ?_⟩
    refine bind_eq_ok.2 ⟨(), refuse_eq_ok.2 (not_lt.2 hops), ?_⟩
    refine bind_eq_ok.2 ⟨c, applyTreeDelta_treeDelta ha hc, ?_⟩
    refine bind_eq_ok.2 ⟨(), refuse_eq_ok.2 (not_not.2 rfl), ?_⟩
    refine bind_eq_ok.2 ⟨(), refuse_eq_ok.2 (not_le.2 hresult), ?_⟩
    refine bind_eq_ok.2 ⟨(), refuse_eq_ok.2 (not_le.2 hopCount), ?_⟩
    refine bind_eq_ok.2 ⟨_, h.first, bind_eq_ok.2 ⟨_, h.hundred, ?_⟩⟩
    refine bind_eq_ok.2 ⟨frames, h.ops, ?_⟩
    refine bind_eq_ok.2 ⟨_, h.firstEnd, bind_eq_ok.2 ⟨_, h.hundredEnd, ?_⟩⟩
    refine bind_eq_ok.2 ⟨(), refuse_eq_ok.2 ?_, ?_⟩
    · exact not_not.2 (TreeDeltaHeader.encode_length _)
    · rw [pure_eq_ok, ← hheader, h.bytes]

theorem flatten_take_length_le (frames : List Bytes) (h : m ≤ n) :
    (frames.take m).flatten.length ≤ (frames.take n).flatten.length := by
  have hsplit := take_append_drop m (frames.take n)
  rw [take_take, Nat.min_eq_left h] at hsplit
  rw [← hsplit, flatten_append, length_append]
  exact Nat.le_add_right _ _

variable {blake3}

section
variable (h : EncodedDelta blake3 data a c header frames)
include h

theorem EncodedDelta.end_of_count (count : Nat) :
    (count = header.firstOpCount →
      treeDeltaHeaderLen + (frames.take count).flatten.length = header.firstEnd) ∧
    (count = header.hundredOpCount →
      treeDeltaHeaderLen + (frames.take count).flatten.length = header.hundredEnd) := by
  obtain ⟨_, hfirst, _⟩ := deltaEndFor_ok_iff.1 h.firstEnd
  obtain ⟨_, hhundred, _⟩ := deltaEndFor_ok_iff.1 h.hundredEnd
  apply And.intro
  · intro hcount
    rw [hcount, hfirst]
  · intro hcount
    rw [hcount, hhundred]

theorem EncodedDelta.length :
    data.length = treeDeltaHeaderLen + frames.flatten.length := by
  rw [h.bytes, length_append, TreeDeltaHeader.encode_length]

theorem EncodedDelta.inBounds (hc : c.Plain)
    (hops : (treeDelta a c).length ≤ treeDeltaMaxOps) : ¬header.outOfBounds data.length := by
  have hframes := encodeDeltaOps_length h.ops
  obtain ⟨hfirstCount, hfirstEnd, _⟩ := deltaEndFor_ok_iff.1 h.firstEnd
  obtain ⟨hhundredCount, hhundredEnd, _⟩ := deltaEndFor_ok_iff.1 h.hundredEnd
  have hmono := flatten_take_length_le frames
    (deltaPrefixCounts_mono hc (by omega) h.first h.hundred)
  have hwhole := flatten_take_length_le frames hhundredCount
  rw [take_length] at hwhole
  have hopCount := h.opCount
  have hlength := h.length
  simp only at hmono
  unfold TreeDeltaHeader.outOfBounds
  omega

/-- The first `count` operations are read from any bytes that begin with them. -/
theorem EncodedDelta.decodeOps (ha : a.Plain)
    (hc : c.Plain) (hops : (treeDelta a c).length ≤ treeDeltaMaxOps)
    (hcount : count ≤ header.opCount) (hsize : front.length < 2 ^ 64)
    (hfront : BytesAt front 0 (header.encode ++ (frames.take count).flatten)) :
    decodeTreeDeltaOpsPrefix front data.length count = .ok (header, (treeDelta a c).take count,
      treeDeltaHeaderLen + (frames.take count).flatten.length) := by
  obtain ⟨hheaderAt, hopsAt⟩ := hfront.append
  rw [TreeDeltaHeader.encode_length, Nat.zero_add] at hopsAt
  have hheader := decodeTreeDeltaHeaderPrefix_encode h.fits (h.inBounds hc hops) hheaderAt
  have hread := decodeDeltaOpsFrom_encode hsize
    (fun op hop => treeDelta_writable ha hc op (mem_of_mem_take hop))
    (encodeDeltaOps_take h.ops count) hopsAt []
  have hlen : ((treeDelta a c).take count).length = count := by
    rw [length_take, ← h.opCount, Nat.min_eq_left hcount]
  rw [hlen, nil_append] at hread
  have hends := h.end_of_count count
  refine bind_eq_ok.2 ⟨header, hheader, ?_⟩
  refine bind_eq_ok.2 ⟨(), refuse_eq_ok.2 (not_lt.2 hcount), ?_⟩
  refine bind_eq_ok.2 ⟨_, hread, bind_eq_ok.2 ⟨(), refuse_eq_ok.2 ?_, rfl⟩⟩
  intro hwrong
  rcases hwrong with ⟨heq, hne⟩ | ⟨heq, hne⟩
  · exact hne (hends.1 heq)
  · exact hne (hends.2 heq)

theorem EncodedDelta.front (count : Nat) :
    BytesAt (data.take (treeDeltaHeaderLen + (frames.take count).flatten.length)) 0
      (header.encode ++ (frames.take count).flatten) := by
  have hsplit : data = (header.encode ++ (frames.take count).flatten) ++
      (frames.drop count).flatten := by
    rw [h.bytes, append_assoc, ← flatten_append, take_append_drop]
  have hlen : (header.encode ++ (frames.take count).flatten).length =
      treeDeltaHeaderLen + (frames.take count).flatten.length := by
    rw [length_append, TreeDeltaHeader.encode_length]
  refine ⟨[], [], ?_, rfl⟩
  rw [← hlen, hsplit, take_left, append_nil, nil_append]

section
variable (ha : a.Plain) (hc : c.Plain) (hops : (treeDelta a c).length ≤ treeDeltaMaxOps)
  (hsize : data.length < 2 ^ 64)
include ha hc hops hsize

theorem EncodedDelta.decode :
    decodeTreeDelta blake3 data a (c.hash blake3) = .ok c := by
  have hall : frames.take header.opCount = frames := by
    rw [h.opCount, ← encodeDeltaOps_length h.ops, take_length]
  have hat : BytesAt data 0 (header.encode ++ (frames.take header.opCount).flatten) :=
    ⟨[], [], by rw [hall, ← h.bytes, append_nil, nil_append], rfl⟩
  have hheader := decodeTreeDeltaHeaderPrefix_encode h.fits (h.inBounds hc hops)
    (BytesAt.append hat).1
  have hread := h.decodeOps ha hc hops (le_refl _) hsize hat
  rw [hall, h.opCount, take_length, ← h.opCount, ← h.length] at hread
  refine bind_eq_ok.2 ⟨header, hheader, bind_eq_ok.2 ⟨_, hread, ?_⟩⟩
  refine bind_eq_ok.2 ⟨(), refuse_eq_ok.2 (not_not.2 rfl), ?_⟩
  refine bind_eq_ok.2 ⟨(), refuse_eq_ok.2 (not_not.2 h.anchor.symm), ?_⟩
  refine bind_eq_ok.2 ⟨c, applyTreeDelta_treeDelta ha hc, ?_⟩
  refine bind_eq_ok.2 ⟨(), refuse_eq_ok.2 (not_not.2 h.resultCount.symm), ?_⟩
  exact bind_eq_ok.2 ⟨(), refuse_eq_ok.2 (not_not.2 rfl), rfl⟩

theorem EncodedDelta.porch (hcounts : deltaPrefixCounts a c (treeDelta a c) n = .ok (count, base))
    (hend : deltaEndFor frames count = .ok stop) :
    PorchYields data a c header count base stop n := by
  obtain ⟨_, hstop, _⟩ := deltaEndFor_ok_iff.1 hend
  have hcut := deltaPrefixCounts_cut ha hc hcounts
  have hfront := h.front count
  rw [hstop] at hfront
  have hfrontSize : (data.take stop).length < 2 ^ 64 := by
    rw [length_take]
    omega
  have hread := h.decodeOps ha hc hops (h.opCount ▸ hcut.opCount_le) hfrontSize hfront
  rw [hstop] at hread
  refine ⟨_, hread, hcut.base, ?_⟩
  rw [h.resultCount]
  exact hcut.merged

end

end

theorem encodeTreeDelta_isOk_iff (ha : a.Plain) (hc : c.Plain)
    (hops : (treeDelta a c).length ≤ treeDeltaMaxOps) :
    (∃ data, encodeTreeDelta blake3 (a.hash blake3) a c (treeDelta a c) = .ok data) ↔
      DeltaFits a c := by
  have habove : ("" : String) ≠ "" → ∀ op ∈ treeDelta a c, "" < TreeDeltaOp.name op :=
    fun hne => absurd rfl hne
  obtain ⟨frames, hframes⟩ := encodeDeltaOps_isOk (treeDelta_writable ha hc)
    (treeDelta_sorted ha hc) habove
  have hlen := encodeDeltaOps_length hframes
  obtain ⟨m, b, hfirst, hm, hb⟩ := deltaPrefixCounts_isOk ha hc hops (n := 1) (by omega)
  obtain ⟨m', b', hhundred, hm', hb'⟩ := deltaPrefixCounts_isOk ha hc hops (n := 100) (le_refl _)
  have hmono := flatten_take_length_le frames
    (deltaPrefixCounts_mono hc (by omega) hfirst hhundred)
  have hcount := (deltaPrefixCounts_cut ha hc hhundred).opCount_le
  have hcount' := (deltaPrefixCounts_cut ha hc hfirst).opCount_le
  apply Iff.intro
  · intro h
    obtain ⟨data, h⟩ := h
    obtain ⟨header, frames', h⟩ := (encodeTreeDelta_ok_iff blake3 ha hc hops).1 h
    have hresult := h.fits.resultCount
    rw [h.resultCount] at hresult
    refine ⟨hresult, ?_⟩
    intro counts frames hcounts hframes
    cases h.ops.symm.trans hframes
    cases h.hundred.symm.trans hcounts
    obtain ⟨_, hstop, hbound⟩ := deltaEndFor_ok_iff.1 h.hundredEnd
    simp only
    omega
  · intro h
    have hbound := h.2 _ _ hhundred hframes
    simp only at hbound hmono
    have hfirstEnd : deltaEndFor frames m = .ok _ :=
      deltaEndFor_ok_iff.2 ⟨by omega, rfl, by omega⟩
    have hhundredEnd : deltaEndFor frames m' = .ok _ :=
      deltaEndFor_ok_iff.2 ⟨by omega, rfl, hbound⟩
    let header : TreeDeltaHeader := {
      anchor := a.hash blake3
      resultCount := c.entries.length
      opCount := (treeDelta a c).length
      firstOpCount := m
      firstBaseCount := b
      firstEnd := treeDeltaHeaderLen + (frames.take m).flatten.length
      hundredOpCount := m'
      hundredBaseCount := b'
      hundredEnd := treeDeltaHeaderLen + (frames.take m').flatten.length }
    have hopCount : (treeDelta a c).length < 2 ^ 16 := by
      rw [treeDeltaMaxOps] at hops
      omega
    have hfits : header.Fits := ⟨h.1, hopCount, hm, hb, by simp only [header]; omega, hm', hb', hbound⟩
    exact ⟨_, (encodeTreeDelta_ok_iff blake3 ha hc hops).2 ⟨header, frames, rfl, hframes, hfits, rfl,
      rfl, rfl, hfirst, hhundred, hfirstEnd, hhundredEnd⟩⟩

variable (blake3)

/-- A delta between plain trees is encoded when it fits the header's fields; what is encoded
decodes to the result, and its porches give the result's first entry and first hundred entries. -/
theorem treeDelta_reconstructs (ha : a.Plain) (hc : c.Plain)
    (hops : (treeDelta a c).length ≤ treeDeltaMaxOps) :
    ((∃ data, encodeTreeDelta blake3 (a.hash blake3) a c (treeDelta a c) = .ok data) ↔
      DeltaFits a c) ∧
    ∀ data, encodeTreeDelta blake3 (a.hash blake3) a c (treeDelta a c) = .ok data →
      data.length < 2 ^ 64 →
        decodeTreeDelta blake3 data a (c.hash blake3) = .ok c ∧
        ∃ header, decodeTreeDeltaHeader data = .ok header ∧
          PorchYields data a c header header.firstOpCount header.firstBaseCount header.firstEnd 1 ∧
          PorchYields data a c header header.hundredOpCount header.hundredBaseCount
            header.hundredEnd 100 := by
  refine ⟨encodeTreeDelta_isOk_iff ha hc hops, ?_⟩
  intro data hencode hsize
  obtain ⟨header, frames, h⟩ := (encodeTreeDelta_ok_iff blake3 ha hc hops).1 hencode
  have hat : BytesAt data 0 header.encode := ⟨[], frames.flatten, h.bytes, rfl⟩
  have hheader := decodeTreeDeltaHeaderPrefix_encode h.fits (h.inBounds hc hops) hat
  exact ⟨h.decode ha hc hops hsize, header, hheader, h.porch ha hc hops hsize h.first h.firstEnd,
    h.porch ha hc hops hsize h.hundred h.hundredEnd⟩

end Main

section Examples
open PartialTree

def oldTree : Tree ContentHash where
  entries := [{ name := "a", target := .blob zeroHash false },
    { name := "b", target := .tree zeroHash }]

def editedTree : Tree ContentHash where
  entries := [{ name := "b", target := .blob zeroHash true },
    { name := "c", target := .symlink zeroHash }]

theorem oldTree_plain : oldTree.Plain := ⟨by decide +kernel, rfl, rfl⟩

theorem editedTree_plain : editedTree.Plain := ⟨by decide +kernel, rfl, rfl⟩

theorem treeDelta_reconstructs_edited :
    ((∃ data, encodeTreeDelta lengthHash (oldTree.hash lengthHash) oldTree editedTree
      (treeDelta oldTree editedTree) = .ok data) ↔ DeltaFits oldTree editedTree) ∧
    ∀ data, encodeTreeDelta lengthHash (oldTree.hash lengthHash) oldTree editedTree
      (treeDelta oldTree editedTree) = .ok data → data.length < 2 ^ 64 →
        decodeTreeDelta lengthHash data oldTree (editedTree.hash lengthHash) = .ok editedTree ∧
        ∃ header, decodeTreeDeltaHeader data = .ok header ∧
          PorchYields data oldTree editedTree header header.firstOpCount header.firstBaseCount
            header.firstEnd 1 ∧
          PorchYields data oldTree editedTree header header.hundredOpCount header.hundredBaseCount
            header.hundredEnd 100 :=
  treeDelta_reconstructs lengthHash oldTree_plain editedTree_plain
    (le_trans (length_diffBy_le TreeEntry.name oldTree.entries editedTree.entries) (by decide))

theorem longSpoolTree_plain (n : Nat) : (longSpoolTree n).Plain :=
  ⟨longSpoolTree_validate n, rfl, rfl⟩

theorem treeDelta_longSpool (n : Nat) :
    treeDelta Tree.new (longSpoolTree n) = [.upsert (longSpoolEntry n)] := by
  simp [treeDelta, diffBy, Tree.new, longSpoolTree]

theorem longSpool_not_fits (h : 2 ^ 32 ≤ n) : ¬DeltaFits Tree.new (longSpoolTree n) := by
  intro hfits
  have hcounts : deltaPrefixCounts Tree.new (longSpoolTree n)
      (treeDelta Tree.new (longSpoolTree n)) 100 = .ok (1, 0) := by
    rw [treeDelta_longSpool]
    simp [deltaPrefixCounts, longSpoolTree, Tree.new, Edit.keyBy, refuse]
    rfl
  have hentry : encodeLeanEntry (longSpoolEntry n) "" = .ok _ := encodeLeanEntry_ok_iff.2 ⟨rfl, rfl⟩
  have hop : encodeDeltaOp "" (.upsert (longSpoolEntry n)) = .ok _ :=
    bind_eq_ok.2 ⟨_, hentry, rfl⟩
  have hframes : encodeDeltaOps "" [Edit.upsert (longSpoolEntry n)] = .ok _ :=
    encodeDeltaOps_cons_ok_iff.2 ⟨_, [], hop, fun hne => hne.1 rfl, rfl, rfl⟩
  rw [← treeDelta_longSpool] at hframes
  have hbound := hfits.2 _ _ hcounts hframes
  have hlong := length_le_utf8 ('a' :: '/' :: replicate (n + 1) 'a')
  simp only [take_succ_cons, take_zero, flatten_cons, length_append,
    length_cons, longSpoolEntry, TreeEntryTarget.compactPayload, longText,
    length_replicate] at hbound hlong
  omega

/-- A result whose porch ends past `2 ^ 32` is not encoded. -/
theorem treeDelta_longSpool_not_encoded :
    ¬∀ a c : Tree ContentHash, a.Plain → c.Plain → (treeDelta a c).length ≤ treeDeltaMaxOps →
      ∃ data, encodeTreeDelta lengthHash (a.hash lengthHash) a c (treeDelta a c) = .ok data ∧
        decodeTreeDelta lengthHash data a (c.hash lengthHash) = .ok c := by
  intro h
  have hnew : (Tree.new : Tree ContentHash).Plain := ⟨rfl, rfl, rfl⟩
  have hops : (treeDelta Tree.new (longSpoolTree (2 ^ 32))).length ≤ treeDeltaMaxOps := by
    rw [treeDelta_longSpool]
    decide
  obtain ⟨data, hencode, _⟩ := h Tree.new (longSpoolTree (2 ^ 32)) hnew (longSpoolTree_plain _) hops
  exact longSpool_not_fits (le_refl _)
    ((encodeTreeDelta_isOk_iff hnew (longSpoolTree_plain _) hops).1 ⟨data, hencode⟩)

end Examples
end Heddle
