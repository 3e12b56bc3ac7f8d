import Heddle.Object.CanonicalImage

namespace Heddle
open Heddle.Lib
open List hiding Vector

section Encode

def redactedHeader (declaredRoot : ContentHash) (entryCount : Nat) : Bytes :=
  treeRedactedMagic ++ treeRedactedEncodingVersion :: (declaredRoot.asBytes ++ leBytes 8 entryCount)

def visibleLeafBytes (p : TreeEntry ContentHash × Vector UInt8 32) :
    Except TreeStreamError Bytes := do
  let frame ← encodeSaltedEntryFrame p.1 p.2
  refuse (2 ^ 32 ≤ frame.length) (.malformed ("entry '" ++ p.1.name ++ "' frame exceeds u32"))
  return 0 :: framed frame

def redactedLeafBytes (leafHash : ContentHash) : Bytes := 1 :: leafHash.asBytes

def encodeRedactedProjection (p : PartialTree) : Except TreeStreamError Bytes := do
  let visibles := p.visibleEntries.insertionSort fun a b => a.1.name ≤ b.1.name
  let redacted := p.redactedHashes.insertionSort ContentHash.le
  let frames ← visibles.mapM visibleLeafBytes
  return redactedHeader p.declaredRoot (visibles.length + redacted.length) ++
    (frames.flatten ++ redacted.flatMap redactedLeafBytes)

end Encode

section Decode

structure RedactedLeaves where
  leaves : List PartialTreeLeaf := []
  prevVisible : Option String := none
  prevRedacted : Option ContentHash := none
  seenRedacted : Bool := false

def RedactedLeaves.takeVisible (s : RedactedLeaves) (data : Bytes) (offset : Nat) :
    Except TreeStreamError (RedactedLeaves × Nat) := do
  refuse s.seenRedacted (.malformed "HRT1 visible frame follows a redacted leaf")
  let frame ← takeFrame .truncatedFrame data data.length offset
  let item ← decodeSaltedEntryFrame frame.1
  refuse (∃ previous ∈ s.prevVisible, item.1.name ≤ previous)
    (.malformed "HRT1 visible frames must be strictly sorted by name")
  return ({ s with
    leaves := s.leaves ++ [.visible item.1 item.2], prevVisible := some item.1.name }, frame.2)

def RedactedLeaves.takeRedacted (s : RedactedLeaves) (data : Bytes) (offset : Nat) :
    Except TreeStreamError (RedactedLeaves × Nat) := do
  let slice ← orElseErr (.truncatedFrame offset) (sliceAt data offset 32)
  let leafHash ← orElseErr (.malformed "redacted leaf hash is not 32 bytes")
    (ContentHash.ofSlice slice)
  refuse (∃ previous ∈ s.prevRedacted, leafHash.le previous)
    (.malformed "HRT1 redacted leaves must be strictly sorted by leaf hash")
  return ({ s with
    leaves := s.leaves ++ [.redacted leafHash], prevRedacted := some leafHash
    seenRedacted := true }, offset + 32)

def RedactedLeaves.take (s : RedactedLeaves) (data : Bytes) (offset : Nat) :
    Except TreeStreamError (RedactedLeaves × Nat) := do
  let flag ← orElseErr (.truncatedFrame offset) data[offset]?
  if flag = 0 then s.takeVisible data (offset + 1)
  else if flag = 1 then s.takeRedacted data (offset + 1)
  else .error (.malformed ("invalid HRT1 leaf flag " ++ toString flag.toNat))

def takeLeaves (data : Bytes) : Nat → Nat → RedactedLeaves →
    Except TreeStreamError (RedactedLeaves × Nat)
  | 0, offset, s => .ok (s, offset)
  | count + 1, offset, s => do
    let next ← s.take data offset
    takeLeaves data count next.2 next.1

def decodeRedactedProjection (blake3 : Bytes → ContentHash) (data : Bytes) :
    Except TreeStreamError PartialTree := do
  refuse (¬isRedactedTree data) (.malformed "bytes are not an HRT1 redacted projection")
  refuse (data.length < treeRedactedHeaderLen) (.truncatedFrame 0)
  let version := headerVersion data
  refuse (version ≠ treeRedactedEncodingVersion) (.unsupportedVersion version)
  let declaredRoot ← orElseErr (.malformed "tree id slice is not 32 bytes")
    (ContentHash.ofSlice ((data.drop 5).take 32))
  let taken ← takeLeaves data (ofLeBytes ((data.drop 37).take 8)) treeRedactedHeaderLen {}
  refuse (taken.2 ≠ data.length) (.trailingBytes (data.length - taken.2))
  liftTree (PartialTree.fromLeavesVerified blake3 declaredRoot taken.1.leaves)

end Decode

/-- The constructor sorts the entries with their salts and drops the Git layout. -/
def Tree.fromEntriesSaltedV4 (entries : List (TreeEntry ContentHash))
    (salts : List (Vector UInt8 32)) : Except TreeError (Tree ContentHash) := do
  let entries := entries.map TreeEntry.dropRawGitMode
  refuse (entries.length ≠ salts.length) (.invalidStructure ("v4 tree has " ++
    toString entries.length ++ " entries but " ++ toString salts.length ++ " salts"))
  let paired := (entries.zip salts).insertionSort fun a b => a.1.name ≤ b.1.name
  Tree.tryFromDecodedEntriesSaltedV4 (paired.map Prod.fst) (paired.map Prod.snd)

def PartialTreeLeaf.materialize :
    PartialTreeLeaf → Except TreeError (TreeEntry ContentHash × Vector UInt8 32)
  | .visible entry salt => .ok (entry, salt)
  | .redacted _ =>
    .error (.invalidStructure "cannot materialize a redacted leaf into a full tree")

def PartialTree.intoTree (blake3 : Bytes → ContentHash) (p : PartialTree) :
    Except TreeError (Tree ContentHash) := do
  p.verify blake3
  let items ← p.leaves.mapM PartialTreeLeaf.materialize
  Tree.fromEntriesSaltedV4 (items.map Prod.fst) (items.map Prod.snd)

section Order

theorem byteValues_injective : Function.Injective fun hash : ContentHash =>
    hash.asBytes.map UInt8.toNat := by
  intro a b h
  exact ContentHash.asBytes_injective
    ((map_injective_iff.2 fun _ _ hb => UInt8.toNat_inj.1 hb) h)

instance : Std.Total ContentHash.le := ⟨fun _ _ => le_total _ _⟩

instance : IsTrans ContentHash ContentHash.le := ⟨fun _ _ _ => le_trans⟩

instance : Std.Antisymm ContentHash.le :=
  ⟨fun _ _ hab hba => byteValues_injective (le_antisymm hab hba)⟩

variable (blake3 : Bytes → ContentHash)

theorem merkleRootFromLeaves_perm (h : xs.Perm ys) :
    merkleRootFromLeaves blake3 xs = merkleRootFromLeaves blake3 ys := by
  have hsort : xs.insertionSort ContentHash.le = ys.insertionSort ContentHash.le := by
    apply List.Perm.eq_of_pairwise _ (pairwise_insertionSort _ xs)
      (pairwise_insertionSort _ ys)
    · exact (perm_insertionSort _ xs).trans (h.trans (perm_insertionSort _ ys).symm)
    · intro a b _ _ hab hba
      exact antisymm_of ContentHash.le hab hba
  rw [merkleRootFromLeaves, merkleRootFromLeaves, hsort]

end Order

section Leaves

def wireLeaves (visibles : List (TreeEntry ContentHash × Vector UInt8 32))
    (redacted : List ContentHash) : List PartialTreeLeaf :=
  visibles.map (fun p => .visible p.1 p.2) ++ redacted.map .redacted

theorem visibleLeafBytes_ok_iff :
    visibleLeafBytes item = .ok bytes ↔ ∃ frame, encodeSaltedEntryFrame item.1 item.2 = .ok frame ∧
      frame.length < 2 ^ 32 ∧ bytes = 0 :: framed frame := by
  simp only [visibleLeafBytes, bind_eq_ok, refuse_eq_ok, pure_eq_ok, Except.ok.injEq, not_le]
  apply Iff.intro
  · intro h
    obtain ⟨frame, hframe, _, hlen, rfl⟩ := h
    exact ⟨frame, hframe, hlen, rfl⟩
  · intro h
    obtain ⟨frame, hframe, hlen, rfl⟩ := h
    exact ⟨frame, hframe, (), hlen, rfl⟩

theorem flag_at (flag : UInt8) :
    (before ++ flag :: rest)[before.length]? = some flag := by
  rw [getElem?_append_right (Nat.le_refl _), Nat.sub_self]
  rfl

theorem take_visible {s : RedactedLeaves} {item : TreeEntry ContentHash × Vector UInt8 32}
    {leaf before after : Bytes} (hleaf : visibleLeafBytes item = .ok leaf)
    (hvalid : item.1.validate = .ok ()) (hseen : s.seenRedacted = false)
    (hprev : ∀ previous ∈ s.prevVisible, previous < item.1.name) :
    s.take (before ++ (leaf ++ after)) before.length =
      .ok ({ s with
        leaves := s.leaves ++ [.visible item.1 item.2], prevVisible := some item.1.name },
        (before ++ leaf).length) := by
  obtain ⟨frame, hframe, hlen, rfl⟩ := visibleLeafBytes_ok_iff.1 hleaf
  have hdata : before ++ (0 :: framed frame ++ after) = before ++ [0] ++ framed frame ++ after := by
    simp only [append_assoc, cons_append, nil_append]
  have hnext : takeFrame TreeStreamError.truncatedFrame (before ++ (0 :: framed frame ++ after))
      (before ++ (0 :: framed frame ++ after)).length (before.length + 1) =
        .ok (frame, (before ++ 0 :: framed frame).length) := by
    apply (takeFrame_ok_iff _).2
    refine ⟨hlen, before ++ [0], after, hdata, by simp, ?_⟩
    simp only [append_assoc, cons_append, nil_append]
  unfold RedactedLeaves.take
  refine bind_eq_ok.2 ⟨0, orElseErr_eq_ok.2 (flag_at 0), ?_⟩
  rw [if_pos rfl]
  unfold RedactedLeaves.takeVisible
  refine bind_eq_ok.2 ⟨(), refuse_eq_ok.2 (by rw [hseen]; decide), ?_⟩
  refine bind_eq_ok.2 ⟨_, hnext, ?_⟩
  refine bind_eq_ok.2 ⟨item, decodeSaltedEntryFrame_ok_iff.2 ⟨hvalid, hframe⟩, ?_⟩
  refine bind_eq_ok.2 ⟨(), refuse_eq_ok.2 ?_, rfl⟩
  intro hbad
  obtain ⟨previous, hmem, hle⟩ := hbad
  exact absurd hle (not_le.2 (hprev previous hmem))

theorem take_redacted {s : RedactedLeaves} {leafHash : ContentHash} {before after : Bytes}
    (hprev : ∀ previous ∈ s.prevRedacted, ¬leafHash.le previous) :
    s.take (before ++ (redactedLeafBytes leafHash ++ after)) before.length =
      .ok ({ s with
        leaves := s.leaves ++ [.redacted leafHash], prevRedacted := some leafHash
        seenRedacted := true }, (before ++ redactedLeafBytes leafHash).length) := by
  have hslice : sliceAt (before ++ (redactedLeafBytes leafHash ++ after)) (before.length + 1) 32 =
      some leafHash.asBytes := by
    apply sliceAt_eq_some.2
    refine ⟨before ++ [1], after, ?_, by simp, leafHash.asBytes_length⟩
    simp only [redactedLeafBytes, append_assoc, cons_append, nil_append]
  have hend : (before ++ redactedLeafBytes leafHash).length = before.length + 1 + 32 := by
    rw [redactedLeafBytes, length_append, length_cons, leafHash.asBytes_length]
  unfold RedactedLeaves.take
  refine bind_eq_ok.2 ⟨1, orElseErr_eq_ok.2 (flag_at 1), ?_⟩
  rw [if_neg (by decide), if_pos rfl, hend]
  unfold RedactedLeaves.takeRedacted
  refine bind_eq_ok.2 ⟨leafHash.asBytes, orElseErr_eq_ok.2 hslice, ?_⟩
  refine bind_eq_ok.2 ⟨leafHash, orElseErr_eq_ok.2 (ContentHash.ofSlice_asBytes _), ?_⟩
  refine bind_eq_ok.2 ⟨(), refuse_eq_ok.2 ?_, rfl⟩
  intro hbad
  obtain ⟨previous, hmem, hle⟩ := hbad
  exact hprev previous hmem hle

theorem takeLeaves_redacted {data before : Bytes} {redacted : List ContentHash} {s : RedactedLeaves}
    (hdata : data = before ++ redacted.flatMap redactedLeafBytes)
    (hsorted : redacted.Pairwise fun a b => ¬b.le a)
    (hprev : ∀ previous ∈ s.prevRedacted, ∀ leafHash ∈ redacted, ¬leafHash.le previous) :
    ∃ s', takeLeaves data redacted.length before.length s = .ok (s', data.length) ∧
      s'.leaves = s.leaves ++ redacted.map .redacted := by
  induction redacted generalizing before s with
  | nil =>
    rw [flatMap_nil, append_nil] at hdata
    subst hdata
    exact ⟨s, rfl, (append_nil _).symm⟩
  | cons leafHash redacted ih =>
    obtain ⟨hfirst, hrest⟩ := pairwise_cons.1 hsorted
    rw [flatMap_cons] at hdata
    have htake := @take_redacted s leafHash before (redacted.flatMap redactedLeafBytes)
      fun previous hmem => hprev previous hmem leafHash (.head _)
    rw [← hdata] at htake
    obtain ⟨s', hleaves, heq⟩ := @ih (before ++ redactedLeafBytes leafHash)
      { s with
        leaves := s.leaves ++ [.redacted leafHash], prevRedacted := some leafHash
        seenRedacted := true } (by rw [hdata, append_assoc]) hrest (by
          intro previous hmem next hnext
          cases hmem
          exact hfirst next hnext)
    refine ⟨s', bind_eq_ok.2 ⟨_, htake, hleaves⟩, ?_⟩
    rw [heq, map_cons, append_assoc]
    rfl

theorem takeLeaves_wire {data before : Bytes}
    {visibles : List (TreeEntry ContentHash × Vector UInt8 32)} {frames : List Bytes}
    {redacted : List ContentHash} {s : RedactedLeaves}
    (hframes : List.Forall₂ (fun item leaf => visibleLeafBytes item = .ok leaf) visibles frames)
    (hdata : data = before ++ (frames.flatten ++ redacted.flatMap redactedLeafBytes))
    (hvalid : ∀ item ∈ visibles, item.1.validate = .ok ())
    (hnames : visibles.Pairwise fun a b => a.1.name < b.1.name)
    (hsorted : redacted.Pairwise fun a b => ¬b.le a) (hseen : s.seenRedacted = false)
    (hprev : ∀ previous ∈ s.prevVisible, ∀ item ∈ visibles, previous < item.1.name)
    (hnone : s.prevRedacted = none) :
    ∃ s', takeLeaves data (visibles.length + redacted.length) before.length s =
        .ok (s', data.length) ∧ s'.leaves = s.leaves ++ wireLeaves visibles redacted := by
  induction hframes generalizing before s with
  | nil =>
    rw [flatten_nil, nil_append] at hdata
    obtain ⟨s', htake, heq⟩ := @takeLeaves_redacted data before redacted s hdata hsorted (by
      intro previous hmem
      rw [hnone] at hmem
      cases hmem)
    rw [length_nil, Nat.zero_add]
    exact ⟨s', htake, heq⟩
  | @cons item leaf visibles frames hleaf _ ih =>
    obtain ⟨hitem, hvalids⟩ := forall_mem_cons.1 hvalid
    obtain ⟨hfirst, hrest⟩ := pairwise_cons.1 hnames
    rw [flatten_cons, append_assoc] at hdata
    have htake := @take_visible s item leaf before
      (frames.flatten ++ redacted.flatMap redactedLeafBytes) hleaf hitem hseen
      fun previous hmem => hprev previous hmem item (.head _)
    rw [← hdata] at htake
    obtain ⟨s', hleaves, heq⟩ := @ih (before ++ leaf)
      { s with
        leaves := s.leaves ++ [.visible item.1 item.2], prevVisible := some item.1.name }
      (by rw [hdata, append_assoc]) hvalids hrest hseen (by
        intro previous hmem next hnext
        cases hmem
        exact hfirst next hnext) hnone
    refine ⟨s', ?_, ?_⟩
    · rw [length_cons, Nat.add_right_comm]
      exact bind_eq_ok.2 ⟨_, htake, hleaves⟩
    · rw [heq, wireLeaves, wireLeaves, map_cons, append_assoc]
      rfl

end Leaves

section RoundTrip
variable (blake3 : Bytes → ContentHash) {p : PartialTree}

def PartialTree.sortedVisible (p : PartialTree) : List (TreeEntry ContentHash × Vector UInt8 32) :=
  p.visibleEntries.insertionSort fun a b => a.1.name ≤ b.1.name

def PartialTree.sortedRedacted (p : PartialTree) : List ContentHash :=
  p.redactedHashes.insertionSort ContentHash.le

theorem encodeRedactedProjection_ok_iff :
    encodeRedactedProjection p = .ok bytes ↔ ∃ frames,
      List.Forall₂ (fun item leaf => visibleLeafBytes item = .ok leaf) p.sortedVisible frames ∧
      bytes = redactedHeader p.declaredRoot (p.sortedVisible.length + p.sortedRedacted.length) ++
        (frames.flatten ++ p.sortedRedacted.flatMap redactedLeafBytes) := by
  unfold encodeRedactedProjection
  simp only [bind_eq_ok, mapM_ok_iff, pure_eq_ok, Except.ok.injEq]
  apply Iff.intro
  · intro h
    obtain ⟨frames, hframes, rfl⟩ := h
    exact ⟨frames, hframes, rfl⟩
  · intro h
    obtain ⟨frames, hframes, rfl⟩ := h
    exact ⟨frames, hframes, rfl⟩

theorem PartialTree.wireLeaves_perm (p : PartialTree) :
    (wireLeaves p.visibleEntries p.redactedHashes).Perm p.leaves := by
  obtain ⟨root, leaves⟩ := p
  induction leaves with
  | nil => exact .refl _
  | cons leaf leaves ih =>
    cases leaf with
    | visible entry salt => exact ih.cons _
    | redacted leafHash => exact perm_middle.trans (ih.cons _)

theorem PartialTree.sortedVisible_perm (p : PartialTree) : p.sortedVisible.Perm p.visibleEntries :=
  perm_insertionSort _ _

theorem PartialTree.sortedRedacted_perm (p : PartialTree) :
    p.sortedRedacted.Perm p.redactedHashes := perm_insertionSort _ _

theorem wireLeaves_visible (root : ContentHash)
    (visibles : List (TreeEntry ContentHash × Vector UInt8 32)) (redacted : List ContentHash) :
    (PartialTree.mk root (wireLeaves visibles redacted)).visibleEntries = visibles := by
  induction visibles with
  | nil =>
    induction redacted with
    | nil => rfl
    | cons leafHash redacted ih => exact ih
  | cons e visibles ih => exact congrArg (List.cons e) ih

def PartialTree.onWire (p : PartialTree) : PartialTree where
  declaredRoot := p.declaredRoot
  leaves := wireLeaves p.sortedVisible p.sortedRedacted

theorem PartialTree.onWire_perm (p : PartialTree) : p.onWire.leaves.Perm p.leaves := by
  have hsorted : p.onWire.leaves.Perm (wireLeaves p.visibleEntries p.redactedHashes) :=
    (p.sortedVisible_perm.map _).append (p.sortedRedacted_perm.map _)
  exact hsorted.trans p.wireLeaves_perm

theorem PartialTree.onWire_reconstructRoot (p : PartialTree) :
    p.onWire.reconstructRoot blake3 = p.reconstructRoot blake3 :=
  merkleRootFromLeaves_perm blake3 (p.onWire_perm.map _)

theorem PartialTree.sortedVisible_names (h : (p.visibleEntries.map fun e => e.1.name).Nodup) :
    p.sortedVisible.Pairwise fun a b => a.1.name < b.1.name := by
  have htotal : Std.Total fun a b : TreeEntry ContentHash × Vector UInt8 32 => a.1.name ≤ b.1.name :=
    ⟨fun a b => le_total a.1.name b.1.name⟩
  have htrans : IsTrans (TreeEntry ContentHash × Vector UInt8 32)
      fun a b => a.1.name ≤ b.1.name := ⟨fun _ _ _ => le_trans⟩
  have hle : p.sortedVisible.Pairwise fun a b => a.1.name ≤ b.1.name :=
    pairwise_insertionSort _ _
  have hne : (p.sortedVisible.map fun e => e.1.name).Nodup :=
    (p.sortedVisible_perm.map _).nodup_iff.2 h
  apply (hle.and (pairwise_map.1 hne)).imp
  intro a b hab
  exact lt_of_le_of_ne hab.1 hab.2

theorem PartialTree.sortedRedacted_hashes (h : p.redactedHashes.Nodup) :
    p.sortedRedacted.Pairwise fun a b => ¬b.le a := by
  have hle : p.sortedRedacted.Pairwise ContentHash.le := pairwise_insertionSort _ _
  have hne : p.sortedRedacted.Nodup := p.sortedRedacted_perm.nodup_iff.2 h
  apply (hle.and hne).imp
  intro a b hab hba
  exact hab.2 (antisymm_of ContentHash.le hab.1 hba)

/-- What a projection with distinct leaves encodes to decodes to its leaves in the order of the
wire. -/
theorem decode_encode_redactedProjection (hencode : encodeRedactedProjection p = .ok bytes)
    (hverify : p.verify blake3 = .ok ())
    (hvalid : ∀ item ∈ p.visibleEntries, item.1.validate = .ok ())
    (hnames : (p.visibleEntries.map fun e => e.1.name).Nodup) (hhashes : p.redactedHashes.Nodup)
    (hcount : p.leaves.length < 2 ^ 64) :
    decodeRedactedProjection blake3 bytes = .ok p.onWire := by
  obtain ⟨frames, hframes, rfl⟩ := encodeRedactedProjection_ok_iff.1 hencode
  have hmagic : treeRedactedMagic.length = 4 := by decide
  have hleaves : p.sortedVisible.length + p.sortedRedacted.length = p.leaves.length := by
    rw [← p.onWire_perm.length_eq]
    simp only [PartialTree.onWire, wireLeaves, length_append, length_map]
  have hlen : (redactedHeader p.declaredRoot
      (p.sortedVisible.length + p.sortedRedacted.length)).length = treeRedactedHeaderLen := by
    simp only [redactedHeader, length_append, length_cons, hmagic,
      ContentHash.asBytes_length, length_leBytes]
    rfl
  generalize hpayload : frames.flatten ++ p.sortedRedacted.flatMap redactedLeafBytes = payload
  generalize hcounts : p.sortedVisible.length + p.sortedRedacted.length = count at hlen hleaves
  have htake : (redactedHeader p.declaredRoot count ++ payload).take 4 = treeRedactedMagic := by
    rw [redactedHeader, append_assoc]
    exact take_left' hmagic
  have h4 : (redactedHeader p.declaredRoot count ++ payload).drop 4 =
      treeRedactedEncodingVersion :: (p.declaredRoot.asBytes ++ (leBytes 8 count ++ payload)) := by
    rw [redactedHeader, append_assoc, drop_left' hmagic, cons_append,
      append_assoc]
  have h5 : (redactedHeader p.declaredRoot count ++ payload).drop 5 =
      p.declaredRoot.asBytes ++ (leBytes 8 count ++ payload) := by
    rw [show (5 : Nat) = 4 + 1 from rfl, ← drop_drop, h4]
    rfl
  have h37 : (redactedHeader p.declaredRoot count ++ payload).drop 37 =
      leBytes 8 count ++ payload := by
    rw [show (37 : Nat) = 5 + 32 from rfl, ← drop_drop, h5]
    exact drop_left' p.declaredRoot.asBytes_length
  have hread : ofLeBytes ((leBytes 8 count ++ payload).take 8) = count := by
    rw [take_left' (length_leBytes 8 count)]
    exact ofLeBytes_leBytes (by omega)
  obtain ⟨s, htaken, hs⟩ := @takeLeaves_wire (redactedHeader p.declaredRoot count ++ payload)
    (redactedHeader p.declaredRoot count) p.sortedVisible frames p.sortedRedacted {} hframes
    (by rw [hpayload]) (fun item hmem => hvalid item (p.sortedVisible_perm.mem_iff.1 hmem))
    (PartialTree.sortedVisible_names hnames) (PartialTree.sortedRedacted_hashes hhashes) rfl
    (fun _ hmem => nomatch hmem) rfl
  rw [hcounts, hlen] at htaken
  have hroot : p.onWire.verify blake3 = .ok () := by
    rw [PartialTree.verify_ok_iff, PartialTree.onWire_reconstructRoot]
    exact (PartialTree.verify_ok_iff blake3 p).1 hverify
  have hbuilt : PartialTree.fromLeavesVerified blake3 p.declaredRoot s.leaves = .ok p.onWire := by
    rw [hs]
    change PartialTree.fromLeavesVerified blake3 p.declaredRoot p.onWire.leaves = _
    unfold PartialTree.fromLeavesVerified
    have hsame : PartialTree.mk p.declaredRoot p.onWire.leaves = p.onWire := rfl
    rw [hsame, hroot]
  unfold decodeRedactedProjection isRedactedTree headerVersion
  simp only [bind_eq_ok, refuse_eq_ok, orElseErr_eq_ok, liftTree_eq_ok, htake, h4, h5, h37,
    hread, headD_cons, decide_true, not_true_eq_false, not_false_eq_true, ne_eq, exists_const,
    true_and, take_left' p.declaredRoot.asBytes_length, ContentHash.ofSlice_asBytes,
    Option.some.injEq, exists_eq_left', htaken, Except.ok.injEq, hbuilt, and_true]
  rw [length_append, hlen]
  omega

end RoundTrip

section Projection
variable (blake3 : Bytes → ContentHash) {t : Tree ContentHash} {p : PartialTree}

theorem PartialTree.project_ok_iff :
    PartialTree.project blake3 t redacted = .ok p ↔ t.scheme = .v4Salted ∧ t.validate = .ok () ∧
      p = ⟨t.hash blake3, t.salted.map fun e =>
        if Tree.v4LeafHash blake3 e.1 e.2 ∈ redacted then
          .redacted (Tree.v4LeafHash blake3 e.1 e.2)
        else .visible e.1 e.2⟩ := by
  unfold PartialTree.project
  by_cases hscheme : t.scheme = .v4Salted
  · rw [if_neg (not_not.2 hscheme)]
    cases hvalid : t.validate with
    | error err =>
      apply Iff.intro
      · intro h
        cases h
      · intro h
        cases h.2.1
    | ok u =>
      apply Iff.intro
      · intro h
        exact ⟨hscheme, rfl, (Except.ok.inj h).symm⟩
      · intro h
        rw [h.2.2]
  · rw [if_pos hscheme]
    apply Iff.intro
    · intro h
      cases h
    · intro h
      exact absurd h.1 hscheme

variable {items : List (TreeEntry ContentHash × Vector UInt8 32)} {redacted : List ContentHash}
  {root : ContentHash}

def projectLeaf (redacted : List ContentHash) (e : TreeEntry ContentHash × Vector UInt8 32) :
    PartialTreeLeaf :=
  if Tree.v4LeafHash blake3 e.1 e.2 ∈ redacted then .redacted (Tree.v4LeafHash blake3 e.1 e.2)
  else .visible e.1 e.2

theorem visibleEntries_project :
    (PartialTree.mk root (items.map (projectLeaf blake3 redacted))).visibleEntries =
      items.filter fun e => Tree.v4LeafHash blake3 e.1 e.2 ∉ redacted := by
  unfold PartialTree.visibleEntries
  induction items with
  | nil => rfl
  | cons e items ih =>
    rw [map_cons, filterMap_cons, filter_cons, ih, projectLeaf]
    by_cases hin : Tree.v4LeafHash blake3 e.1 e.2 ∈ redacted
    · rw [if_pos hin, if_neg (by simpa using hin)]
    · rw [if_neg hin, if_pos (decide_eq_true hin)]

theorem redactedHashes_project :
    (PartialTree.mk root (items.map (projectLeaf blake3 redacted))).redactedHashes =
      (items.map fun e => Tree.v4LeafHash blake3 e.1 e.2).filter (· ∈ redacted) := by
  unfold PartialTree.redactedHashes
  induction items with
  | nil => rfl
  | cons e items ih =>
    rw [map_cons, map_cons, filterMap_cons, filter_cons, ih, projectLeaf]
    by_cases hin : Tree.v4LeafHash blake3 e.1 e.2 ∈ redacted
    · rw [if_pos hin, if_pos (decide_eq_true hin)]
    · rw [if_neg hin, if_neg (by simpa using hin)]

theorem Tree.salted_names (hvalid : t.validate = .ok ()) (hscheme : t.scheme = .v4Salted) :
    t.salted.Pairwise fun a b => a.1.name < b.1.name := by
  have hnames := (Tree.validate_entries hvalid).2
  rw [← (salted_map_fst hvalid hscheme).1] at hnames
  have hpairs := pairwise_map.1 hnames
  exact hpairs

theorem encodeSaltedEntryFrame_isOk_iff (hvalid : item.1.validate = .ok ()) :
    (∃ leaf, visibleLeafBytes item = .ok leaf) ↔ SpoolIdFits item.1.target := by
  apply Iff.intro
  · intro h
    obtain ⟨leaf, hleaf⟩ := h
    obtain ⟨frame, hframe, _, _⟩ := visibleLeafBytes_ok_iff.1 hleaf
    obtain ⟨inner, hinner, _⟩ := bind_eq_ok.1 hframe
    obtain ⟨_, target, htarget, _⟩ := encodeEntryFrame_ok_iff.1 hinner
    exact encodeTarget_isOk_iff.1 ⟨target, htarget⟩
  · intro h
    obtain ⟨frame, hframe, hlen⟩ := encodeEntryFrame_isOk hvalid h none
    refine ⟨_, visibleLeafBytes_ok_iff.2 ⟨item.2.toList ++ frame, ?_, ?_, rfl⟩⟩
    · exact bind_eq_ok.2 ⟨frame, hframe, rfl⟩
    · rw [length_append, Vector.length_toList]
      omega

structure Projected (t : Tree ContentHash) (hidden : List (TreeEntry ContentHash × Vector UInt8 32))
    (p : PartialTree) : Prop where
  valid : t.validate = .ok ()
  scheme : t.scheme = .v4Salted
  subset : hidden ⊆ t.salted
  injective : Set.InjOn (fun e => Tree.v4LeafHash blake3 e.1 e.2)
    {e : TreeEntry ContentHash × Vector UInt8 32 | e ∈ t.salted}
  projected : PartialTree.project blake3 t
    (hidden.map fun e => Tree.v4LeafHash blake3 e.1 e.2) = .ok p

section Projected
variable {blake3} {hidden : List (TreeEntry ContentHash × Vector UInt8 32)}

section
variable (h : Projected blake3 t hidden p)
include h

theorem Projected.leaves :
    p = ⟨t.hash blake3, t.salted.map
      (projectLeaf blake3 (hidden.map fun e => Tree.v4LeafHash blake3 e.1 e.2))⟩ :=
  ((PartialTree.project_ok_iff blake3).1 h.projected).2.2

theorem Projected.mem_hidden (he : e ∈ t.salted) :
    Tree.v4LeafHash blake3 e.1 e.2 ∈ hidden.map (fun e => Tree.v4LeafHash blake3 e.1 e.2) ↔
      e ∈ hidden := by
  rw [mem_map]
  apply Iff.intro
  · intro hmem
    obtain ⟨e', he', heq⟩ := hmem
    exact h.injective (h.subset he') he heq ▸ he'
  · intro hmem
    exact ⟨e, hmem, rfl⟩

/-- What is visible of a tree: the entries that were not hidden, in the tree's own order. -/
theorem Projected.visible :
    p.visibleEntries = t.salted.filter (· ∉ hidden) := by
  rw [h.leaves, visibleEntries_project]
  apply filter_congr
  intro e he
  rw [decide_eq_decide, h.mem_hidden he]

theorem Projected.names :
    p.visibleEntries.Pairwise fun a b => a.1.name < b.1.name := by
  rw [h.visible]
  exact (t.salted_names h.valid h.scheme).filter _

theorem Projected.sortedVisible :
    p.sortedVisible = t.salted.filter (· ∉ hidden) := by
  rw [← h.visible]
  apply List.Pairwise.insertionSort_eq
  exact h.names.imp le_of_lt

theorem Projected.hashes_nodup : p.redactedHashes.Nodup := by
  have hnodup : t.salted.Nodup := by
    apply (t.salted_names h.valid h.scheme).imp
    intro a b hlt heq
    exact absurd (heq ▸ hlt) (lt_irrefl _)
  rw [h.leaves, redactedHashes_project]
  apply List.Nodup.filter
  exact List.Nodup.map_on (fun a ha b hb heq => h.injective ha hb heq) hnodup

theorem Projected.visible_valid :
    ∀ item ∈ p.visibleEntries, item.1.validate = .ok () := by
  intro item hmem
  rw [h.visible] at hmem
  exact PartialTree.salted_valid h.valid (mem_of_mem_filter hmem)

theorem Projected.encode_isOk_iff :
    (∃ bytes, encodeRedactedProjection p = .ok bytes) ↔
      ∀ e ∈ t.salted, e ∉ hidden → SpoolIdFits e.1.target := by
  have hmem : ∀ e, e ∈ p.sortedVisible ↔ e ∈ t.salted ∧ e ∉ hidden := by
    intro e
    rw [h.sortedVisible, mem_filter, decide_eq_true_eq]
  have hvalid : ∀ e ∈ p.sortedVisible, e.1.validate = .ok () := by
    intro e he
    exact PartialTree.salted_valid h.valid ((hmem e).1 he).1
  apply Iff.intro
  · intro hok e he hout
    obtain ⟨bytes, hbytes⟩ := hok
    obtain ⟨frames, hframes, _⟩ := encodeRedactedProjection_ok_iff.1 hbytes
    have hin := (hmem e).2 ⟨he, hout⟩
    obtain ⟨leaf, _, hleaf⟩ := exists_of_forall₂_mem hframes hin
    exact (encodeSaltedEntryFrame_isOk_iff (hvalid e hin)).1 ⟨leaf, hleaf⟩
  · intro hfits
    have hall : ∀ e ∈ p.sortedVisible, ∃ leaf, visibleLeafBytes e = .ok leaf := by
      intro e he
      obtain ⟨hin, hout⟩ := (hmem e).1 he
      exact (encodeSaltedEntryFrame_isOk_iff (hvalid e he)).2 (hfits e hin hout)
    obtain ⟨frames, hframes⟩ := exists_mapM_ok hall
    exact ⟨_, encodeRedactedProjection_ok_iff.2 ⟨frames, mapM_ok_iff.1 hframes, rfl⟩⟩

theorem Projected.onWire_visible :
    p.onWire.visibleEntries = t.salted.filter (· ∉ hidden) := by
  rw [← h.sortedVisible]
  exact wireLeaves_visible _ _ _

end

theorem materialize_visible (items : List (TreeEntry ContentHash × Vector UInt8 32)) :
    (wireLeaves items []).mapM PartialTreeLeaf.materialize = .ok items := by
  unfold wireLeaves
  rw [map_nil, append_nil]
  apply mapM_ok_iff.2
  apply List.forall₂_map_left_iff.2
  exact List.forall₂_same.2 fun _ _ => rfl

section
variable (hvalid : t.validate = .ok ()) (hscheme : t.scheme = .v4Salted)
include hvalid hscheme

theorem salted_gitMode (he : e ∈ t.entries) : e.gitMode = none := by
  unfold Tree.validate Tree.validateScheme at hvalid
  rw [hscheme] at hvalid
  simp only at hvalid
  split at hvalid
  · cases hvalid
  · rename_i hchecked
    split at hchecked
    · cases hchecked
    · split at hchecked
      · cases hchecked
      · rename_i hany
        by_contra hne
        apply hany
        rw [any_eq_true]
        exact ⟨e, he, Option.isSome_iff_ne_none.2 hne⟩

theorem salted_dropRawGitMode :
    t.entries.map TreeEntry.dropRawGitMode = t.entries := by
  apply (map_congr_left _).trans (map_id _)
  intro e he
  have hnone := salted_gitMode hvalid hscheme he
  cases e
  simp only at hnone
  subst hnone
  rfl

theorem fromEntriesSaltedV4_salted :
    Tree.fromEntriesSaltedV4 (t.salted.map Prod.fst) (t.salted.map Prod.snd) = .ok t := by
  obtain ⟨hfst, hsnd⟩ := salted_map_fst hvalid hscheme
  have hraw : (t.salted.map Prod.fst).map TreeEntry.dropRawGitMode = t.salted.map Prod.fst := by
    rw [hfst, salted_dropRawGitMode hvalid hscheme]
  have hsorted : t.salted.insertionSort (fun a b => a.1.name ≤ b.1.name) = t.salted := by
    apply List.Pairwise.insertionSort_eq
    exact (t.salted_names hvalid hscheme).imp le_of_lt
  have hzip : (t.salted.map Prod.fst).zip (t.salted.map Prod.snd) = t.salted := by
    rw [hfst, hsnd]
    rfl
  unfold Tree.fromEntriesSaltedV4
  simp only [bind_eq_ok, refuse_eq_ok, hraw, hzip, hsorted, length_map,
    tryFromDecodedEntriesSaltedV4_ok_iff]
  refine ⟨(), by simp, ?_, hvalid⟩
  have hpositions := salted_positions hvalid hscheme
  cases t
  simp only at hfst hsnd hscheme hpositions
  rw [hfst, hsnd, hscheme, hpositions]

end

theorem Projected.intoTree (h : Projected blake3 t [] p) : p.onWire.intoTree blake3 = .ok t := by
  have hroot : p.onWire.verify blake3 = .ok () := by
    rw [PartialTree.verify_ok_iff, PartialTree.onWire_reconstructRoot]
    exact (PartialTree.verify_ok_iff blake3 p).1 (PartialTree.project_verify blake3 h.projected)
  have hhidden : p.sortedRedacted = [] := by
    apply List.Perm.eq_nil (p.sortedRedacted_perm.trans _)
    rw [h.leaves, redactedHashes_project]
    simp
  have hvisible : p.sortedVisible = t.salted := by
    rw [h.sortedVisible]
    simp
  have hitems : p.onWire.leaves.mapM PartialTreeLeaf.materialize = .ok t.salted := by
    unfold PartialTree.onWire
    rw [hhidden, hvisible]
    exact materialize_visible t.salted
  unfold PartialTree.intoTree
  rw [hroot, hitems]
  exact fromEntriesSaltedV4_salted h.valid h.scheme

end Projected

/-- A redacted projection can be encoded exactly when the spool ids that it shows are short enough,
and decodes to the visible entries under the hash of the whole tree. -/
theorem redactedProjection_roundTrip (t : Tree ContentHash)
    (hidden : List (TreeEntry ContentHash × Vector UInt8 32)) (hvalid : t.validate = .ok ())
    (hscheme : t.scheme = .v4Salted) (hsub : hidden ⊆ t.salted)
    (hinj : Set.InjOn (fun e => Tree.v4LeafHash blake3 e.1 e.2)
      {e : TreeEntry ContentHash × Vector UInt8 32 | e ∈ t.salted})
    (hcount : t.entries.length < 2 ^ 64) :
    ∃ p, PartialTree.project blake3 t (hidden.map fun e => Tree.v4LeafHash blake3 e.1 e.2) = .ok p ∧
      ((∃ bytes, encodeRedactedProjection p = .ok bytes) ↔
        ∀ e ∈ t.salted, e ∉ hidden → SpoolIdFits e.1.target) ∧
      ∀ bytes, encodeRedactedProjection p = .ok bytes →
        ∃ decoded, decodeRedactedProjection blake3 bytes = .ok decoded ∧
          decoded.declaredRoot = t.hash blake3 ∧ decoded.reconstructRoot blake3 = t.hash blake3 ∧
          decoded.visibleEntries = t.salted.filter (· ∉ hidden) ∧
          (hidden = [] → decoded.intoTree blake3 = .ok t) := by
  obtain ⟨p, hproject⟩ : ∃ p, PartialTree.project blake3 t
      (hidden.map fun e => Tree.v4LeafHash blake3 e.1 e.2) = .ok p :=
    ⟨_, (PartialTree.project_ok_iff blake3).2 ⟨hscheme, hvalid, rfl⟩⟩
  have h : Projected blake3 t hidden p := ⟨hvalid, hscheme, hsub, hinj, hproject⟩
  have hverify := PartialTree.project_verify blake3 hproject
  have hroot : p.declaredRoot = t.hash blake3 := by rw [h.leaves]
  refine ⟨p, hproject, h.encode_isOk_iff, ?_⟩
  intro bytes hencode
  have hnames : (p.visibleEntries.map fun e => e.1.name).Nodup := by
    apply pairwise_map.2
    exact h.names.imp ne_of_lt
  have hleaves : p.leaves.length < 2 ^ 64 := by
    rw [h.leaves, length_map, PartialTree.salted_length hvalid hscheme]
    exact hcount
  refine ⟨p.onWire, decode_encode_redactedProjection blake3 hencode hverify h.visible_valid hnames
    h.hashes_nodup hleaves, hroot, ?_, h.onWire_visible, ?_⟩
  · rw [PartialTree.onWire_reconstructRoot, (PartialTree.verify_ok_iff blake3 p).1 hverify, hroot]
  · intro hnil
    subst hnil
    exact h.intoTree

end Projection

section Fixed
open PartialTree

theorem twoFiles_leafHash_injective :
    Set.InjOn (fun e => Tree.v4LeafHash lengthHash e.1 e.2)
      {e : TreeEntry ContentHash × Vector UInt8 32 | e ∈ twoFiles.salted} := by
  have hne : Tree.v4LeafHash lengthHash (twoFiles.salted[0]).1
      (twoFiles.salted[0]).2 ≠ Tree.v4LeafHash lengthHash
      (twoFiles.salted[1]).1 (twoFiles.salted[1]).2 := by
    decide +kernel
  have hlist : twoFiles.salted =
      [twoFiles.salted[0], twoFiles.salted[1]] := rfl
  intro a ha b hb heq
  change a ∈ twoFiles.salted at ha
  change b ∈ twoFiles.salted at hb
  rw [hlist, mem_cons, mem_singleton] at ha hb
  rcases ha with rfl | rfl
  · rcases hb with rfl | rfl
    · rfl
    · exact absurd heq hne
  · rcases hb with rfl | rfl
    · exact absurd heq.symm hne
    · rfl

/-- The first of two files is hidden. -/
theorem redactedProjection_roundTrip_firstHidden :
    ∃ p, PartialTree.project lengthHash twoFiles
        ([twoFiles.salted[0]].map fun e => Tree.v4LeafHash lengthHash e.1 e.2) =
          .ok p ∧
      ∃ bytes, encodeRedactedProjection p = .ok bytes ∧
        ∃ decoded, decodeRedactedProjection lengthHash bytes = .ok decoded ∧
          decoded.visibleEntries = [twoFiles.salted[1]] := by
  obtain ⟨p, hproject, hencode, hdecode⟩ := redactedProjection_roundTrip lengthHash
    twoFiles [twoFiles.salted[0]] (by decide) rfl
    (cons_subset.2 ⟨by decide, nil_subset _⟩) twoFiles_leafHash_injective (by decide)
  obtain ⟨bytes, hbytes⟩ := hencode.2 (by decide)
  obtain ⟨decoded, hdecoded, _, _, hvisible, _⟩ := hdecode bytes hbytes
  exact ⟨p, hproject, bytes, hbytes, decoded, hdecoded, hvisible.trans (by decide)⟩

def longSpoolSalted (n : Nat) : Tree ContentHash where
  entries := [longSpoolEntry n]
  scheme := .v4Salted
  salts := [Vector.replicate 32 0]

theorem longSpoolSalted_validate (n : Nat) : (longSpoolSalted n).validate = .ok () := by
  have hentry : (longSpoolEntry n).validate = .ok () :=
    (Tree.validate_entries (longSpoolTree_validate n)).1 _ (.head _)
  have hentries : Tree.validateEntries none (longSpoolSalted n).entries = .ok () := by
    apply (Tree.validateEntries_ok_iff _ _).2
    refine ⟨forall_mem_singleton.2 hentry, ?_, pairwise_singleton _ _⟩
    intro previous hmem
    cases hmem
  have hscheme : (longSpoolSalted n).validateScheme = .ok () := rfl
  rw [Tree.validate, hscheme, hentries]
  rfl

/-- A projection that cannot be encoded, of a valid tree. -/
theorem redactedProjection_longSpool :
    ¬∀ (blake3 : Bytes → ContentHash) (t : Tree ContentHash)
      (hidden : List (TreeEntry ContentHash × Vector UInt8 32)), t.validate = .ok () →
      t.scheme = .v4Salted → hidden ⊆ t.salted →
      Set.InjOn (fun e => Tree.v4LeafHash blake3 e.1 e.2)
        {e : TreeEntry ContentHash × Vector UInt8 32 | e ∈ t.salted} →
      t.entries.length < 2 ^ 64 →
      ∃ p bytes, PartialTree.project blake3 t
          (hidden.map fun e => Tree.v4LeafHash blake3 e.1 e.2) = .ok p ∧
        encodeRedactedProjection p = .ok bytes ∧
        ∃ decoded, decodeRedactedProjection blake3 bytes = .ok decoded := by
  intro hclaim
  have hinj : Set.InjOn (fun e => Tree.v4LeafHash lengthHash e.1 e.2)
      {e : TreeEntry ContentHash × Vector UInt8 32 | e ∈ (longSpoolSalted 65535).salted} := by
    intro a ha b hb _
    exact (mem_singleton.1 ha).trans (mem_singleton.1 hb).symm
  obtain ⟨p, bytes, hproject, hencode, _⟩ := hclaim lengthHash (longSpoolSalted 65535) []
    (longSpoolSalted_validate 65535) rfl (nil_subset _) hinj (by decide)
  have h : Projected lengthHash (longSpoolSalted 65535) [] p :=
    ⟨longSpoolSalted_validate 65535, rfl, nil_subset _, hinj, hproject⟩
  have hfits := h.encode_isOk_iff.1 ⟨bytes, hencode⟩ (longSpoolEntry 65535, Vector.replicate 32 0)
    (.head _) not_mem_nil
  exact longSpoolEntry_overflows (le_refl 65535) hfits

end Fixed

end Heddle
