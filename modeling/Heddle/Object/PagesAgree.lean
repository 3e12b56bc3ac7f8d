import Heddle.Object.StreamAgreement
import Mathlib.Algebra.Order.BigOperators.Group.List

namespace Heddle
open Heddle.Lib List

section Agree
variable (blake3 : Bytes → ContentHash) (decompress : Bytes → Nat → Except String Bytes)

/-- What the eager decoder of the body's format accepts for a tree id. -/
def EagerTree (data : Bytes) (expectedId : ContentHash) (t : Tree ContentHash) : Prop :=
  (isLeanTree data ∧ decodeLean blake3 data expectedId = .ok t) ∨
    (isCanonicalTree data ∧ Tree.decodeCanonical blake3 decompress data = .ok t ∧
      t.hash blake3 = expectedId)

/-- The entries a body spells out, with its header, name order, lengths, blocks and tree id right. -/
def BodyEntries (data : Bytes) (expectedId : ContentHash) (items : List DecodedStreamEntry) : Prop :=
  ∃ header layout, openLayout ⟨data, .sequentialVerify⟩ expectedId = .ok (header, layout) ∧
    (TreeBody.mk ⟨data, .sequentialVerify⟩ header layout).Holds blake3 decompress items

/-- Whatever the page limits, as long as no entry of the body exceeds them: the reader verifies what
the eager decoder accepts, and its pages make the same tree. -/
def PagesAgree (data : Bytes) (expectedId : ContentHash) : Prop :=
  ∀ integrity (limits : TreePageLimits),
    (∀ items, BodyEntries blake3 decompress data expectedId items → ∀ item ∈ items,
      item.entry.decodedSize ≤ limits.maxDecodedBytes) →
    ((∃ pages, TreeEntryReader.readBody blake3 decompress ⟨data, integrity⟩ expectedId limits =
        .ok pages) ↔ ∃ t, EagerTree blake3 decompress data expectedId t) ∧
      ∀ pages t,
        TreeEntryReader.readBody blake3 decompress ⟨data, integrity⟩ expectedId limits = .ok pages →
        EagerTree blake3 decompress data expectedId t →
        ({ entries := pages.flatMap TreePage.entries } : Tree ContentHash) = t

variable {data : Bytes} {expectedId : ContentHash} {items : List DecodedStreamEntry}

theorem BodyEntries.unique (h : BodyEntries blake3 decompress data expectedId items)
    (h' : BodyEntries blake3 decompress data expectedId items') : items = items' := by
  obtain ⟨header, layout, hopen, hholds⟩ := h
  obtain ⟨header', layout', hopen', hholds'⟩ := h'
  cases hopen.symm.trans hopen'
  obtain ⟨last, hwalk, _⟩ := hholds.walked
  obtain ⟨last', hwalk', _⟩ := hholds'.walked
  rw [hholds.counted, ← hholds'.counted] at hwalk
  exact (Prod.mk.inj (Except.ok.inj (hwalk.symm.trans hwalk'))).1

theorem openLayout_logicalLen (h : openLayout source expectedId = .ok (header, layout)) :
    header.logicalLen < 2 ^ 64 := by
  rcases openLayout_ok_iff.1 h with ⟨_, h⟩ | ⟨_, h⟩
  · obtain ⟨_, _, _, hbody⟩ := openLean_ok_iff.1 h
    cases hbody
    exact Nat.two_pow_pos 64
  · obtain ⟨hheader, _⟩ := openHeadered_ok_iff.1 h
    obtain ⟨hlen, _, _, hfields⟩ := decodeHeader_ok_iff.1 hheader
    exact ((headerFields_ok_iff hlen).1 hfields).2.2.2

theorem holds_bounded (hopen : openLayout source expectedId = .ok (header, layout))
    (hlean : layout.isLean = false)
    (h : (TreeBody.mk source header layout).Holds blake3 decompress items) :
    (items.map DecodedStreamEntry.logicalLen).sum < 2 ^ 64 := by
  have hid := h.id
  have hlogical := openLayout_logicalLen hopen
  cases layout with
  | lean => cases hlean
  | raw => exact hid.1 ▸ hlogical
  | blocked => exact hid.1 ▸ hlogical

theorem blockedLayout_not_lean (h : openBlocked source header = .ok layout) :
    layout.isLean = false := by
  simp only [openBlocked, bind_eq_ok, pure_eq_ok, Except.ok.injEq] at h
  obtain ⟨_, _, _, _, rfl⟩ := h
  rfl

theorem treeId_of_holds {body : TreeBody} (hlean : body.layout.isLean = false)
    (h : body.Holds blake3 decompress items) (htree : DecodesTo items t) :
    t.hash blake3 = body.header.treeId := by
  obtain ⟨positions, hpos, rfl, _⟩ := htree
  exact ((idMatches_iff blake3 hlean hpos).1 h.id).2

theorem eagerTree_iff (hsize : data.length < 2 ^ 64) :
    EagerTree blake3 decompress data expectedId t ↔
      ∃ items, BodyEntries blake3 decompress data expectedId items ∧ DecodesTo items t := by
  constructor
  · rintro (⟨hlean, hdecode⟩ | ⟨hcanonical, hdecode, hid⟩)
    · obtain ⟨header, layout, items, hopen, hholds, htree⟩ :=
        (decodeLean_iff_holds blake3 decompress ⟨data, .sequentialVerify⟩ hlean hsize).1 hdecode
      exact ⟨items, ⟨header, layout, openLayout_ok_iff.2 (.inl ⟨hlean, hopen⟩), hholds⟩, htree⟩
    · rw [Tree.decodeCanonical_headered blake3 decompress hcanonical] at hdecode
      obtain ⟨header, hheader, hdecode⟩ := bind_eq_ok.1 hdecode
      by_cases hversion : header.version = treeBlockEncodingVersion
      · rw [if_pos hversion] at hdecode
        have hstreamed := hdecode
        simp only [Tree.decodeCanonicalStreamed, bind_eq_ok, hheader, Except.ok.injEq,
          exists_eq_left', openAt_none_ok_iff] at hdecode
        obtain ⟨_, ⟨header', layout, hopen, _⟩, _⟩ := hdecode
        rcases openLayout_ok_iff.1 hopen with ⟨hlean, _⟩ | ⟨_, hopened⟩
        · exact absurd ((of_decide_eq_true hlean).symm.trans (of_decide_eq_true hcanonical))
            (by decide)
        · obtain ⟨hheader', _, _, hlayout⟩ := openHeadered_ok_iff.1 hopened
          cases hheader.symm.trans hheader'
          rw [if_pos hversion] at hlayout
          have hflat := blockedLayout_not_lean hlayout
          obtain ⟨items, hcomplete, htree⟩ :=
            (decodeStreamed_iff_holds blake3 decompress hheader hopen hflat).1 hstreamed
          rw [← hid, treeId_of_holds blake3 decompress hflat hcomplete.toHolds htree]
          exact ⟨items, ⟨header, layout, hopen, hcomplete.toHolds⟩, htree⟩
      · rw [if_neg hversion] at hdecode
        obtain ⟨hlen, _, _, hfields⟩ := decodeHeader_ok_iff.1 hheader
        have htotal := ((decodeRaw_ok_iff blake3 hlen
          ((headerFields_ok_iff hlen).1 hfields).2.2.2).1 hdecode).1
        obtain ⟨items, hholds, htree⟩ :=
          (decodeRaw_iff_holds blake3 decompress ⟨data, .sequentialVerify⟩ htotal).1 hdecode
        have hhash := treeId_of_holds blake3 decompress rfl hholds htree
        refine ⟨items, ⟨header, .raw, openLayout_ok_iff.2 (.inr ⟨hcanonical,
          openHeadered_ok_iff.2 ⟨hheader, hhash.symm.trans hid, htotal, ?_⟩⟩), hholds⟩, htree⟩
        rw [if_neg hversion]
  · rintro ⟨items, ⟨header, layout, hopen, hholds⟩, htree⟩
    rcases openLayout_ok_iff.1 hopen with ⟨hlean, hopened⟩ | ⟨hcanonical, hopened⟩
    · exact .inl ⟨hlean, (decodeLean_iff_holds blake3 decompress ⟨data, .sequentialVerify⟩ hlean
        hsize).2 ⟨header, layout, items, hopened, hholds, htree⟩⟩
    · obtain ⟨hheader, hid, htotal, hlayout⟩ := openHeadered_ok_iff.1 hopened
      apply Or.inr
      rw [Tree.decodeCanonical_headered blake3 decompress hcanonical]
      refine ⟨hcanonical, ?_⟩
      by_cases hversion : header.version = treeBlockEncodingVersion
      · rw [if_pos hversion] at hlayout
        have hflat := blockedLayout_not_lean hlayout
        refine ⟨bind_eq_ok.2 ⟨header, hheader, ?_⟩,
          (treeId_of_holds blake3 decompress hflat hholds htree).trans hid⟩
        rw [if_pos hversion]
        subst hid
        exact (decodeStreamed_iff_holds blake3 decompress hheader hopen hflat).2
          ⟨items, ⟨hholds, holds_bounded blake3 decompress hopen hflat hholds⟩, htree⟩
      · rw [if_neg hversion] at hlayout
        subst hlayout
        refine ⟨bind_eq_ok.2 ⟨header, hheader, ?_⟩,
          (treeId_of_holds blake3 decompress rfl hholds htree).trans hid⟩
        rw [if_neg hversion]
        exact (decodeRaw_iff_holds blake3 decompress ⟨data, .sequentialVerify⟩ htotal).2
          ⟨items, hholds, htree⟩

theorem entryAt_valid {body : TreeBody} (h : body.entryAt decompress cursor = .ok item) :
    item.entry.validate = .ok () := by
  have hframe : ∀ {frame : Bytes} {pair : TreeEntry ContentHash × Option UInt32},
      decodeEntryFrame frame = .ok pair → pair.1.validate = .ok () :=
    fun hdecode => (decodeEntryFrame_ok_iff.1 hdecode).1
  rw [TreeBody.entryAt] at h
  cases hlayout : body.layout with
  | raw =>
    simp only [hlayout, readRawEntry, bind_eq_ok, pure_eq_ok, Except.ok.injEq] at h
    obtain ⟨_, _, _, _, _, _, pair, hdecode, rfl⟩ := h
    exact hframe hdecode
  | lean bodyStart =>
    simp only [hlayout] at h
    obtain ⟨_, hread, _⟩ := readLeanEntry_ok_iff.1 h
    exact readCompactEntry_valid hread
  | blocked blockHeader =>
    simp only [hlayout] at h
    obtain ⟨_, _, h⟩ := bind_eq_ok.1 h
    split at h
    · simp only [readAnchorAtCursor, readBlockAnchor, bind_eq_ok, pure_eq_ok,
        Except.ok.injEq] at h
      obtain ⟨_, _, _, _, _, _, _, _, pair, hdecode, rfl⟩ := h
      exact hframe hdecode
    · simp only [readBlockFrame, bind_eq_ok, pure_eq_ok, Except.ok.injEq] at h
      obtain ⟨_, _, _, _, _, _, _, _, _, _, pair, hdecode, rfl⟩ := h
      exact hframe hdecode

theorem walk_valid {body : TreeBody}
    (h : walk (body.step decompress) items.length cursor = .ok (items, last)) :
    (∀ item ∈ items, item.entry.validate = .ok ()) ∧ NamesAscend cursor.prevName items := by
  induction items generalizing cursor with
  | nil => exact ⟨fun _ h => (nomatch h), fun _ _ _ h => (nomatch h), .nil⟩
  | cons item items ih =>
    obtain ⟨_, next, _, hstep, hrest, heq⟩ := walk_succ_ok_iff.1 h
    cases heq
    obtain ⟨hentry, hprecedes, rfl⟩ := (TreeBody.step_ok_iff decompress).1 hstep
    obtain ⟨hvalid, hascend⟩ := ih hrest
    exact ⟨forall_mem_cons.2 ⟨entryAt_valid decompress hentry, hvalid⟩,
      namesAscend_cons_iff.2 ⟨hprecedes, hascend⟩⟩

theorem treeOf_plain_validate (hvalid : ∀ item ∈ items, item.entry.validate = .ok ())
    (hascend : NamesAscend none items) : (treeOf items []).validate = .ok () := by
  have hentries : Tree.validateEntries none (treeOf items []).entries = .ok () := by
    apply (Tree.validateEntries_ok_iff _ _).2
    refine ⟨fun e he => ?_, fun _ h => (nomatch h), namesAscend_none_iff.1 hascend⟩
    obtain ⟨item, hitem, rfl⟩ := mem_map.1 he
    exact hvalid item hitem
  have hscheme : (treeOf items []).validateScheme = .ok () := rfl
  rw [Tree.validate, hscheme, hentries]
  rfl

theorem startCursor_prevName (treeId : ContentHash) (header : TreeHeader)
    (layout : TreeReaderLayout) : (startCursor treeId header layout).prevName = none := by
  cases layout <;> rfl

/-- Without source positions, what a body spells out is always a tree. -/
theorem BodyEntries.decodesTo (h : BodyEntries blake3 decompress data expectedId items)
    (hplain : ∀ item ∈ items, item.position = none) : DecodesTo items (treeOf items []) := by
  obtain ⟨header, layout, _, hholds⟩ := h
  obtain ⟨last, hwalk, _⟩ := hholds.walked
  obtain ⟨hvalid, hascend⟩ := walk_valid decompress hwalk
  refine ⟨[], .inl ⟨rfl, fun position hposition => ?_⟩, rfl, treeOf_plain_validate hvalid ?_⟩
  · obtain ⟨item, hitem, rfl⟩ := mem_map.1 hposition
    exact hplain item hitem
  · rw [← startCursor_prevName header.treeId header layout]
    exact hascend

theorem BodyEntries.lean_positions (h : BodyEntries blake3 decompress data expectedId items)
    (hopen : openLayout ⟨data, .sequentialVerify⟩ expectedId = .ok (header, layout))
    (hlean : layout.isLean = true) : ∀ item ∈ items, item.position = none := by
  obtain ⟨header', layout', hopen', hholds⟩ := h
  cases hopen.symm.trans hopen'
  obtain ⟨last, hwalk, _⟩ := hholds.walked
  intro item hitem
  cases hlayout : layout with
  | raw => rw [hlayout] at hlean; cases hlean
  | blocked => rw [hlayout] at hlean; cases hlean
  | lean bodyStart =>
    exact leanWalk_positions decompress hlayout hwalk item.position (mem_map.2 ⟨item, hitem, rfl⟩)

theorem readBody_entries
    (h : TreeEntryReader.readBody blake3 decompress ⟨data, integrity⟩ expectedId limits =
      .ok pages) : ∃ items, BodyEntries blake3 decompress data expectedId items ∧
        (items.map DecodedStreamEntry.logicalLen).sum < 2 ^ 64 ∧
        pages.flatMap TreePage.entries = items.map DecodedStreamEntry.entry := by
  obtain ⟨header, layout, items, hopen, hcomplete, hpages⟩ := readBody_complete blake3 decompress h
  exact ⟨items, ⟨header, layout, hopen,
    ⟨hcomplete.walked, hcomplete.counted, hcomplete.id, hcomplete.blocks⟩⟩, hcomplete.bounded, hpages⟩

theorem readBody_of_entries (integrity : TreeBodyIntegrity)
    (h : BodyEntries blake3 decompress data expectedId items)
    (hbounded : (items.map DecodedStreamEntry.logicalLen).sum < 2 ^ 64)
    (hfits : ∀ item ∈ items, item.entry.decodedSize ≤ limits.maxDecodedBytes) :
    ∃ pages, TreeEntryReader.readBody blake3 decompress ⟨data, integrity⟩ expectedId limits =
      .ok pages := by
  obtain ⟨header, layout, hopen, hholds⟩ := h
  have hcomplete : (TreeBody.mk ⟨data, integrity⟩ header layout).Complete blake3 decompress items :=
    ⟨⟨hholds.walked, hholds.counted, hholds.id, hholds.blocks⟩, hbounded⟩
  have hopen : openLayout ⟨data, integrity⟩ expectedId = .ok (header, layout) := hopen
  rcases readBody_of_complete blake3 decompress hopen hcomplete with hpages | ⟨item, hmem, hlarge⟩
  · exact hpages
  · exact absurd (hfits item hmem) (not_le.2 hlarge)

def roomyLimits (items : List DecodedStreamEntry) : TreePageLimits where
  maxEntries := 1
  maxDecodedBytes := (items.map (fun item => item.entry.decodedSize)).sum + 1
  maxEntries_pos := Nat.one_pos
  maxDecodedBytes_pos := Nat.succ_pos _

theorem roomyLimits_fit : ∀ item ∈ items,
    item.entry.decodedSize ≤ (roomyLimits items).maxDecodedBytes := by
  intro item hitem
  exact Nat.le_succ_of_le (le_sum_of_mem (mem_map.2 ⟨item, hitem, rfl⟩))

/-- The reader and the eager decoder agree on a body exactly when, if it is otherwise complete, it
records no source position and its logical length can be counted. -/
theorem pagesAgree_iff (hsize : data.length < 2 ^ 64) :
    PagesAgree blake3 decompress data expectedId ↔
      ∀ items, BodyEntries blake3 decompress data expectedId items →
        (∀ item ∈ items, item.position = none) ∧
          (items.map DecodedStreamEntry.logicalLen).sum < 2 ^ 64 := by
  constructor
  · intro hagree items hbody
    obtain ⟨haccept, hsame⟩ := hagree .sequentialVerify (roomyLimits items)
      (fun items' hbody' => hbody.unique blake3 decompress hbody' ▸ roomyLimits_fit)
    have hbounded : (items.map DecodedStreamEntry.logicalLen).sum < 2 ^ 64 := by
      obtain ⟨header, layout, hopen, hholds⟩ := id hbody
      cases hlean : layout.isLean with
      | false => exact holds_bounded blake3 decompress hopen hlean hholds
      | true =>
        have ht := (eagerTree_iff blake3 decompress hsize).2 ⟨items, hbody,
          hbody.decodesTo blake3 decompress (hbody.lean_positions blake3 decompress hopen hlean)⟩
        obtain ⟨pages, hread⟩ := haccept.2 ⟨_, ht⟩
        obtain ⟨items', hbody', hbounded, _⟩ := readBody_entries blake3 decompress hread
        exact hbody.unique blake3 decompress hbody' ▸ hbounded
    obtain ⟨pages, hread⟩ := readBody_of_entries blake3 decompress .sequentialVerify hbody hbounded
      roomyLimits_fit
    obtain ⟨t, ht⟩ := haccept.1 ⟨pages, hread⟩
    obtain ⟨items', hbody', positions, hpos, rfl, _⟩ := (eagerTree_iff blake3 decompress hsize).1 ht
    obtain rfl := hbody.unique blake3 decompress hbody'
    obtain rfl : positions = [] := (congrArg Tree.sourcePositions (hsame pages _ hread ht)).symm
    refine ⟨fun item hitem => ?_, hbounded⟩
    exact hpos.all_none item.position (mem_map.2 ⟨item, hitem, rfl⟩)
  · intro hplain integrity limits hfits
    constructor
    · constructor
      · rintro ⟨pages, hread⟩
        obtain ⟨items, hbody, _⟩ := readBody_entries blake3 decompress hread
        exact ⟨_, (eagerTree_iff blake3 decompress hsize).2
          ⟨items, hbody, hbody.decodesTo blake3 decompress (hplain items hbody).1⟩⟩
      · rintro ⟨t, ht⟩
        obtain ⟨items, hbody, _⟩ := (eagerTree_iff blake3 decompress hsize).1 ht
        exact readBody_of_entries blake3 decompress integrity hbody (hplain items hbody).2
          (hfits items hbody)
    · intro pages t hread ht
      obtain ⟨items, hbody, _, hpages⟩ := readBody_entries blake3 decompress hread
      obtain ⟨items', hbody', positions, hpos, rfl, _⟩ := (eagerTree_iff blake3 decompress hsize).1 ht
      obtain rfl := hbody.unique blake3 decompress hbody'
      have hnone : positions = [] := by
        apply hpos.eq_nil
        intro position hposition
        obtain ⟨item, hitem, rfl⟩ := mem_map.1 hposition
        exact (hplain items hbody).1 item hitem
      rw [hpages, hnone]
      rfl

end Agree

section Concrete

def uncheckedBody (t : Tree ContentHash) : Bytes :=
  match encodeBody (fun p => encodeEntryFrame p.1 p.2) (fun p => p.1.encodedLen p.2)
      (fun p => p.1.name) t.positioned with
  | .error _ => []
  | .ok body =>
    let header : TreeHeader := {
      version := treeEncodingVersion
      treeId := t.hash PartialTree.lengthHash
      entryCount := t.entries.length
      payloadLen := body.1.length
      logicalLen := body.2 }
    header.encode treeCanonicalMagic ++ body.1

def kilobytePages : TreePageLimits where
  maxEntries := 10
  maxDecodedBytes := 1024
  maxEntries_pos := by decide
  maxDecodedBytes_pos := by decide

theorem pagesAgree_iff_oneFile : PagesAgree PartialTree.lengthHash noZstd (uncheckedBody oneFile)
    (oneFile.hash PartialTree.lengthHash) := by
  have hshort : (uncheckedBody oneFile).length < 2 ^ 64 := by decide +kernel
  have hread : (TreeEntryReader.readBody PartialTree.lengthHash noZstd
      ⟨uncheckedBody oneFile, .sequentialVerify⟩ (oneFile.hash PartialTree.lengthHash)
      kilobytePages).map (fun pages => pages.flatMap TreePage.entries) = .ok oneFile.entries := by
    decide +kernel
  have hdecode : Tree.decodeCanonical PartialTree.lengthHash noZstd (uncheckedBody oneFile) =
      .ok oneFile := by decide +kernel
  have hcanonical : isCanonicalTree (uncheckedBody oneFile) := by decide +kernel
  apply (pagesAgree_iff PartialTree.lengthHash noZstd hshort).2
  intro items hbody
  obtain ⟨items', hbody', positions, hpos, htree, _⟩ :=
    (eagerTree_iff PartialTree.lengthHash noZstd hshort).1 (.inr ⟨hcanonical, hdecode, rfl⟩)
  obtain rfl := hbody.unique PartialTree.lengthHash noZstd hbody'
  obtain rfl : positions = [] := (congrArg Tree.sourcePositions htree).symm
  obtain ⟨pages, hpages, _⟩ := map_eq_ok_iff.1 hread
  obtain ⟨items', hbody', hbounded, _⟩ := readBody_entries PartialTree.lengthHash noZstd hpages
  obtain rfl := hbody.unique PartialTree.lengthHash noZstd hbody'
  refine ⟨fun item hitem => ?_, hbounded⟩
  exact hpos.all_none item.position (mem_map.2 ⟨item, hitem, rfl⟩)

def positionedFile : Tree ContentHash where
  entries := [{ name := "a", target := .blob PartialTree.zeroHash false }]
  sourcePositions := [0]

/-- The reader verifies a body whose source positions `decode_canonical` rejects. -/
theorem positionedFile_disagrees : ¬PagesAgree PartialTree.lengthHash noZstd
    (uncheckedBody positionedFile) (positionedFile.hash PartialTree.lengthHash) := by
  intro hagree
  have hread : (TreeEntryReader.readBody PartialTree.lengthHash noZstd
      ⟨uncheckedBody positionedFile, .sequentialVerify⟩
      (positionedFile.hash PartialTree.lengthHash) kilobytePages).map
      (fun pages => pages.flatMap TreePage.entries) = .ok positionedFile.entries := by
    decide +kernel
  have hlean : isLeanTree (uncheckedBody positionedFile) = false := by decide +kernel
  have hreject : (Tree.decodeCanonical PartialTree.lengthHash noZstd
      (uncheckedBody positionedFile)).isOk = false := by decide +kernel
  obtain ⟨pages, hpages, hentries⟩ := map_eq_ok_iff.1 hread
  obtain ⟨items, hbody, _, hitems⟩ := readBody_entries PartialTree.lengthHash noZstd hpages
  have hfits : ∀ items', BodyEntries PartialTree.lengthHash noZstd (uncheckedBody positionedFile)
      (positionedFile.hash PartialTree.lengthHash) items' → ∀ item ∈ items',
      item.entry.decodedSize ≤ kilobytePages.maxDecodedBytes := by
    intro items' hbody' item hitem
    obtain rfl := hbody.unique PartialTree.lengthHash noZstd hbody'
    have hmem : item.entry ∈ positionedFile.entries :=
      hentries ▸ hitems ▸ mem_map.2 ⟨item, hitem, rfl⟩
    rw [mem_singleton.1 hmem]
    decide
  obtain ⟨t, ht⟩ := (hagree .sequentialVerify kilobytePages hfits).1.1 ⟨pages, hpages⟩
  rcases ht with ⟨hmagic, _⟩ | ⟨_, hdecode, _⟩
  · rw [hlean] at hmagic
    cases hmagic
  · rw [hdecode] at hreject
    cases hreject

end Concrete
end Heddle
