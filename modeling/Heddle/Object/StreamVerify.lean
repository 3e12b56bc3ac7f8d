import Heddle.Object.StreamPages

namespace Heddle
open Heddle.Lib

section Verify
variable (blake3 : Bytes → ContentHash) (decompress : Bytes → Nat → Except String Bytes)

namespace TreeBody

def payloadEnd (body : TreeBody) : Nat :=
  match body.layout with
  | .raw => treeHeaderLen + body.header.payloadLen
  | .lean _ => body.source.bytes.length
  | .blocked blockHeader => treeHeaderLen + blockHeader.rawPayloadLen

def IdMatches (body : TreeBody) (items : List DecodedStreamEntry) : Prop :=
  match body.layout with
  | .lean _ => ∃ tree, Tree.tryFromDecodedLayout (items.map DecodedStreamEntry.entry) [] = .ok tree ∧
      tree.hash blake3 = body.header.treeId
  | _ => (items.map DecodedStreamEntry.logicalLen).sum = body.header.logicalLen ∧
      computeTypedWithLen blake3 treeEmptyPrefix body.header.logicalLen
        (items.flatMap DecodedStreamEntry.hashed) = body.header.treeId

def blockSpan (body : TreeBody) (blockHeader : TreeBlockHeader) (expected : Nat × Nat)
    (block : Nat) : Except TreeStreamError (Nat × Nat) := do
  let index ← readBlockIndex body.source blockHeader block
  refuse (index.rawOffset ≠ expected.1 ∨ index.storedOffset ≠ expected.2)
    (.malformed "tree blocks are not contiguous")
  let _ ← loadBlock decompress body.source body.header index block blockHeader
  return (expected.1 + index.rawLen, expected.2 + index.storedLen)

def BlocksValid (body : TreeBody) : Prop :=
  match body.layout with
  | .blocked blockHeader => (List.range blockHeader.blockCount).foldlM
      (body.blockSpan decompress blockHeader) (0, blockHeader.indexEnd) =
        .ok (blockHeader.rawPayloadLen, body.source.bytes.length)
  | _ => True

def freshReader (body : TreeBody) : TreeEntryReader where
  source := body.source
  header := body.header
  layout := body.layout
  validatedBlocks := initialBlocks body.layout
  cursor := startCursor body.header.treeId body.header body.layout
  hasher := if ¬body.layout.isLean then some [] else none
  leanHashEntries := if body.layout.isLean then some [] else none
  startedAtZero := true

/-- A body that holds exactly these entries, from its first byte to its last. -/
structure Holds (body : TreeBody) (items : List DecodedStreamEntry) : Prop where
  walked : ∃ last, walk (body.step decompress) items.length body.freshReader.cursor =
    .ok (items, last) ∧ last.byteOffset = body.payloadEnd
  counted : items.length = body.header.entryCount
  id : body.IdMatches blake3 items
  blocks : body.BlocksValid decompress

/-- The reader can count the logical length of the entries. -/
structure Complete (body : TreeBody) (items : List DecodedStreamEntry) : Prop
    extends body.Holds blake3 decompress items where
  bounded : (items.map DecodedStreamEntry.logicalLen).sum < 2 ^ 64

theorem initialBlocks_false (layout : TreeReaderLayout) (block : Nat) :
    (initialBlocks layout)[block]? ≠ some true := by
  cases layout with
  | raw => exact fun h => nomatch h
  | lean => exact fun h => nomatch h
  | blocked blockHeader =>
    rw [initialBlocks, List.getElem?_replicate]
    split
    · exact fun h => nomatch h
    · exact fun h => nomatch h

theorem freshReader_coherent (body : TreeBody) : body.freshReader.Coherent decompress where
  caches := {
    cached := fun _ _ _ h => (nomatch h)
    validated := fun _ _ block h => absurd h (initialBlocks_false body.layout block) }
  pending := fun _ h => (nomatch h)

end TreeBody

section Open

theorem openLayout_treeId (h : openLayout source expectedId = .ok (header, layout)) :
    header.treeId = expectedId := by
  simp only [openLayout, bind_eq_ok] at h
  obtain ⟨magic, _, _, _, _, _, h⟩ := h
  by_cases hlean : magic = treeLeanMagic
  · rw [if_pos hlean] at h
    simp only [ openLean, bind_eq_ok, pure_eq_ok, Except.ok.injEq, Prod.mk.injEq] at h
    obtain ⟨_, _, _, _, rfl, _⟩ := h
    rfl
  · rw [if_neg hlean] at h
    simp only [openHeadered, bind_eq_ok, refuse_eq_ok, not_not] at h
    obtain ⟨_, _, found, _, _, hid, _, _, _, _, h⟩ := h
    split at h
    · simp only [bind_eq_ok, pure_eq_ok, Except.ok.injEq, Prod.mk.injEq] at h
      obtain ⟨_, _, rfl, _⟩ := h
      exact hid
    · cases h
      exact hid

theorem validateCursor_start (treeId : ContentHash) (h : header.treeId = treeId) :
    validateCursor header layout (startCursor treeId header layout) = .ok () := by
  cases layout <;>
    simp [validateCursor, startCursor, TreeResumeCursor.startForVersion, h, refuse]

@[simp] theorem startCursor_ordinal (treeId : ContentHash) (header : TreeHeader)
    (layout : TreeReaderLayout) : (startCursor treeId header layout).ordinal = 0 := by
  cases layout <;> rfl

theorem TreeBody.freshReader_armed (body : TreeBody) :
    body.freshReader.armPendingAtCursor decompress = .ok body.freshReader := by
  rw [TreeEntryReader.armPendingAtCursor, if_pos]
  exact .inl (startCursor_ordinal _ _ _)

theorem openAt_none_ok_iff : TreeEntryReader.openAt decompress source expectedId none = .ok r ↔
      ∃ header layout, openLayout source expectedId = .ok (header, layout) ∧
        r = TreeBody.freshReader ⟨source, header, layout⟩ := by
  simp only [TreeEntryReader.openAt, bind_eq_ok, Option.getD_none, startCursor_ordinal,
    true_and, decide_true, refuse_eq_ok, lt_irrefl, false_and, not_false_eq_true, exists_const]
  constructor
  · rintro ⟨⟨header, layout⟩, hopen, _, _, harm⟩
    obtain rfl := openLayout_treeId hopen
    exact ⟨header, layout, hopen, Except.ok.inj
      (harm.symm.trans (TreeBody.freshReader_armed decompress ⟨source, header, layout⟩))⟩
  · rintro ⟨header, layout, hopen, rfl⟩
    obtain rfl := openLayout_treeId hopen
    exact ⟨(header, layout), hopen, (), validateCursor_start _ rfl,
      TreeBody.freshReader_armed decompress ⟨source, header, layout⟩⟩

end Open

section Finish
variable {r : TreeEntryReader} {body : TreeBody}

theorem validateBlock_ok_iff (h : r.Coherent decompress)
    (hlayout : r.layout = .blocked blockHeader) (hstarted : r.startedAtZero = true) :
    r.validateBlock decompress blockHeader expected block = .ok ends ↔
      r.body.blockSpan decompress blockHeader expected block = .ok ends := by
  rw [TreeEntryReader.validateBlock, TreeBody.blockSpan]
  change (readBlockIndex r.source blockHeader block >>= _) = _ ↔
    (readBlockIndex r.source blockHeader block >>= _) = _
  cases hindex : readBlockIndex r.source blockHeader block with
  | error err => exact ⟨fun h => (nomatch h), fun h => (nomatch h)⟩
  | ok index =>
    by_cases hseen : r.validatedBlocks[block]? = some true
    · obtain ⟨decoded, index', hindex', hload⟩ := h.caches.validated blockHeader hlayout block hseen
      change readBlockIndex r.source blockHeader block = _ at hindex'
      cases hindex.symm.trans hindex'
      simp only [bind_eq_ok, hstarted, hseen, ne_eq, not_true_eq_false, and_false, if_false,
        hload, Except.ok.injEq, exists_eq_left']
    · simp only [bind_eq_ok, hstarted, hseen, ne_eq, not_false_eq_true, and_self, if_true]
      rfl

theorem validateLayout_ok_iff (h : r.Coherent decompress) (hstarted : r.startedAtZero = true) :
    r.validateCompleteBlockLayout decompress = .ok () ↔ r.body.BlocksValid decompress := by
  simp only [TreeEntryReader.validateCompleteBlockLayout, TreeBody.BlocksValid,
    TreeEntryReader.body_layout, TreeEntryReader.body_source]
  cases hlayout : r.layout with
  | raw => exact ⟨fun _ => trivial, fun _ => rfl⟩
  | lean => exact ⟨fun _ => trivial, fun _ => rfl⟩
  | blocked blockHeader =>
    simp only [bind_eq_ok, refuse_eq_ok, not_or, not_not]
    constructor
    · rintro ⟨⟨rawEnd, storedEnd⟩, hfold, rfl, hstored⟩
      rw [← hstored]
      exact (foldlM_ok_congr fun _ _ _ => validateBlock_ok_iff decompress h hlayout hstarted).1 hfold
    · intro hfold
      exact ⟨_, (foldlM_ok_congr fun _ _ _ =>
        validateBlock_ok_iff decompress h hlayout hstarted).2 hfold, rfl, rfl⟩

theorem verifyTreeId_ok_iff (h : TreeEntryReader.Progress decompress body.freshReader r items) :
    r.verifyTreeId blake3 = .ok () ↔ body.IdMatches blake3 items := by
  have hheader : r.header = body.header := congrArg TreeBody.header h.body
  have hhasher := h.hasher
  have hlean := h.leanHashEntries
  have hlogical := h.logicalLen
  simp only [TreeBody.freshReader, zero_add] at hhasher hlean hlogical
  rw [TreeEntryReader.verifyTreeId, TreeBody.IdMatches, hheader]
  cases hlayout : body.layout with
  | lean bodyStart =>
    simp only [hlayout, TreeReaderLayout.isLean, not_true_eq_false, if_false, if_true,
      Option.map_none, Option.map_some, List.nil_append] at hhasher hlean
    simp only [hhasher, hlean, bind_eq_ok, liftTree_eq_ok, refuse_eq_ok, not_not]
  | raw | blocked blockHeader =>
    simp only [hlayout, TreeReaderLayout.isLean, Bool.false_eq_true, not_false_eq_true, if_true,
      Option.map_some, List.nil_append] at hhasher
    simp only [hhasher, bind_eq_ok, refuse_eq_ok, not_not, hlogical, exists_const]

theorem logicalPayloadEnd_eq (r : TreeEntryReader) : r.logicalPayloadEnd = r.body.payloadEnd := rfl

/-- A reader that started at the first entry verifies exactly when it has read a complete body. -/
theorem finish_isOk_iff (h : TreeEntryReader.Progress decompress body.freshReader r items)
    (hcoherent : r.Coherent decompress) :
    (∃ r', r.finishAndVerify blake3 decompress = .ok r') ↔ body.Complete blake3 decompress items := by
  have hbody : r.body = body := h.body
  have hstarted : r.startedAtZero = true := h.started
  have hordinal : r.cursor.ordinal = items.length := by
    rw [h.ordinal, TreeBody.freshReader, startCursor_ordinal, zero_add]
  have hheader : r.header = body.header := congrArg TreeBody.header h.body
  have hlogical : r.decodedLogicalLen = (items.map DecodedStreamEntry.logicalLen).sum := by
    rw [h.logicalLen, TreeBody.freshReader, zero_add]
  simp only [TreeEntryReader.finishAndVerify, bind_eq_ok, refuse_eq_ok, not_not, pure_eq_ok,
    Except.ok.injEq, hordinal, hheader, logicalPayloadEnd_eq, hbody]
  constructor
  · rintro ⟨_, _, hcount, _, hoffset, _, hid, _, hblocks, _⟩
    have hbounded : (items.map DecodedStreamEntry.logicalLen).sum < 2 ^ 64 := by
      rcases h.bounded with rfl | hlt
      · exact Nat.two_pow_pos 64
      · rwa [hlogical] at hlt
    refine ⟨⟨⟨r.cursor, ?_, hoffset⟩, hcount, (verifyTreeId_ok_iff blake3 decompress h).1 hid, ?_⟩,
      hbounded⟩
    · exact h.walked
    · rw [← hbody]
      exact (validateLayout_ok_iff decompress hcoherent hstarted).1 hblocks
  · intro hcomplete
    obtain ⟨last, hwalk, hoffset⟩ := hcomplete.walked
    have hwalked := h.walked
    obtain ⟨_, hlast⟩ := Prod.mk.inj (Except.ok.inj (hwalk.symm.trans hwalked))
    refine ⟨_, (), hcomplete.counted, (), hlast ▸ hoffset, (),
      (verifyTreeId_ok_iff blake3 decompress h).2 hcomplete.id, (), ?_, rfl⟩
    apply (validateLayout_ok_iff decompress hcoherent hstarted).2
    rw [hbody]
    exact hcomplete.blocks

theorem TreeBody.Complete.reads (h : body.Complete blake3 decompress items) :
    ∃ last, body.freshReader.Reads decompress items last := by
  obtain ⟨last, hwalk, _⟩ := h.walked
  refine ⟨last, ⟨body.freshReader_coherent decompress, ⟨[], rfl⟩, hwalk, ?_, ?_⟩⟩
  · change (startCursor _ _ _).ordinal + _ = body.header.entryCount
    rw [startCursor_ordinal, zero_add, h.counted]
  · change 0 + _ < _
    rw [zero_add]
    exact h.bounded

end Finish

section ReadBody
variable {source : BytesTreeSource} {expectedId : ContentHash} {limits : TreePageLimits}

theorem readBody_complete
    (h : TreeEntryReader.readBody blake3 decompress source expectedId limits = .ok pages) :
    ∃ header layout items, openLayout source expectedId = .ok (header, layout) ∧
      (TreeBody.mk source header layout).Complete blake3 decompress items ∧
      pages.flatMap TreePage.entries = items.map DecodedStreamEntry.entry := by
  simp only [TreeEntryReader.readBody, bind_eq_ok, pure_eq_ok, Except.ok.injEq] at h
  obtain ⟨r, hopen, ⟨read, r'⟩, hpages, _, hfinish, rfl⟩ := h
  obtain ⟨header, layout, hlayout, rfl⟩ := (openAt_none_ok_iff decompress).1 hopen
  obtain ⟨hcoherent, items, hprogress, hentries⟩ := TreeEntryReader.readPages_ok decompress
    (TreeBody.freshReader_coherent decompress _) hpages
  exact ⟨header, layout, items, hlayout,
    (finish_isOk_iff blake3 decompress hprogress hcoherent).1 ⟨_, hfinish⟩, hentries⟩

theorem readBody_of_complete (hopen : openLayout source expectedId = .ok (header, layout))
    (hcomplete : (TreeBody.mk source header layout).Complete blake3 decompress items) :
    (∃ pages, TreeEntryReader.readBody blake3 decompress source expectedId limits = .ok pages) ∨
      ∃ item ∈ items, limits.maxDecodedBytes < item.entry.decodedSize := by
  obtain ⟨last, hreads⟩ := hcomplete.reads
  have hr : TreeEntryReader.openAt decompress source expectedId none = .ok _ :=
    (openAt_none_ok_iff decompress).2 ⟨header, layout, hopen, rfl⟩
  have hfuel : items.length < (TreeBody.freshReader ⟨source, header, layout⟩).header.entryCount + 1 := by
    rw [hcomplete.counted]
    exact Nat.lt_succ_self _
  rw [TreeEntryReader.readBody, hr]
  rcases TreeEntryReader.readPages_refines hreads limits hfuel with
    ⟨pages, r', hpages, hend, _⟩ | ⟨item, hmem, hlarge, _⟩
  · obtain ⟨hcoherent, seen, hprogress, hseen⟩ := TreeEntryReader.readPages_ok decompress
      (TreeBody.freshReader_coherent decompress _) hpages
    obtain rfl := hprogress.seen_eq hreads hend.at_end
    obtain ⟨r'', hfinish⟩ := (finish_isOk_iff blake3 decompress hprogress hcoherent).2 hcomplete
    apply Or.inl
    refine ⟨pages, bind_eq_ok.2 ⟨_, rfl, bind_eq_ok.2 ⟨(pages, r'), hpages, ?_⟩⟩⟩
    exact bind_eq_ok.2 ⟨r'', hfinish, rfl⟩
  · exact .inr ⟨item, hmem, hlarge⟩

end ReadBody

end Verify
end Heddle
