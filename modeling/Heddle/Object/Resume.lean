import Heddle.Object.PagesAgree

namespace Heddle
open Heddle.Lib List

section Offsets
variable (decompress : Bytes → Nat → Except String Bytes)

theorem decodeBlockFramesFrom_span
    (h : decodeBlockFramesFrom raw n offset frames = .ok (frames', stop))
    (hseen : ∀ span ∈ frames, span.1 < span.2) : ∀ span ∈ frames', span.1 < span.2 := by
  induction n generalizing offset frames with
  | zero =>
    cases h
    exact hseen
  | succ n ih =>
    simp only [decodeBlockFramesFrom, bind_eq_ok] at h
    obtain ⟨lenBytes, _, _, _, h⟩ := h
    apply ih h
    intro span hspan
    rcases mem_append.1 hspan with hmem | hmem
    · exact hseen span hmem
    · rw [mem_singleton.1 hmem]
      change offset < offset + 4 + _
      omega

theorem loadBlock_span
    (h : loadBlock decompress source header index block blockHeader = .ok decoded) :
    ∀ span ∈ decoded.frames, span.1 < span.2 := by
  simp only [loadBlock, decodeBlockFrames, bind_eq_ok, pure_eq_ok, Except.ok.injEq] at h
  obtain ⟨_, _, _, _, _, _, _, ⟨⟨frames, stop⟩, hframes, _, _, rfl⟩, rfl⟩ := h
  exact decodeBlockFramesFrom_span hframes fun _ h => by cases h

theorem entryAt_consumed {body : TreeBody} (h : body.entryAt decompress cursor = .ok item) :
    0 < item.consumed := by
  rw [TreeBody.entryAt] at h
  cases hlayout : body.layout with
  | raw =>
    simp only [hlayout, readRawEntry, bind_eq_ok, pure_eq_ok, Except.ok.injEq] at h
    obtain ⟨_, _, _, _, _, _, _, _, rfl⟩ := h
    exact Nat.add_pos_left (by decide) _
  | lean bodyStart =>
    simp only [hlayout] at h
    obtain ⟨next, hread, _, hnext⟩ := readLeanEntry_ok_iff.1 h
    have hoffset := readCompactEntry_offset hread
    omega
  | blocked blockHeader =>
    simp only [hlayout] at h
    obtain ⟨_, _, h⟩ := bind_eq_ok.1 h
    split at h
    · simp only [readAnchorAtCursor, readBlockAnchor, bind_eq_ok, pure_eq_ok,
        Except.ok.injEq] at h
      obtain ⟨_, _, _, _, _, _, _, _, _, _, rfl⟩ := h
      exact Nat.add_pos_left (by decide) _
    · obtain ⟨decoded, hload, h⟩ := bind_eq_ok.1 h
      simp only [readBlockFrame, bind_eq_ok, orElseErr_eq_ok, pure_eq_ok, Except.ok.injEq] at h
      obtain ⟨frameAt, hframe, _, _, _, _, _, _, _, _, rfl⟩ := h
      have hspan := loadBlock_span decompress hload frameAt (mem_of_getElem? hframe)
      exact Nat.sub_pos_of_lt hspan

/-- What stays of the cursor it started at, wherever a walk has come to. -/
structure WalkedFrom (start cursor : TreeResumeCursor) (seen : List DecodedStreamEntry) : Prop where
  treeId : cursor.treeId = start.treeId
  encodingVersion : cursor.encodingVersion = start.encodingVersion
  ordinal : cursor.ordinal = start.ordinal + seen.length
  byteOffset : start.byteOffset + seen.length ≤ cursor.byteOffset

theorem walk_from {body : TreeBody}
    (h : walk (body.step decompress) n start = .ok (items, cursor)) :
    WalkedFrom start cursor items := by
  have hstep : ∀ cursor (seen : List DecodedStreamEntry) item next,
      WalkedFrom start cursor seen → body.step decompress cursor = .ok (item, next) →
      WalkedFrom start next (seen ++ [item]) := by
    intro cursor seen item next hseen hstep
    obtain ⟨hentry, _, rfl⟩ := (TreeBody.step_ok_iff decompress).1 hstep
    have hconsumed := entryAt_consumed decompress hentry
    have hordinal := hseen.ordinal
    have hoffset := hseen.byteOffset
    refine ⟨hseen.treeId, hseen.encodingVersion, ?_, ?_⟩
    · simp only [TreeResumeCursor.advance, length_append, length_singleton]
      omega
    · simp only [TreeResumeCursor.advance, length_append, length_singleton]
      omega
  have hstart : WalkedFrom start start [] := ⟨rfl, rfl, rfl, le_refl _⟩
  exact walk_inv hstep h hstart

end Offsets

section Reopen
variable (blake3 : Bytes → ContentHash) (decompress : Bytes → Nat → Except String Bytes)
variable {data : Bytes} {expectedId : ContentHash} {items xs ys : List DecodedStreamEntry}

def placed (data : Bytes) (header : TreeHeader) (layout : TreeReaderLayout) : TreeBody :=
  ⟨⟨data, .verifiedPlacement⟩, header, layout⟩

theorem openLayout_lean_start (h : openLayout source expectedId = .ok (header, .lean bodyStart)) :
    bodyStart + header.payloadLen = source.bytes.length := by
  rcases openLayout_ok_iff.1 h with ⟨_, h⟩ | ⟨_, h⟩
  · simp only [ openLean, bind_eq_ok, refuse_eq_ok, pure_eq_ok, Except.ok.injEq, Prod.mk.injEq,
      not_lt, TreeReaderLayout.lean.injEq] at h
    obtain ⟨⟨count, start⟩, _, _, hle, rfl, rfl⟩ := h
    exact Nat.add_sub_cancel' hle
  · obtain ⟨_, _, _, hlayout⟩ := openHeadered_ok_iff.1 h
    split at hlayout
    · simp only [openBlocked, bind_eq_ok, pure_eq_ok, Except.ok.injEq] at hlayout
      obtain ⟨_, _, _, _, hlayout⟩ := hlayout
      cases hlayout
    · cases hlayout

theorem validateCursor_walked (hopen : openLayout ⟨data, .verifiedPlacement⟩ expectedId =
      .ok (header, layout))
    (hxs : walk ((placed data header layout).step decompress) xs.length
      (startCursor header.treeId header layout) = .ok (xs, cursor))
    (hys : walk ((placed data header layout).step decompress) ys.length cursor = .ok (ys, last))
    (hcount : xs.length + ys.length = header.entryCount)
    (hlast : last.byteOffset = (placed data header layout).payloadEnd) :
    validateCursor header layout cursor = .ok () := by
  have hfirst := walk_from decompress hxs
  have hrest := walk_from decompress hys
  have hordinal := hfirst.ordinal
  have hoffset := hfirst.byteOffset
  have hend := hrest.byteOffset
  rw [startCursor_ordinal, Nat.zero_add] at hordinal
  cases xs with
  | nil =>
    obtain ⟨_, rfl⟩ := walk_zero_ok_iff.1 hxs
    exact validateCursor_start header.treeId rfl
  | cons x xs =>
    have hpos : cursor.ordinal ≠ 0 := by
      rw [hordinal]
      exact Nat.succ_ne_zero _
    have hversion : cursor.encodingVersion = header.version := by
      rw [hfirst.encodingVersion]
      cases layout <;> rfl
    have hid : cursor.treeId = header.treeId := by
      rw [hfirst.treeId]
      cases layout <;> rfl
    have hpast : ¬header.entryCount < cursor.ordinal := by omega
    simp only [validateCursor, hversion, hid, ne_eq, not_true_eq_false, if_false, gt_iff_lt,
      if_neg hpast, if_neg hpos]
    by_cases hatEnd : cursor.ordinal = header.entryCount
    · obtain rfl : ys = [] := length_eq_zero_iff.1 (by omega)
      obtain ⟨_, rfl⟩ := walk_zero_ok_iff.1 hys
      rw [if_pos hatEnd, refuse_eq_ok, not_not, hlast]
      cases layout with
      | raw => rfl
      | lean bodyStart => exact (openLayout_lean_start hopen).symm
      | blocked => rfl
    · rw [if_neg hatEnd, refuse_eq_ok, not_or, not_lt, ge_iff_le, not_le]
      have hleft : 0 < ys.length := by omega
      rw [hlast] at hend
      cases layout with
      | raw =>
        have hoffset : treeHeaderLen + (xs.length + 1) ≤ cursor.byteOffset := hoffset
        have hend : cursor.byteOffset + ys.length ≤ treeHeaderLen + header.payloadLen := hend
        exact ⟨by simp only; omega, by simp only; omega⟩
      | lean bodyStart =>
        have hstart : bodyStart + header.payloadLen = data.length := openLayout_lean_start hopen
        have hoffset : bodyStart + (xs.length + 1) ≤ cursor.byteOffset := hoffset
        have hend : cursor.byteOffset + ys.length ≤ data.length := hend
        exact ⟨by simp only; omega, by simp only; omega⟩
      | blocked blockHeader =>
        have hoffset : treeHeaderLen + (xs.length + 1) ≤ cursor.byteOffset := hoffset
        have hend : cursor.byteOffset + ys.length ≤ treeHeaderLen + blockHeader.rawPayloadLen :=
          hend
        exact ⟨by simp only; omega, by simp only; omega⟩

def resumedReader (body : TreeBody) (cursor : TreeResumeCursor) : TreeEntryReader where
  source := body.source
  header := body.header
  layout := body.layout
  validatedBlocks := initialBlocks body.layout
  cursor := cursor
  hasher := if cursor.ordinal = 0 ∧ ¬body.layout.isLean then some [] else none
  leanHashEntries := if cursor.ordinal = 0 ∧ body.layout.isLean then some [] else none
  startedAtZero := cursor.ordinal = 0

theorem resumedReader_coherent (body : TreeBody) (cursor : TreeResumeCursor) :
    (resumedReader body cursor).Coherent decompress where
  caches := {
    cached := fun _ _ _ h => (nomatch h)
    validated := fun _ _ block h => absurd h (TreeBody.initialBlocks_false body.layout block) }
  pending := fun _ h => (nomatch h)

theorem resumedReader_armed (h : (resumedReader body cursor).Reads decompress ys last) :
    ∃ r, (resumedReader body cursor).armPendingAtCursor decompress = .ok r ∧
      r.Reads decompress ys last ∧ r.hasher = (resumedReader body cursor).hasher ∧
      r.leanHashEntries = (resumedReader body cursor).leanHashEntries ∧
      r.startedAtZero = (resumedReader body cursor).startedAtZero ∧ r.body = body := by
  rw [TreeEntryReader.armPendingAtCursor]
  by_cases hedge : (resumedReader body cursor).cursor.ordinal = 0 ∨
      (resumedReader body cursor).cursor.ordinal = (resumedReader body cursor).header.entryCount
  · rw [if_pos hedge]
    exact ⟨_, rfl, h, rfl, rfl, rfl, rfl⟩
  · rw [if_neg hedge]
    cases ys with
    | nil => exact absurd (.inr h.at_end) hedge
    | cons item ys =>
      obtain ⟨cache, blocks, htake, hpending, hcommit, _⟩ := h.next
      have hread : (resumedReader body cursor).readEntryAt decompress =
          (.ok item, (resumedReader body cursor).withCaches cache blocks) := htake
      have hprecedes := (TreeEntryReader.commitEntry_ok_iff.1 hcommit).1
      rw [hread]
      refine ⟨_, if_neg hprecedes, hpending, rfl, rfl, rfl, rfl⟩

theorem validateLayout_skipped {r : TreeEntryReader} (hstarted : r.startedAtZero = false)
    (h : r.body.BlocksValid decompress) : r.validateCompleteBlockLayout decompress = .ok () := by
  simp only [TreeBody.BlocksValid, TreeEntryReader.body_layout, TreeEntryReader.body_source] at h
  rw [TreeEntryReader.validateCompleteBlockLayout]
  cases hlayout : r.layout with
  | raw => rfl
  | lean => rfl
  | blocked blockHeader =>
    rw [hlayout] at h
    have hblock : ∀ expected block ends,
        r.body.blockSpan decompress blockHeader expected block = .ok ends →
        r.validateBlock decompress blockHeader expected block = .ok ends := by
      intro expected block ends hspan
      simp only [TreeBody.blockSpan, bind_eq_ok, TreeEntryReader.body_source] at hspan
      obtain ⟨index, hindex, u, hcontiguous, _, _, hends⟩ := hspan
      simp only [TreeEntryReader.validateBlock, bind_eq_ok, hstarted, Bool.false_eq_true,
        false_and, if_false]
      exact ⟨index, hindex, u, hcontiguous, hends⟩
    have hfold := foldlM_ok_mono hblock h
    exact bind_eq_ok.2 ⟨_, hfold, refuse_eq_ok.2 fun hne => hne.elim (· rfl) (· rfl)⟩

theorem resumedReader_start (body : TreeBody) :
    resumedReader body (startCursor body.header.treeId body.header body.layout) =
      body.freshReader := by
  simp only [resumedReader, TreeBody.freshReader, startCursor_ordinal, true_and, decide_true]

theorem resumedReader_late (body : TreeBody) (hne : cursor.ordinal ≠ 0) :
    (resumedReader body cursor).hasher = none ∧
      (resumedReader body cursor).leanHashEntries = none ∧
      (resumedReader body cursor).startedAtZero = false :=
  ⟨if_neg fun h => hne h.1, if_neg fun h => hne h.1, decide_eq_false hne⟩

/-- A reader that did not start at the first entry trusts the place the body stands in. -/
theorem finish_resumed {r : TreeEntryReader}
    (hplaced : body.source.integrity = .verifiedPlacement) (hblocks : body.BlocksValid decompress)
    (hlast : last.byteOffset = body.payloadEnd) (h : r.Reads decompress [] last)
    (hbody : r.body = body) (hhasher : r.hasher = none) (hlean : r.leanHashEntries = none)
    (hstarted : r.startedAtZero = false) :
    ∃ r', r.finishAndVerify blake3 decompress = .ok r' := by
  subst hbody
  obtain ⟨_, hcursor⟩ := walk_zero_ok_iff.1 h.walked
  have hid : r.verifyTreeId blake3 = .ok () := by
    rw [TreeEntryReader.verifyTreeId, hhasher, hlean]
    exact refuse_eq_ok.2 fun hne => hne hplaced
  have hlayout := validateLayout_skipped decompress hstarted hblocks
  have hoffset : r.cursor.byteOffset = r.logicalPayloadEnd := by rw [← hcursor, hlast]; rfl
  simp only [TreeEntryReader.finishAndVerify, bind_eq_ok, refuse_eq_ok, not_not, pure_eq_ok,
    Except.ok.injEq]
  exact ⟨_, (), h.at_end, (), hoffset, (), hid, (), hlayout, rfl⟩

/-- Opens the body at a cursor, reads to the end and verifies. -/
def resumeEntries (data : Bytes) (expectedId : ContentHash) (cursor : TreeResumeCursor) :
    Except TreeStreamError (List (TreeEntry ContentHash)) := do
  let r ← TreeEntryReader.openAt decompress ⟨data, .verifiedPlacement⟩ expectedId (some cursor)
  let read ← r.collectEntries decompress
  let _ ← read.2.finishAndVerify blake3 decompress
  return read.1

theorem foldlM_push_entries (seen : List (TreeEntry ContentHash)) (ys : List DecodedStreamEntry) :
    (ys.map DecodedStreamEntry.pair).foldlM
      (fun (entries : List (TreeEntry ContentHash)) (item : TreeEntry ContentHash × Option UInt32) =>
        (.ok (entries ++ [item.1]) : Except TreeStreamError (List (TreeEntry ContentHash)))) seen =
      .ok (seen ++ ys.map DecodedStreamEntry.entry) := by
  induction ys generalizing seen with
  | nil => rw [map_nil, map_nil, append_nil]; rfl
  | cons y ys ih =>
    have hpushed := ih (seen ++ [y.entry])
    rw [← append_cons] at hpushed
    exact hpushed

/-- Wherever a walk through a complete body has come to, a reader opened there reads the rest. -/
theorem resume_walked (hopen : openLayout ⟨data, .verifiedPlacement⟩ expectedId =
      .ok (header, layout))
    (hcomplete : (placed data header layout).Complete blake3 decompress (xs ++ ys))
    (hxs : walk ((placed data header layout).step decompress) xs.length
      (startCursor header.treeId header layout) = .ok (xs, cursor))
    (hys : walk ((placed data header layout).step decompress) ys.length cursor = .ok (ys, last))
    (hlast : last.byteOffset = (placed data header layout).payloadEnd) :
    resumeEntries blake3 decompress data expectedId cursor =
      .ok (ys.map DecodedStreamEntry.entry) := by
  have hcount : xs.length + ys.length = header.entryCount := by
    rw [← length_append]
    exact hcomplete.counted
  have hordinal : cursor.ordinal = xs.length := by
    have hwalked := (walk_from decompress hxs).ordinal
    rwa [startCursor_ordinal, Nat.zero_add] at hwalked
  have hbounded := hcomplete.bounded
  rw [map_append, sum_append] at hbounded
  have hreads : (resumedReader (placed data header layout) cursor).Reads decompress ys last :=
    by
    refine ⟨resumedReader_coherent decompress _ _, ⟨xs, hxs⟩, hys, ?_, ?_⟩
    · change cursor.ordinal + ys.length = header.entryCount
      rw [hordinal, hcount]
    · change 0 + _ < _
      omega
  obtain ⟨r, harmed, hr, hhasher, hlean, hstarted, hbody⟩ := resumedReader_armed decompress hreads
  have hheader : r.header = header := congrArg TreeBody.header hbody
  have hopened : TreeEntryReader.openAt decompress ⟨data, .verifiedPlacement⟩ expectedId
      (some cursor) = .ok r := by
    simp only [TreeEntryReader.openAt, bind_eq_ok, hopen, Except.ok.injEq, exists_eq_left',
      Option.getD_some, refuse_eq_ok, ne_eq, not_true_eq_false, and_false, not_false_eq_true,
      exists_const]
    exact ⟨(), validateCursor_walked decompress hopen hxs hys hcount hlast, trivial, harmed⟩
  have hfuel : ys.length < r.header.entryCount + 1 := by
    rw [hheader]
    omega
  obtain ⟨r', hcollect, hend⟩ :=
    TreeEntryReader.collectWith_refines hr hfuel (foldlM_push_entries [] ys)
  obtain ⟨hcoherent, seen, hprogress, _⟩ :=
    TreeEntryReader.collectWith_ok decompress hr.coherent hcollect
  have hfinish : ∃ r'', r'.finishAndVerify blake3 decompress = .ok r'' := by
    cases xs with
    | nil =>
      obtain ⟨_, rfl⟩ := walk_zero_ok_iff.1 hxs
      rw [TreeEntryReader.armPendingAtCursor, if_pos (.inl hordinal)] at harmed
      obtain rfl := Except.ok.inj harmed
      obtain rfl := hprogress.seen_eq hr hend.at_end
      exact (finish_isOk_iff blake3 decompress (resumedReader_start _ ▸ hprogress) hcoherent).2
        hcomplete
    | cons x xs =>
      have hne : cursor.ordinal ≠ 0 := by
        rw [hordinal]
        exact Nat.succ_ne_zero _
      obtain ⟨hnone, hnoLean, hlate⟩ := resumedReader_late (placed data header layout) hne
      apply finish_resumed blake3 decompress rfl hcomplete.blocks hlast hend
      · exact hprogress.body.trans hbody
      · rw [hprogress.hasher, hhasher, hnone]
        rfl
      · rw [hprogress.leanHashEntries, hlean, hnoLean]
        rfl
      · rw [hprogress.started, hstarted, hlate]
  obtain ⟨r'', hfinish⟩ := hfinish
  rw [resumeEntries]
  exact bind_eq_ok.2 ⟨r, hopened, bind_eq_ok.2 ⟨_, hcollect,
    bind_eq_ok.2 ⟨r'', hfinish, rfl⟩⟩⟩

end Reopen

section Boundary
variable (blake3 : Bytes → ContentHash) (decompress : Bytes → Nat → Except String Bytes)
variable {data : Bytes} {expectedId : ContentHash} {items : List DecodedStreamEntry}

structure ValidBody (data : Bytes) (expectedId : ContentHash) (items : List DecodedStreamEntry) :
    Prop where
  entries : BodyEntries blake3 decompress data expectedId items
  bounded : (items.map DecodedStreamEntry.logicalLen).sum < 2 ^ 64

/-- The page after some calls on a fresh reader, with the entries the calls before it handed out. -/
def pageAfter (source : BytesTreeSource) (expectedId : ContentHash)
    (before : List TreePageLimits) (limits : TreePageLimits) :
    Except TreeStreamError (List (TreeEntry ContentHash) × Option TreePage) := do
  let r ← TreeEntryReader.openAt decompress source expectedId none
  let run := TreeEntryReader.pagesRun decompress before r
  let page ← (run.2.nextPage decompress limits).1
  return (run.1.flatMap TreeEntryReader.deliveredEntries, page)

/-- The entries before a page boundary and those a reader opened there reads are the whole list, cut
at the boundary. -/
def BoundaryKeepsAll (data : Bytes) (expectedId : ContentHash) (items : List DecodedStreamEntry)
    (before : List (TreeEntry ContentHash)) (page : TreePage) : Prop :=
  resumeEntries blake3 decompress data expectedId page.resumeCursor =
      .ok ((items.drop page.resumeCursor.ordinal).map DecodedStreamEntry.entry) ∧
    before ++ page.entries ++ (items.drop page.resumeCursor.ordinal).map DecodedStreamEntry.entry =
      items.map DecodedStreamEntry.entry

def leftBefore (calls : List TreePageLimits) (items : List DecodedStreamEntry) :
    List DecodedStreamEntry :=
  (pageCalls (calls.map TreePageLimits.budget) items).2

theorem TreeEntryReader.Reads.split {r : TreeEntryReader} (h : r.Reads decompress rest last)
    (hwalk : walk (r.body.step decompress) items.length
      (startCursor r.header.treeId r.header r.layout) = .ok (items, last'))
    (hcount : items.length = r.header.entryCount) :
    ∃ seen, walk (r.body.step decompress) seen.length
        (startCursor r.header.treeId r.header r.layout) = .ok (seen, r.cursor) ∧
      items = seen ++ rest ∧ last' = last ∧ seen.length = r.cursor.ordinal := by
  obtain ⟨seen, hseen⟩ := h.passed
  have hordinal := (walk_from decompress hseen).ordinal
  rw [startCursor_ordinal, Nat.zero_add] at hordinal
  have hleft := h.left
  have hlength : items.length = seen.length + rest.length := by omega
  rw [hlength] at hwalk
  have hjoined := walk_add_ok_iff.2 ⟨seen, r.cursor, rest, hseen, h.walked, rfl⟩
  obtain ⟨hitems, hlast⟩ := Prod.mk.inj (Except.ok.inj (hwalk.symm.trans hjoined))
  exact ⟨seen, hseen, hitems, hlast, hordinal.symm⟩

theorem noLoss_iff (before : List TreePageLimits) (items : List DecodedStreamEntry) :
    (∀ call ∈ (pageCalls (before.map TreePageLimits.budget) items).1, call.lost = []) ↔
      ∀ front limits back, before = front ++ limits :: back →
        ¬limits.budget.Loses (leftBefore front items) := by
  rw [pageCalls_forall_iff]
  constructor
  · rintro h front limits back rfl hloses
    have hlost := h (front.map TreePageLimits.budget) limits.budget (back.map TreePageLimits.budget)
      (by rw [map_append, map_cons])
    exact pageCall_lost_iff.2 hloses hlost
  · intro h front budget back heq
    obtain ⟨calls, rest, rfl, rfl, hrest⟩ := map_eq_append_iff.1 heq
    obtain ⟨limits, back, rfl, rfl, rfl⟩ := map_eq_cons_iff.1 hrest
    exact not_not.1 fun hlost => h calls limits back rfl (pageCall_lost_iff.1 hlost)

theorem pageResult_page (h : pageResult limits cursor call = .ok (some page)) :
    ∃ taken, call = .page taken ∧ page = ⟨taken.map DecodedStreamEntry.entry, cursor⟩ := by
  cases call with
  | done => cases h
  | oversized => cases h
  | page taken =>
    cases h
    exact ⟨taken, rfl, rfl⟩

/-- Nothing is lost or repeated around a page boundary exactly when no call before it gave up a page
it had begun. -/
theorem boundaryKeepsAll_iff (integrity : TreeBodyIntegrity) {before : List TreePageLimits}
    {limits : TreePageLimits} {page : TreePage} {delivered : List (TreeEntry ContentHash)}
    (hbody : ValidBody blake3 decompress data expectedId items)
    (hpage : pageAfter decompress ⟨data, integrity⟩ expectedId before limits =
      .ok (delivered, some page)) :
    BoundaryKeepsAll blake3 decompress data expectedId items delivered page ↔
      ∀ front l back, before = front ++ l :: back → ¬l.budget.Loses (leftBefore front items) := by
  obtain ⟨⟨header, layout, hopen, hholds⟩, hbounded⟩ := hbody
  have hplaced : openLayout ⟨data, .verifiedPlacement⟩ expectedId = .ok (header, layout) := hopen
  have hsource : openLayout ⟨data, integrity⟩ expectedId = .ok (header, layout) := hopen
  have hcomplete : (TreeBody.mk ⟨data, integrity⟩ header layout).Complete blake3 decompress items :=
    ⟨⟨hholds.walked, hholds.counted, hholds.id, hholds.blocks⟩, hbounded⟩
  have hthere : (placed data header layout).Complete blake3 decompress items :=
    ⟨⟨hholds.walked, hholds.counted, hholds.id, hholds.blocks⟩, hbounded⟩
  have hreader := (openAt_none_ok_iff decompress).2 ⟨header, layout, hsource, rfl⟩
  obtain ⟨last, hreads⟩ := hcomplete.reads
  obtain ⟨hdelivered, hrun, hsame⟩ := TreeEntryReader.pagesRun_refines hreads before
  obtain ⟨r, hnext, hleft, hsame'⟩ := TreeEntryReader.nextPage_refines hrun limits
  simp only [pageAfter, bind_eq_ok, hreader, Except.ok.injEq, exists_eq_left', hnext,
    pure_eq_ok, Prod.mk.injEq] at hpage
  obtain ⟨_, hresult, rfl, rfl⟩ := hpage
  obtain ⟨taken, hcall, rfl⟩ := pageResult_page hresult
  have hr : r.body = TreeBody.mk ⟨data, integrity⟩ header layout := hsame'.trans hsame
  have hheader : r.header = header := congrArg TreeBody.header hr
  have hlayout : r.layout = layout := congrArg TreeBody.layout hr
  obtain ⟨last', hwalk, hend⟩ := hholds.walked
  obtain ⟨seen, hseen, hitems, rfl, hordinal⟩ := hleft.split decompress
    (by rw [hr, hheader, hlayout]; exact hwalk) (by rw [hheader]; exact hholds.counted)
  have hrest := hleft.walked
  rw [hr, hheader, hlayout] at hseen
  rw [hr] at hrest
  have hdrop : items.drop r.cursor.ordinal =
      (pageCall limits.budget (pageCalls (before.map TreePageLimits.budget) items).2).2 := by
    rw [← hordinal]
    conv_lhs => rw [hitems]
    exact drop_left
  have hresume : resumeEntries blake3 decompress data expectedId r.cursor =
      .ok ((items.drop r.cursor.ordinal).map DecodedStreamEntry.entry) := by
    rw [hdrop]
    exact resume_walked blake3 decompress hplaced (hitems ▸ hthere) hseen hrest hend
  have hjoined : (pageCalls ((before ++ [limits]).map TreePageLimits.budget) items).1 =
      (pageCalls (before.map TreePageLimits.budget) items).1 ++ [.page taken] ∧
      (pageCalls ((before ++ [limits]).map TreePageLimits.budget) items).2 =
        items.drop r.cursor.ordinal := by
    rw [map_append, pageCalls_append, hdrop]
    exact ⟨congrArg (fun call => _ ++ [call]) hcall, rfl⟩
  have hkeeps := pageCalls_delivered_iff DecodedStreamEntry.entry
    ((before ++ [limits]).map TreePageLimits.budget) items
  rw [hjoined.1, hjoined.2, flatMap_append, flatMap_singleton, map_append,
    map_append, ← hdelivered, forall_mem_append] at hkeeps
  rw [BoundaryKeepsAll, and_iff_right hresume]
  apply hkeeps.trans
  rw [← noLoss_iff, and_iff_left]
  intro call hcall
  rw [mem_singleton.1 hcall]
  rfl

def deliveredBy (source : BytesTreeSource) (expectedId : ContentHash)
    (calls : List TreePageLimits) : Except TreeStreamError (List (TreeEntry ContentHash)) := do
  let r ← TreeEntryReader.openAt decompress source expectedId none
  return (TreeEntryReader.pagesRun decompress calls r).1.flatMap TreeEntryReader.deliveredEntries

/-- After a call that gave up a page it had begun, no call hands anything out: each finds nothing
left, or gives up as well. -/
def SilentAfterLoss (calls : List TreePageLimits) (items : List DecodedStreamEntry) : Prop :=
  ∀ front l back, calls = front ++ l :: back → l.budget.Loses (leftBefore front items) →
    ∀ middle later rest, back = middle ++ later :: rest →
      leftBefore (front ++ l :: middle) items = [] ∨
        later.budget.Refuses (leftBefore (front ++ l :: middle) items)

theorem ValidBody.entries_nodup (h : ValidBody blake3 decompress data expectedId items) :
    (items.map DecodedStreamEntry.entry).Nodup := by
  obtain ⟨⟨header, layout, _, hholds⟩, _⟩ := h
  obtain ⟨last, hwalk, _⟩ := hholds.walked
  have hascend : NamesAscend none items := by
    rw [← startCursor_prevName header.treeId header layout]
    exact (walk_valid decompress hwalk).2
  apply (namesAscend_none_iff.1 hascend).imp
  rintro a b hlt rfl
  exact lt_irrefl _ hlt

theorem silentAfterLoss_iff (calls : List TreePageLimits) (items : List DecodedStreamEntry) :
    (∀ front budget back, calls.map TreePageLimits.budget = front ++ budget :: back →
      (pageCall budget (pageCalls front items).2).1.lost ≠ [] →
      ∀ call ∈ (pageCalls back (pageCall budget (pageCalls front items).2).2).1,
        call.delivered = []) ↔ SilentAfterLoss calls items := by
  have hleft : ∀ (front : List TreePageLimits) l middle, leftBefore (front ++ l :: middle) items =
      (pageCalls (middle.map TreePageLimits.budget)
        (pageCall l.budget (leftBefore front items)).2).2 := by
    intro front l middle
    rw [leftBefore, map_append, pageCalls_append]
    rfl
  constructor
  · rintro h front l back rfl hloses middle later rest rfl
    have hsilent := h (front.map TreePageLimits.budget) l.budget _ map_append
      (pageCall_lost_iff.2 hloses)
    rw [hleft, ← pageCall_delivered_nil_iff later.maxEntries_pos]
    exact (pageCalls_forall_iff _ _).1 hsilent _ _ _ map_append
  · intro h front budget back heq hlost
    obtain ⟨front, rest, rfl, rfl, hrest⟩ := map_eq_append_iff.1 heq
    obtain ⟨l, back, rfl, rfl, rfl⟩ := map_eq_cons_iff.1 hrest
    apply (pageCalls_forall_iff (P := fun call => call.delivered = []) _ _).2
    intro middle budget rest heq
    obtain ⟨middle, tail, rfl, rfl, htail⟩ := map_eq_append_iff.1 heq
    obtain ⟨later, rest, rfl, rfl, rfl⟩ := map_eq_cons_iff.1 htail
    have hsilent := h front l _ rfl (pageCall_lost_iff.1 hlost) middle later rest rfl
    rw [hleft] at hsilent
    exact (pageCall_delivered_nil_iff later.maxEntries_pos).2 hsilent

/-- A run of page calls hands out the front of the entries exactly when it hands out nothing after a
call that gave up a page it had begun. -/
theorem deliveredBy_prefix_iff (integrity : TreeBodyIntegrity) (calls : List TreePageLimits)
    (hbody : ValidBody blake3 decompress data expectedId items) :
    (∃ delivered, deliveredBy decompress ⟨data, integrity⟩ expectedId calls = .ok delivered ∧
      delivered <+: items.map DecodedStreamEntry.entry) ↔ SilentAfterLoss calls items := by
  have hnodup := hbody.entries_nodup
  obtain ⟨⟨header, layout, hopen, hholds⟩, hbounded⟩ := hbody
  have hsource : openLayout ⟨data, integrity⟩ expectedId = .ok (header, layout) := hopen
  have hcomplete : (TreeBody.mk ⟨data, integrity⟩ header layout).Complete blake3 decompress items :=
    ⟨⟨hholds.walked, hholds.counted, hholds.id, hholds.blocks⟩, hbounded⟩
  have hreader := (openAt_none_ok_iff decompress).2 ⟨header, layout, hsource, rfl⟩
  obtain ⟨last, hreads⟩ := hcomplete.reads
  obtain ⟨hdelivered, _⟩ := TreeEntryReader.pagesRun_refines hreads calls
  rw [← silentAfterLoss_iff, ← pageCalls_prefix_iff DecodedStreamEntry.entry _ hnodup, ← hdelivered]
  simp only [deliveredBy, bind_eq_ok, hreader, Except.ok.injEq, exists_eq_left', pure_eq_ok]

end Boundary

section Concrete

def shortAndLong : Tree ContentHash where
  entries := [{ name := "a", target := .blob PartialTree.zeroHash false },
    { name := "long", target := .blob PartialTree.zeroHash false }]

def singleEntryPages : TreePageLimits where
  maxEntries := 1
  maxDecodedBytes := 1024
  maxEntries_pos := by decide
  maxDecodedBytes_pos := kilobytePages.maxDecodedBytes_pos

def tightPages : TreePageLimits where
  maxEntries := 10
  maxDecodedBytes := 35
  maxEntries_pos := kilobytePages.maxEntries_pos
  maxDecodedBytes_pos := by decide

theorem shortAndLong_valid : ∃ items, ValidBody PartialTree.lengthHash noZstd
    (uncheckedBody shortAndLong) (shortAndLong.hash PartialTree.lengthHash) items ∧
      items.map DecodedStreamEntry.entry = shortAndLong.entries := by
  have hread : (TreeEntryReader.readBody PartialTree.lengthHash noZstd
      ⟨uncheckedBody shortAndLong, .sequentialVerify⟩ (shortAndLong.hash PartialTree.lengthHash)
      kilobytePages).map (fun pages => pages.flatMap TreePage.entries) =
        .ok shortAndLong.entries := by
    decide +kernel
  obtain ⟨pages, hpages, hentries⟩ := map_eq_ok_iff.1 hread
  obtain ⟨items, hbody, hbounded, hitems⟩ := readBody_entries PartialTree.lengthHash noZstd hpages
  exact ⟨items, ⟨hbody, hbounded⟩, hitems.symm.trans hentries⟩

theorem boundaryKeepsAll_iff_shortAndLong : ∃ items page,
    BoundaryKeepsAll PartialTree.lengthHash noZstd (uncheckedBody shortAndLong)
      (shortAndLong.hash PartialTree.lengthHash) items
      [{ name := "a", target := .blob PartialTree.zeroHash false }] page := by
  obtain ⟨items, hvalid, hitems⟩ := shortAndLong_valid
  have hpage : (pageAfter noZstd ⟨uncheckedBody shortAndLong, .sequentialVerify⟩
      (shortAndLong.hash PartialTree.lengthHash) [singleEntryPages] singleEntryPages).map
        (fun found => (found.1, found.2.isSome)) =
      .ok ([{ name := "a", target := .blob PartialTree.zeroHash false }], true) := by
    decide +kernel
  obtain ⟨⟨delivered, found⟩, hpage, hfound⟩ := map_eq_ok_iff.1 hpage
  obtain ⟨hdelivered, hsome⟩ := Prod.mk.inj hfound
  obtain ⟨page, rfl⟩ := Option.isSome_iff_exists.1 hsome
  obtain rfl : delivered = _ := hdelivered
  refine ⟨items, page, (boundaryKeepsAll_iff PartialTree.lengthHash noZstd .sequentialVerify hvalid
    hpage).2 ?_⟩
  rintro front l back heq ⟨taken, item, rest, hleft, _, _, hlarge, _⟩
  have hmem : item ∈ items :=
    (pageCalls_suffix _ _).subset (hleft ▸ mem_append_right _ mem_cons_self)
  have hentry : item.entry ∈ shortAndLong.entries :=
    hitems ▸ mem_map.2 ⟨item, hmem, rfl⟩
  have hl : l ∈ [singleEntryPages] := heq ▸ mem_append_right _ mem_cons_self
  rw [mem_singleton.1 hl] at hlarge
  have hsmall : ∀ e ∈ shortAndLong.entries, e.decodedSize ≤ singleEntryPages.maxDecodedBytes := by
    decide
  exact absurd (of_decide_eq_true hlarge) (not_lt.2 (hsmall item.entry hentry))

/-- A page that meets a too large entry drops the entry it had taken; no page brings it again. -/
theorem shortAndLong_loses : ¬∀ items before limits delivered page,
    ValidBody PartialTree.lengthHash noZstd (uncheckedBody shortAndLong)
      (shortAndLong.hash PartialTree.lengthHash) items →
    pageAfter noZstd ⟨uncheckedBody shortAndLong, .sequentialVerify⟩
      (shortAndLong.hash PartialTree.lengthHash) before limits = .ok (delivered, some page) →
    BoundaryKeepsAll PartialTree.lengthHash noZstd (uncheckedBody shortAndLong)
      (shortAndLong.hash PartialTree.lengthHash) items delivered page := by
  intro hkeeps
  obtain ⟨items, hvalid, hitems⟩ := shortAndLong_valid
  have hpage : (pageAfter noZstd ⟨uncheckedBody shortAndLong, .sequentialVerify⟩
      (shortAndLong.hash PartialTree.lengthHash) [tightPages] kilobytePages).map
        (fun found => (found.1, found.2.map TreePage.entries)) =
      .ok ([], some [{ name := "long", target := .blob PartialTree.zeroHash false }]) := by
    decide +kernel
  obtain ⟨⟨delivered, found⟩, hpage, hfound⟩ := map_eq_ok_iff.1 hpage
  obtain ⟨rfl, hsome⟩ := Prod.mk.inj hfound
  obtain ⟨page, rfl, hentries⟩ := Option.map_eq_some_iff.1 hsome
  obtain ⟨_, hall⟩ := hkeeps items [tightPages] kilobytePages [] page hvalid hpage
  rw [hentries, hitems, nil_append, singleton_append] at hall
  have hfirst := (List.cons.inj hall).1
  exact absurd hfirst (by decide)

theorem deliveredBy_prefix_iff_shortAndLong : ∃ delivered,
    deliveredBy noZstd ⟨uncheckedBody shortAndLong, .sequentialVerify⟩
      (shortAndLong.hash PartialTree.lengthHash) [singleEntryPages] = .ok delivered ∧
    delivered <+: shortAndLong.entries := by
  obtain ⟨items, hvalid, hitems⟩ := shortAndLong_valid
  rw [← hitems]
  apply (deliveredBy_prefix_iff PartialTree.lengthHash noZstd .sequentialVerify [singleEntryPages]
    hvalid).2
  rintro front l back heq _ middle later rest rfl
  have hlength := congrArg List.length heq
  simp only [length_append, length_cons, length_nil] at hlength
  omega

/-- The entry the first call gave up is missing before the one the retry hands out. -/
theorem deliveredBy_shortAndLong : ¬∀ items calls delivered,
    ValidBody PartialTree.lengthHash noZstd (uncheckedBody shortAndLong)
      (shortAndLong.hash PartialTree.lengthHash) items →
    deliveredBy noZstd ⟨uncheckedBody shortAndLong, .sequentialVerify⟩
      (shortAndLong.hash PartialTree.lengthHash) calls = .ok delivered →
    delivered <+: items.map DecodedStreamEntry.entry := by
  intro hfront
  obtain ⟨items, hvalid, hitems⟩ := shortAndLong_valid
  have hrun : deliveredBy noZstd ⟨uncheckedBody shortAndLong, .sequentialVerify⟩
      (shortAndLong.hash PartialTree.lengthHash) [tightPages, kilobytePages] =
      .ok [{ name := "long", target := .blob PartialTree.zeroHash false }] := by
    decide +kernel
  have hlong := hfront items _ _ hvalid hrun
  rw [hitems] at hlong
  exact absurd hlong (by decide)

end Concrete
end Heddle
