import Heddle.Object.TreeStream

namespace Heddle
open Heddle.Lib

/-- What a reader never changes. -/
structure TreeBody where
  source : BytesTreeSource
  header : TreeHeader
  layout : TreeReaderLayout

def TreeEntryReader.body (r : TreeEntryReader) : TreeBody := ⟨r.source, r.header, r.layout⟩

@[simp] theorem TreeEntryReader.body_source (r : TreeEntryReader) : r.body.source = r.source := rfl

@[simp] theorem TreeEntryReader.body_header (r : TreeEntryReader) : r.body.header = r.header := rfl

@[simp] theorem TreeEntryReader.body_layout (r : TreeEntryReader) : r.body.layout = r.layout := rfl

def TreeResumeCursor.advance (cursor : TreeResumeCursor) (item : DecodedStreamEntry) :
    TreeResumeCursor :=
  { cursor with
    ordinal := cursor.ordinal + 1
    byteOffset := cursor.byteOffset + item.consumed
    prevName := some item.entry.name }

def TreeResumeCursor.Precedes (cursor : TreeResumeCursor) (item : DecodedStreamEntry) : Prop :=
  ¬∃ previous ∈ cursor.prevName, item.entry.name ≤ previous

instance (cursor : TreeResumeCursor) (item : DecodedStreamEntry) :
    Decidable (cursor.Precedes item) :=
  inferInstanceAs (Decidable (¬_))

def DecodedStreamEntry.pair (item : DecodedStreamEntry) : TreeEntry ContentHash × Option UInt32 :=
  (item.entry, item.position)

def DecodedStreamEntry.hashed (item : DecodedStreamEntry) : Bytes :=
  item.entry.updateHasher item.position

def DecodedStreamEntry.logicalLen (item : DecodedStreamEntry) : Nat :=
  item.entry.encodedLen item.position

section Body
variable (decompress : Bytes → Nat → Except String Bytes)

namespace TreeBody

def entryAt (body : TreeBody) (cursor : TreeResumeCursor) :
    Except TreeStreamError DecodedStreamEntry :=
  match body.layout with
  | .raw => readRawEntry body.source body.header cursor.byteOffset
  | .lean _ => readLeanEntry body.source cursor.byteOffset cursor.prevName
  | .blocked blockHeader => do
    let here ← blockAtCursor body.source blockHeader cursor
    if cursor.ordinal % blockHeader.blockEntries = 0 then
      readAnchorAtCursor body.source here.1 here.2 cursor
    else do
      let decoded ← loadBlock decompress body.source body.header here.1
        (cursor.ordinal / blockHeader.blockEntries) blockHeader
      readBlockFrame decoded (cursor.ordinal % blockHeader.blockEntries) here.2 cursor

def step (body : TreeBody) (cursor : TreeResumeCursor) :
    Except TreeStreamError (DecodedStreamEntry × TreeResumeCursor) := do
  let item ← body.entryAt decompress cursor
  refuse (¬cursor.Precedes item) notSorted
  return (item, cursor.advance item)

theorem step_ok_iff {body : TreeBody} :
    body.step decompress cursor = .ok (item, next) ↔
      body.entryAt decompress cursor = .ok item ∧ cursor.Precedes item ∧
        next = cursor.advance item := by
  simp only [step, bind_eq_ok, refuse_eq_ok, not_not, pure_eq_ok, Except.ok.injEq,
    Prod.mk.injEq]
  constructor
  · rintro ⟨_, hentry, _, hprecedes, rfl, rfl⟩
    exact ⟨hentry, hprecedes, rfl⟩
  · rintro ⟨hentry, hprecedes, rfl⟩
    exact ⟨item, hentry, (), hprecedes, rfl, rfl⟩

def Loads (body : TreeBody) (blockHeader : TreeBlockHeader) (block : Nat)
    (decoded : DecodedBlock) : Prop :=
  ∃ index, readBlockIndex body.source blockHeader block = .ok index ∧
    loadBlock decompress body.source body.header index block blockHeader = .ok decoded

structure CacheCoherent (body : TreeBody) (cache : Option DecodedBlock)
    (validatedBlocks : List Bool) : Prop where
  cached : ∀ blockHeader, body.layout = .blocked blockHeader → ∀ decoded ∈ cache,
    body.Loads decompress blockHeader decoded.block decoded
  validated : ∀ blockHeader, body.layout = .blocked blockHeader → ∀ block,
    validatedBlocks[block]? = some true → ∃ decoded, body.Loads decompress blockHeader block decoded

theorem loadBlock_block {source : BytesTreeSource} {header : TreeHeader} {index : TreeBlockIndex}
    (h : loadBlock decompress source header index block blockHeader = .ok decoded) :
    decoded.block = block := by
  simp only [loadBlock, bind_eq_ok, pure_eq_ok, Except.ok.injEq] at h
  obtain ⟨_, _, _, _, _, _, _, _, rfl⟩ := h
  rfl

theorem CacheCoherent.withBlock {body : TreeBody} (h : body.CacheCoherent decompress cache blocks)
    (hlayout : body.layout = .blocked blockHeader)
    (hload : body.Loads decompress blockHeader decoded.block decoded) :
    body.CacheCoherent decompress (some decoded) (blocks.set decoded.block true) where
  cached := by
    intro other hother loaded hloaded
    cases hlayout.symm.trans hother
    cases hloaded
    exact hload
  validated := by
    intro other hother block hblock
    cases hlayout.symm.trans hother
    by_cases heq : decoded.block = block
    · exact ⟨decoded, heq ▸ hload⟩
    · rw [List.getElem?_set_ne heq] at hblock
      exact h.validated blockHeader hlayout block hblock

end TreeBody

namespace TreeEntryReader
variable {r : TreeEntryReader}

/-- The caches and the pending entry are what a fresh read would give. -/
structure Coherent (r : TreeEntryReader) : Prop where
  caches : r.body.CacheCoherent decompress r.cache r.validatedBlocks
  pending : ∀ item ∈ r.pending, r.body.entryAt decompress r.cursor = .ok item

def withCaches (r : TreeEntryReader) (cache : Option DecodedBlock) (blocks : List Bool) :
    TreeEntryReader :=
  { r with cache := cache, validatedBlocks := blocks, pending := none }

theorem withCaches_self (h : r.pending = none) : r.withCaches r.cache r.validatedBlocks = r := by
  cases r
  simp only at h
  subst h
  rfl

section
variable (h : r.body.CacheCoherent decompress r.cache r.validatedBlocks)
include h

theorem cachedBlock_load
    (hlayout : r.layout = .blocked blockHeader) (hcached : r.cachedBlock block = some cached)
    (hindex : readBlockIndex r.source blockHeader block = .ok index) :
    loadBlock decompress r.source r.header index block blockHeader = .ok cached := by
  obtain ⟨hmem, heq⟩ := Option.filter_eq_some_iff.1 hcached
  obtain rfl : cached.block = block := of_decide_eq_true heq
  obtain ⟨index', hindex', hload⟩ := h.cached blockHeader hlayout cached hmem
  change readBlockIndex r.source blockHeader cached.block = .ok index' at hindex'
  cases hindex.symm.trans hindex'
  exact hload

theorem readBlockedEntry_spec
    (hpending : r.pending = none) (hlayout : r.layout = .blocked blockHeader) :
    ∃ cache blocks, r.readBlockedEntry decompress blockHeader =
        (r.body.entryAt decompress r.cursor, r.withCaches cache blocks) ∧
      r.body.CacheCoherent decompress cache blocks := by
  have hself := withCaches_self hpending
  have hentry : r.body.entryAt decompress r.cursor = (do
      let here ← blockAtCursor r.source blockHeader r.cursor
      if r.cursor.ordinal % blockHeader.blockEntries = 0 then
        readAnchorAtCursor r.source here.1 here.2 r.cursor
      else do
        let decoded ← loadBlock decompress r.source r.header here.1
          (r.cursor.ordinal / blockHeader.blockEntries) blockHeader
        readBlockFrame decoded (r.cursor.ordinal % blockHeader.blockEntries) here.2 r.cursor) := by
    simp only [TreeBody.entryAt, body, hlayout]
  rw [hentry, readBlockedEntry]
  cases hat : blockAtCursor r.source blockHeader r.cursor with
  | error err => exact ⟨r.cache, r.validatedBlocks, by rw [hself]; rfl, h⟩
  | ok here =>
    obtain ⟨index, start⟩ := here
    have hindex : readBlockIndex r.source blockHeader
        (r.cursor.ordinal / blockHeader.blockEntries) = .ok index := by
      simp only [blockAtCursor, bind_eq_ok, pure_eq_ok, Except.ok.injEq, Prod.mk.injEq] at hat
      obtain ⟨_, hindex, _, _, rfl, _⟩ := hat
      exact hindex
    by_cases hwithin : r.cursor.ordinal % blockHeader.blockEntries = 0
    · simp only [if_pos hwithin]
      exact ⟨r.cache, r.validatedBlocks, by rw [hself]; rfl, h⟩
    · simp only [if_neg hwithin]
      cases hcached : r.cachedBlock (r.cursor.ordinal / blockHeader.blockEntries) with
      | some cached =>
        refine ⟨r.cache, r.validatedBlocks, ?_, h⟩
        simp only [hself, bind, Except.bind,
          cachedBlock_load decompress h hlayout hcached hindex]
      | none =>
        cases hload : loadBlock decompress r.source r.header index
          (r.cursor.ordinal / blockHeader.blockEntries) blockHeader with
        | error err =>
          refine ⟨r.cache, r.validatedBlocks, ?_, h⟩
          simp only [hself, bind, Except.bind, hload]
        | ok decoded =>
          have hblock := TreeBody.loadBlock_block decompress hload
          refine ⟨some decoded, r.validatedBlocks.set decoded.block true, ?_, ?_⟩
          · simp only [bind, Except.bind, hload, TreeEntryReader.withBlock, withCaches, ← hpending]
          · apply h.withBlock decompress hlayout
            exact ⟨index, by rw [hblock]; exact hindex, by rw [hblock]; exact hload⟩

end

/-- Taking the next entry is reading the body at the cursor; only caches change. -/
theorem takeNextEntry_spec (h : r.Coherent decompress) :
    ∃ cache blocks, r.takeNextEntry decompress =
        (r.body.entryAt decompress r.cursor, r.withCaches cache blocks) ∧
      r.body.CacheCoherent decompress cache blocks := by
  rw [takeNextEntry]
  cases hpending : r.pending with
  | some item => exact ⟨r.cache, r.validatedBlocks, by rw [h.pending item hpending]; rfl, h.caches⟩
  | none =>
    simp only [readEntryAt]
    cases hlayout : r.layout with
    | raw =>
      refine ⟨r.cache, r.validatedBlocks, ?_, h.caches⟩
      rw [withCaches_self hpending]
      simp only [TreeBody.entryAt, body, hlayout]
    | lean bodyStart =>
      refine ⟨r.cache, r.validatedBlocks, ?_, h.caches⟩
      rw [withCaches_self hpending]
      simp only [TreeBody.entryAt, body, hlayout]
    | blocked blockHeader =>
      exact readBlockedEntry_spec decompress h.caches hpending hlayout

def committed (r : TreeEntryReader) (item : DecodedStreamEntry) : TreeEntryReader :=
  { r with
    hasher := r.hasher.map (· ++ item.hashed)
    leanHashEntries := r.leanHashEntries.map (· ++ [item.entry])
    decodedLogicalLen := r.decodedLogicalLen + item.logicalLen
    cursor := r.cursor.advance item }

theorem commitEntry_ok_iff :
    r.commitEntry item = (.ok (), r') ↔ r.cursor.Precedes item ∧
      r.decodedLogicalLen + item.logicalLen < 2 ^ 64 ∧ r' = r.committed item := by
  simp only [commitEntry]
  by_cases hsorted : ∃ previous ∈ r.cursor.prevName, item.entry.name ≤ previous
  · rw [if_pos hsorted]
    constructor
    · intro h
      cases h
    · rintro ⟨hprecedes, _⟩
      exact absurd hsorted hprecedes
  · rw [if_neg hsorted]
    by_cases hlen : 2 ^ 64 ≤ r.decodedLogicalLen + item.entry.encodedLen item.position
    · rw [if_pos hlen]
      constructor
      · intro h
        cases h
      · rintro ⟨_, hlt, _⟩
        exact absurd hlt (not_lt.2 hlen)
    · rw [if_neg hlen]
      constructor
      · intro h
        cases h
        exact ⟨hsorted, not_le.1 hlen, rfl⟩
      · rintro ⟨_, _, rfl⟩
        rfl

end TreeEntryReader
end Body

end Heddle
