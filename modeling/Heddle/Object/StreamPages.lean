import Heddle.Object.StreamWalk

namespace Heddle
open Heddle.Lib List

section Pages
variable (decompress : Bytes → Nat → Except String Bytes)

namespace TreeEntryReader
variable {r start : TreeEntryReader}

/-- What a reader has taken in since another state of it. -/
structure Progress (start r : TreeEntryReader) (seen : List DecodedStreamEntry) : Prop where
  body : r.body = start.body
  walked : walk (start.body.step decompress) seen.length start.cursor = .ok (seen, r.cursor)
  hasher : r.hasher = start.hasher.map (· ++ seen.flatMap DecodedStreamEntry.hashed)
  leanHashEntries :
    r.leanHashEntries = start.leanHashEntries.map (· ++ seen.map DecodedStreamEntry.entry)
  logicalLen : r.decodedLogicalLen =
    start.decodedLogicalLen + (seen.map DecodedStreamEntry.logicalLen).sum
  bounded : seen = [] ∨ r.decodedLogicalLen < 2 ^ 64
  started : r.startedAtZero = start.startedAtZero

theorem Progress.refl (r : TreeEntryReader) : Progress decompress r r [] where
  body := rfl
  walked := rfl
  hasher := by simp only [flatMap_nil, append_nil, Option.map_id']
  leanHashEntries := by simp only [map_nil, append_nil, Option.map_id']
  logicalLen := rfl
  bounded := .inl rfl
  started := rfl

theorem Progress.trans {decompress : Bytes → Nat → Except String Bytes} {middle : TreeEntryReader}
    (h : Progress decompress start middle xs) (h' : Progress decompress middle r ys) :
    Progress decompress start r (xs ++ ys) where
  body := h'.body.trans h.body
  walked := by
    rw [length_append]
    exact walk_add_ok_iff.2 ⟨xs, middle.cursor, ys, h.walked, h.body ▸ h'.walked, rfl⟩
  hasher := by
    rw [h'.hasher, h.hasher, Option.map_map, flatMap_append]
    congr 1
    funext content
    exact append_assoc _ _ _
  leanHashEntries := by
    rw [h'.leanHashEntries, h.leanHashEntries, Option.map_map, map_append]
    congr 1
    funext entries
    exact append_assoc _ _ _
  logicalLen := by
    rw [h'.logicalLen, h.logicalLen, map_append, sum_append, Nat.add_assoc]
  bounded := by
    rcases h'.bounded with rfl | hlt
    · rw [append_nil]
      rcases h.bounded with hnil | hlt
      · exact .inl hnil
      · apply Or.inr
        rw [h'.logicalLen]
        exact hlt
    · exact .inr hlt
  started := h'.started.trans h.started

theorem Progress.ordinal (h : Progress decompress start r seen) :
    r.cursor.ordinal = start.cursor.ordinal + seen.length := by
  have hstep : ∀ cursor (seen : List DecodedStreamEntry) item next,
      cursor.ordinal = start.cursor.ordinal + seen.length →
      start.body.step decompress cursor = .ok (item, next) →
      next.ordinal = start.cursor.ordinal + (seen ++ [item]).length := by
    intro cursor seen item next hcursor hstep
    obtain ⟨_, _, rfl⟩ := (TreeBody.step_ok_iff decompress).1 hstep
    simp only [TreeResumeCursor.advance, hcursor, length_append, length_singleton]
    omega
  have hstart : start.cursor.ordinal = start.cursor.ordinal + ([] : List DecodedStreamEntry).length :=
    rfl
  exact walk_inv hstep h.walked hstart

theorem take_commit (h : r.Coherent decompress)
    (htake : r.takeNextEntry decompress = (.ok item, taken))
    (hcommit : taken.commitEntry item = (.ok (), r')) :
    Progress decompress r r' [item] ∧ r'.Coherent decompress := by
  obtain ⟨cache, blocks, hspec, hcaches⟩ := takeNextEntry_spec decompress h
  obtain ⟨hentry, rfl⟩ := Prod.mk.inj (htake.symm.trans hspec)
  obtain ⟨hprecedes, hlt, rfl⟩ := commitEntry_ok_iff.1 hcommit
  constructor
  · exact {
      body := rfl
      walked := walk_succ_ok_iff.2 ⟨item, _, [],
        (TreeBody.step_ok_iff decompress).2 ⟨hentry.symm, hprecedes, rfl⟩, rfl, rfl⟩
      hasher := by simp only [flatMap_singleton]; rfl
      leanHashEntries := rfl
      logicalLen := by simp only [map_singleton, sum_singleton]; rfl
      bounded := .inr hlt
      started := rfl }
  · exact { caches := hcaches, pending := fun _ hitem => (nomatch hitem) }

section
variable {limits : TreePageLimits} {r' : TreeEntryReader}

theorem pageLoop_ok {entries taken : List (TreeEntry ContentHash)} (h : r.Coherent decompress)
    (hok : pageLoop decompress limits room entries used r = (.ok taken, r')) :
    ∃ seen, taken = entries ++ seen.map DecodedStreamEntry.entry ∧
      Progress decompress r r' seen ∧ r'.Coherent decompress := by
  induction room generalizing entries used r with
  | zero =>
    cases hok
    exact ⟨[], by simp, .refl decompress _, h⟩
  | succ room ih =>
    rw [pageLoop] at hok
    by_cases hend : r.cursor.ordinal < r.header.entryCount
    · rw [if_pos hend] at hok
      obtain ⟨cache, blocks, hspec, hcaches⟩ := takeNextEntry_spec decompress h
      cases hentry : r.body.entryAt decompress r.cursor with
      | error err =>
        rw [hspec, hentry] at hok
        cases hok
      | ok item =>
        rw [hentry] at hspec
        simp only [hspec] at hok
        by_cases hlarge : item.entry.decodedSize > limits.maxDecodedBytes
        · rw [if_pos hlarge] at hok
          cases hok
        · rw [if_neg hlarge] at hok
          by_cases hfull : entries ≠ [] ∧
              saturatingAdd used item.entry.decodedSize > limits.maxDecodedBytes
          · rw [if_pos hfull] at hok
            cases hok
            refine ⟨[], by simp, ?_, { caches := hcaches, pending := ?_ }⟩
            · exact { Progress.refl decompress _ with }
            · intro pending hpending
              cases hpending
              exact hentry
          · rw [if_neg hfull] at hok
            cases hcommit : (r.withCaches cache blocks).commitEntry item with
            | mk result committed =>
              rw [hcommit] at hok
              cases result with
              | error err => cases hok
              | ok u =>
                obtain ⟨hone, hcoherent⟩ := take_commit decompress h hspec hcommit
                obtain ⟨seen, rfl, hrest, hlast⟩ := ih hcoherent hok
                refine ⟨item :: seen, ?_, hone.trans hrest, hlast⟩
                rw [map_cons, append_assoc, singleton_append]
    · rw [if_neg hend] at hok
      cases hok
      exact ⟨[], by simp, .refl decompress _, h⟩

theorem nextPage_ok {page : Option TreePage}
    (h : r.Coherent decompress) (hok : r.nextPage decompress limits = (.ok page, r')) :
    r'.Coherent decompress ∧ ∃ seen, Progress decompress r r' seen ∧
      (page = none → seen = []) ∧
      ∀ p ∈ page, p.entries = seen.map DecodedStreamEntry.entry ∧ p.resumeCursor = r'.cursor := by
  rw [nextPage] at hok
  split at hok
  · cases hok
    exact ⟨h, [], .refl decompress _, fun _ => rfl, fun _ hp => (nomatch hp)⟩
  · split at hok
    · cases hok
    · rename_i hloop
      cases hok
      obtain ⟨seen, rfl, hprogress, hcoherent⟩ := pageLoop_ok decompress h hloop
      refine ⟨hcoherent, seen, hprogress, fun h => (nomatch h), fun p hp => ?_⟩
      cases hp
      exact ⟨rfl, rfl⟩

theorem readPages_ok {pages : List TreePage}
    (h : r.Coherent decompress) (hok : r.readPages decompress limits fuel = .ok (pages, r')) :
    r'.Coherent decompress ∧ ∃ seen, Progress decompress r r' seen ∧
      pages.flatMap TreePage.entries = seen.map DecodedStreamEntry.entry := by
  induction fuel generalizing r pages with
  | zero =>
    cases hok
    exact ⟨h, [], .refl decompress _, rfl⟩
  | succ fuel ih =>
    rw [readPages] at hok
    cases hpage : r.nextPage decompress limits with
    | mk result next =>
      rw [hpage] at hok
      cases result with
      | error err => cases hok
      | ok page =>
        obtain ⟨hcoherent, seen, hprogress, hnone, hsome⟩ := nextPage_ok decompress h hpage
        cases page with
        | none =>
          cases hok
          obtain rfl := hnone rfl
          exact ⟨hcoherent, [], hprogress, rfl⟩
        | some page =>
          obtain ⟨⟨rest, last⟩, hrest, hpair⟩ := bind_eq_ok.1 hok
          cases hpair
          obtain ⟨hlast, seen', hprogress', hentries⟩ := ih hcoherent hrest
          refine ⟨hlast, seen ++ seen', hprogress.trans hprogress', ?_⟩
          rw [flatMap_cons, map_append, hentries, (hsome page rfl).1]

end

theorem collectWith_ok {push : σ → TreeEntry ContentHash × Option UInt32 →
      Except TreeStreamError σ} {r' : TreeEntryReader} {s s' : σ} (h : r.Coherent decompress)
    (hok : r.collectWith decompress push fuel s = .ok (s', r')) :
    r'.Coherent decompress ∧ ∃ seen, Progress decompress r r' seen ∧
      (seen.map DecodedStreamEntry.pair).foldlM push s = .ok s' := by
  induction fuel generalizing r s with
  | zero =>
    cases hok
    exact ⟨h, [], .refl decompress _, rfl⟩
  | succ fuel ih =>
    rw [collectWith, nextEntryWithPosition] at hok
    by_cases hend : r.cursor.ordinal = r.header.entryCount
    · rw [if_pos hend] at hok
      cases hok
      exact ⟨h, [], .refl decompress _, rfl⟩
    · rw [if_neg hend] at hok
      cases htake : r.takeNextEntry decompress with
      | mk result taken =>
        rw [htake] at hok
        cases result with
        | error err => cases hok
        | ok item =>
          cases hcommit : taken.commitEntry item with
          | mk result committed =>
            simp only [hcommit] at hok
            cases result with
            | error err => cases hok
            | ok u =>
              obtain ⟨hone, hcoherent⟩ := take_commit decompress h htake hcommit
              obtain ⟨mid, hpush, hrest⟩ := bind_eq_ok.1 hok
              obtain ⟨hlast, seen, hprogress, hfold⟩ := ih hcoherent hrest
              refine ⟨hlast, item :: seen, hone.trans hprogress, ?_⟩
              rw [map_cons, foldlM_cons]
              exact bind_eq_ok.2 ⟨mid, hpush, hfold⟩

end TreeEntryReader
end Pages

section Reads
variable {decompress : Bytes → Nat → Except String Bytes}

namespace TreeEntryReader
variable {r : TreeEntryReader} {items : List DecodedStreamEntry} {last : TreeResumeCursor}

variable (decompress) in
/-- The reader, come from the start of its body, has exactly `items` left, and none of them overflows
its count. -/
structure Reads (r : TreeEntryReader) (items : List DecodedStreamEntry)
    (last : TreeResumeCursor) : Prop where
  coherent : r.Coherent decompress
  passed : ∃ seen, walk (r.body.step decompress) seen.length
    (startCursor r.header.treeId r.header r.layout) = .ok (seen, r.cursor)
  walked : walk (r.body.step decompress) items.length r.cursor = .ok (items, last)
  left : r.cursor.ordinal + items.length = r.header.entryCount
  bounded : r.decodedLogicalLen + (items.map DecodedStreamEntry.logicalLen).sum < 2 ^ 64

/-- A reader with an entry left takes it, and can put it back or commit it. -/
theorem Reads.next (h : r.Reads decompress (item :: items) last) :
    ∃ cache blocks,
      r.takeNextEntry decompress = (.ok item, r.withCaches cache blocks) ∧
      Reads decompress { r.withCaches cache blocks with pending := some item } (item :: items)
        last ∧
      (r.withCaches cache blocks).commitEntry item =
        (.ok (), (r.withCaches cache blocks).committed item) ∧
      ((r.withCaches cache blocks).committed item).Reads decompress items last := by
  obtain ⟨cache, blocks, hspec, hcaches⟩ := takeNextEntry_spec decompress h.coherent
  obtain ⟨_, next, _, hstep, hrest, heq⟩ := walk_succ_ok_iff.1 h.walked
  cases heq
  obtain ⟨hentry, hprecedes, rfl⟩ := (TreeBody.step_ok_iff decompress).1 hstep
  have hleft := h.left
  have hbounded := h.bounded
  rw [map_cons, sum_cons] at hbounded
  rw [length_cons] at hleft
  have hpassed : ∃ seen, walk (r.body.step decompress) seen.length
      (startCursor r.header.treeId r.header r.layout) = .ok (seen, r.cursor.advance item) := by
    obtain ⟨seen, hseen⟩ := h.passed
    refine ⟨seen ++ [item], ?_⟩
    rw [length_append]
    exact walk_add_ok_iff.2 ⟨seen, r.cursor, [item], hseen,
      walk_succ_ok_iff.2 ⟨item, _, [], hstep, rfl, rfl⟩, rfl⟩
  refine ⟨cache, blocks, by rw [hspec, hentry], ⟨⟨hcaches, ?_⟩, h.passed, h.walked, h.left,
      h.bounded⟩, commitEntry_ok_iff.2 ⟨hprecedes, ?_, rfl⟩,
    ⟨⟨hcaches, fun _ h => (nomatch h)⟩, hpassed, hrest, ?_, ?_⟩⟩
  · intro pending hpending
    cases hpending
    exact hentry
  · change r.decodedLogicalLen + item.logicalLen < 2 ^ 64
    omega
  · change r.cursor.ordinal + 1 + items.length = r.header.entryCount
    omega
  · change r.decodedLogicalLen + item.logicalLen + _ < 2 ^ 64
    omega

theorem Reads.not_end (h : r.Reads decompress (item :: items) last) :
    r.cursor.ordinal < r.header.entryCount := by
  have hleft := h.left
  rw [length_cons] at hleft
  omega

theorem Progress.seen_eq (h : Progress decompress start r seen)
    (hreads : start.Reads decompress items last) (hend : r.cursor.ordinal = r.header.entryCount) :
    seen = items := by
  have hheader : r.header = start.header := congrArg TreeBody.header h.body
  have hordinal := h.ordinal
  have hleft := hreads.left
  rw [hend, hheader] at hordinal
  have hlength : seen.length = items.length := by omega
  have hwalked := h.walked
  rw [hlength] at hwalked
  exact (Prod.mk.inj (Except.ok.inj (hwalked.symm.trans hreads.walked))).1

theorem Reads.at_end (h : r.Reads decompress [] last) :
    r.cursor.ordinal = r.header.entryCount := h.left

end TreeEntryReader

def TreePageLimits.budget (limits : TreePageLimits) : PageBudget DecodedStreamEntry where
  maxItems := limits.maxEntries
  size item := item.entry.decodedSize
  tooLarge item := item.entry.decodedSize > limits.maxDecodedBytes
  full used item := saturatingAdd used item.entry.decodedSize > limits.maxDecodedBytes

def oversized (limits : TreePageLimits) (item : DecodedStreamEntry) : TreeStreamError :=
  .oversizedEntry item.entry.decodedSize limits.maxDecodedBytes

/-- What a page call on the plain list of entries means for the reader's caller. -/
def pageResult (limits : TreePageLimits) (cursor : TreeResumeCursor) :
    PageCall DecodedStreamEntry → Except TreeStreamError (Option TreePage)
  | .done => .ok none
  | .page taken => .ok (some ⟨taken.map DecodedStreamEntry.entry, cursor⟩)
  | .oversized _ item => .error (oversized limits item)

def loopResult (limits : TreePageLimits) :
    PageCall DecodedStreamEntry → Except TreeStreamError (List (TreeEntry ContentHash))
  | .done => .ok []
  | .page taken => .ok (taken.map DecodedStreamEntry.entry)
  | .oversized _ item => .error (oversized limits item)

namespace TreeEntryReader
variable {r : TreeEntryReader} {items : List DecodedStreamEntry} {last : TreeResumeCursor}

theorem pageLoop_refines (h : r.Reads decompress items last) (limits : TreePageLimits)
    (room : Nat) (taken : List DecodedStreamEntry) (used : Nat) :
    ∃ r', pageLoop decompress limits room (taken.map DecodedStreamEntry.entry) used r =
        (loopResult limits (takePage limits.budget room taken used items).1, r') ∧
      r'.Reads decompress (takePage limits.budget room taken used items).2 last ∧
      r'.body = r.body := by
  induction room generalizing taken used items r with
  | zero => exact ⟨r, rfl, h, rfl⟩
  | succ room ih =>
    cases items with
    | nil =>
      refine ⟨r, ?_, h, rfl⟩
      rw [pageLoop, if_neg (by rw [h.at_end]; exact lt_irrefl _)]
      rfl
    | cons item items =>
      obtain ⟨cache, blocks, htake, hpending, hcommit, hnext⟩ := h.next
      rw [pageLoop, if_pos h.not_end, htake, takePage]
      by_cases hlarge : item.entry.decodedSize > limits.maxDecodedBytes
      · simp only [if_pos hlarge, TreePageLimits.budget, decide_eq_true hlarge, if_true]
        have htaken : (r.withCaches cache blocks).Reads decompress (item :: items) last :=
          ⟨⟨hpending.coherent.caches, fun _ h => by cases h⟩, h.passed, h.walked, h.left, h.bounded⟩
        exact ⟨r.withCaches cache blocks, rfl, htaken, rfl⟩
      · simp only [if_neg hlarge, TreePageLimits.budget, decide_eq_false hlarge,
          Bool.false_eq_true, if_false, ne_eq, map_eq_nil_iff, decide_eq_true_eq]
        by_cases hfull : ¬taken = [] ∧
            saturatingAdd used item.entry.decodedSize > limits.maxDecodedBytes
        · simp only [if_pos hfull]
          exact ⟨_, rfl, hpending, rfl⟩
        · simp only [if_neg hfull, hcommit]
          have hmap : taken.map DecodedStreamEntry.entry ++ [item.entry] =
              (taken ++ [item]).map DecodedStreamEntry.entry := by
            rw [map_append]
            rfl
          rw [hmap]
          exact ih hnext (taken ++ [item]) (used + item.entry.decodedSize)

theorem nextPage_refines (h : r.Reads decompress items last) (limits : TreePageLimits) :
    ∃ r', r.nextPage decompress limits =
        (pageResult limits r'.cursor (pageCall limits.budget items).1, r') ∧
      r'.Reads decompress (pageCall limits.budget items).2 last ∧ r'.body = r.body := by
  cases items with
  | nil =>
    refine ⟨r, ?_, h, rfl⟩
    rw [nextPage, if_pos h.at_end]
    rfl
  | cons item items =>
    obtain ⟨r', hloop, hreads, hbody⟩ := pageLoop_refines h limits limits.maxEntries [] 0
    rw [map_nil] at hloop
    have hmax : limits.budget.maxItems = limits.maxEntries := rfl
    rw [nextPage, if_neg (Nat.ne_of_lt h.not_end), hloop, pageCall,
      if_neg (cons_ne_nil _ _), hmax]
    refine ⟨r', ?_, hreads, hbody⟩
    cases hcall : (takePage limits.budget limits.maxEntries [] 0 (item :: items)).1 with
    | done => exact absurd hcall takePage_ne_done
    | page taken => rfl
    | oversized taken item => rfl

def deliveredEntries :
    Except TreeStreamError (Option TreePage) → List (TreeEntry ContentHash)
  | .ok (some page) => page.entries
  | _ => []

theorem delivered_pageResult (limits : TreePageLimits) (cursor : TreeResumeCursor)
    (call : PageCall DecodedStreamEntry) :
    deliveredEntries (pageResult limits cursor call) =
      call.delivered.map DecodedStreamEntry.entry := by
  cases call <;> rfl

section
variable (h : r.Reads decompress items last)
include h

theorem pagesRun_refines (limits : List TreePageLimits) :
    (pagesRun decompress limits r).1.flatMap deliveredEntries =
        ((pageCalls (limits.map TreePageLimits.budget) items).1.flatMap PageCall.delivered).map
          DecodedStreamEntry.entry ∧
      (pagesRun decompress limits r).2.Reads decompress
        (pageCalls (limits.map TreePageLimits.budget) items).2 last ∧
      (pagesRun decompress limits r).2.body = r.body := by
  induction limits generalizing r items with
  | nil => exact ⟨rfl, h, rfl⟩
  | cons first limits ih =>
    obtain ⟨r', hpage, hreads, hbody⟩ := nextPage_refines h first
    obtain ⟨hdelivered, hrest, hsame⟩ := ih hreads
    simp only [pagesRun, hpage, map_cons, pageCalls]
    refine ⟨?_, hrest, hsame.trans hbody⟩
    rw [flatMap_cons, flatMap_cons, map_append, hdelivered, delivered_pageResult]

theorem readPages_refines (limits : TreePageLimits)
    (hfuel : items.length < fuel) :
    (∃ pages r', r.readPages decompress limits fuel = .ok (pages, r') ∧
        r'.Reads decompress [] last ∧
        pages.flatMap TreePage.entries = items.map DecodedStreamEntry.entry) ∨
      ∃ item ∈ items, limits.maxDecodedBytes < item.entry.decodedSize ∧
        r.readPages decompress limits fuel = .error (oversized limits item) := by
  induction fuel generalizing r items with
  | zero => omega
  | succ fuel ih =>
    obtain ⟨r', hpage, hreads, _⟩ := nextPage_refines h limits
    have hsplit := pageCall_split limits.budget items
    rw [readPages, hpage]
    cases hcall : (pageCall limits.budget items).1 with
    | done =>
      rw [pageCall] at hcall hreads
      split at hcall
      · rename_i hnil
        rw [if_pos hnil] at hreads
        exact .inl ⟨[], r', rfl, hreads, by rw [hnil]; rfl⟩
      · exact absurd hcall takePage_ne_done
    | oversized taken item =>
      obtain ⟨hmem, hlarge⟩ := pageCall_oversized hcall
      exact .inr ⟨item, hmem, of_decide_eq_true hlarge, rfl⟩
    | page taken =>
      rw [hcall] at hsplit
      simp only [PageCall.delivered, PageCall.lost, append_nil] at hsplit
      have hshorter : (pageCall limits.budget items).2.length < fuel := by
        have htaken : taken ≠ [] := pageCall_page_ne_nil limits.maxEntries_pos hcall
        have hlength := congrArg List.length hsplit
        have hpos := length_pos_iff.2 htaken
        rw [length_append] at hlength
        omega
      rcases ih hreads hshorter with
        ⟨pages, last', hrest, hend, hentries⟩ | ⟨item, hmem, hlarge, herror⟩
      · refine .inl ⟨⟨taken.map DecodedStreamEntry.entry, r'.cursor⟩ :: pages, last', ?_, hend, ?_⟩
        · simp only [pageResult, hrest]
          rfl
        · rw [flatMap_cons, hentries, ← map_append, hsplit]
      · refine .inr ⟨item, hsplit ▸ mem_append_right _ hmem, hlarge, ?_⟩
        simp only [pageResult, herror]
        rfl

theorem collectWith_refines (hfuel : items.length < fuel)
    (hpush : (items.map DecodedStreamEntry.pair).foldlM push s = .ok s') :
    ∃ r', r.collectWith decompress push fuel s = .ok (s', r') ∧ r'.Reads decompress [] last := by
  induction fuel generalizing r items s with
  | zero => omega
  | succ fuel ih =>
    rw [collectWith, nextEntryWithPosition]
    cases items with
    | nil =>
      cases hpush
      rw [if_pos h.at_end]
      exact ⟨r, rfl, h⟩
    | cons item items =>
      obtain ⟨cache, blocks, htake, _, hcommit, hnext⟩ := h.next
      rw [map_cons, foldlM_cons] at hpush
      obtain ⟨mid, hfirst, hrest⟩ := bind_eq_ok.1 hpush
      rw [length_cons] at hfuel
      obtain ⟨r', hcollect, hend⟩ := ih hnext (by omega) hrest
      refine ⟨r', ?_, hend⟩
      simp only [if_neg (Nat.ne_of_lt h.not_end), htake, hcommit]
      exact bind_eq_ok.2 ⟨mid, hfirst, hcollect⟩

end

end TreeEntryReader
end Reads

end Heddle
