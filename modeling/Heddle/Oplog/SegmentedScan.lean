import Heddle.Oplog.BatchScan

namespace Heddle.Oplog
open Heddle Heddle.Lib
open List hiding count min sections

structure Written (codec : PayloadCodec) (index : PackedOpLogIndex) (entries : List OpEntry) :
    Prop where
  ascending : Ascending entries
  lossless : ∀ entry ∈ entries, codec.Lossless entry.operation
  written : ∃ headId, ∃ hlt : headId < 256 ^ 8,
    encodeCurrentContainer codec ⟨entries, headId, hlt⟩ = .ok index.file
  memory : index.file.length < 2 ^ 63
  decodes : ∃ headId, decodeCurrentContainer codec index.file = .ok (entries, headId)
  opens : PackedOpLogIndex.open codec index.file = .ok index

structure Parts (codec : PayloadCodec) (index : PackedOpLogIndex) (entries : List OpEntry)
    (offsets : List EntryOffsetRecord) (stream : Bytes) : Prop where
  encoded : encodeEntries codec headerLen entries = .ok (offsets, stream)
  sections : index.sections = buildIndexSections (entries.zip offsets)
  entryCount : index.header.entryCount = entries.length
  headId : index.header.headId = (entries.getLast?.map OpEntry.id).getD 0
  reads : ∀ e ∈ offsetsOf entries offsets, readEntryAt codec index.file e.2 = .ok e.1
  batches : ∀ batchId, (entries.filter fun e => effectiveBatchId e = batchId).length < 256 ^ 4
  memory : (buildIndexSections (entries.zip offsets)).batchOffsets.length < 2 ^ 64

theorem Written.parts (h : Written codec index entries) :
    ∃ offsets stream, Parts codec index entries offsets stream := by
  obtain ⟨file, header, footer, sections⟩ := index
  obtain ⟨hsorted, hlossless, ⟨headId, hhead, hencoded⟩, hlength, ⟨_, hdecode⟩, hopen⟩ := h
  obtain ⟨offsets, stream, hentries, _, rfl⟩ := encodeCurrentContainer_ok_iff.1 hencoded
  have hmemory : headerLen + stream.length +
      (buildIndexSections (entries.zip offsets)).encodedLen < 2 ^ 63 := by
    rw [← containerBytes_length]
    exact hlength
  have hlaid := laid_of_encodeEntries hhead hentries hmemory
  have hmany := ((decodeCurrentContainer_ok_iff hlaid).1 hdecode).1
  rw [← append_nil stream] at hmany
  have hr := readable_of_takeMany hentries hlossless hmany
  obtain ⟨hindex, hconsistent⟩ := (open_ok_iff hlaid).1 hopen
  cases hindex
  have hstorable : Storable codec ⟨entries, headId, hhead⟩ :=
    (consistent_iff hentries hsorted hr).1 hconsistent
  refine ⟨offsets, stream, hentries, rfl, rfl, hstorable.headId, ?_, hstorable.batches, ?_⟩
  · intro e he
    obtain ⟨⟨entry, record⟩, hzip, rfl⟩ := mem_map.1 he
    have hstored := storedAt_of_mem_zip hentries hzip
    rw [← headerBytes_length entries.length headId] at hstored
    exact readEntryAt_stored hstored (hr entry (of_mem_zip hzip).1)
  · unfold IndexSections.encodedLen at hmemory
    omega

theorem Parts.readable (h : Parts codec index entries offsets stream) :
    ∀ group ∈ batchGroups (offsetsOf entries offsets), ReadableGroup codec index.file group := by
  intro group hgroup
  obtain ⟨_, hbatch⟩ := mem_batchGroups.1 hgroup
  constructor
  · have hlt := h.batches group.batchId
    rw [← batchOf_length h.encoded, ← (batchGroup_perm group.batchId _).length_eq, ← hbatch] at hlt
    exact hlt
  · intro e he
    exact h.reads e (mem_batchGroups_entries hgroup he)
  · rw [group_entries h.encoded hgroup]
    exact pairwise_insertionSort EntryOrder _

theorem le_last (h : Ascending entries) :
    ∀ entry ∈ entries, entry.id ≤ (entries.getLast?.map OpEntry.id).getD 0 := by
  intro entry hentry
  obtain ⟨front, last, rfl⟩ :=
    (eq_nil_or_concat' entries).resolve_left (ne_nil_of_mem hentry)
  rw [getLast?_concat]
  rcases mem_append.1 hentry with hfront | hlast
  · exact Nat.le_of_lt ((pairwise_append.1 h).2.2 entry hfront last (.head _))
  · obtain rfl := mem_singleton.1 hlast
    exact Nat.le_refl _

theorem Written.le_headId (h : Written codec index entries) :
    ∀ entry ∈ entries, entry.id ≤ index.header.headId := by
  obtain ⟨offsets, stream, hparts⟩ := h.parts
  rw [hparts.headId]
  exact le_last h.ascending

/-- One container: the walk over the directory is the scan of the entries. -/
theorem Written.collect (h : Written codec index entries) (sinceHeadId : Nat)
    (predicate : OpBatch → Bool) (scope : Option String) (count : Nat) :
    index.collectBatchesAfterScoped codec sinceHeadId predicate scope count =
      .ok (scanBatches entries sinceHeadId predicate scope count) := by
  obtain ⟨offsets, stream, hparts⟩ := h.parts
  have hscan : batchesOf (entries.filter fun entry => sinceHeadId < entry.id) = _ :=
    (batches_of (h.ascending.filter _)).unique (batches_newBatch hparts.encoded h.ascending)
  unfold PackedOpLogIndex.collectBatchesAfterScoped scanBatches
  by_cases hnone : count = 0 ∨ index.header.entryCount = 0
  · rw [if_pos hnone]
    rcases hnone with rfl | hempty
    · rw [take_zero]
    · rw [hparts.entryCount] at hempty
      rw [length_eq_zero_iff.1 hempty, filter_nil, batchesOf_nil, filter_nil,
        take_nil]
  · obtain ⟨hcount, _⟩ := not_or.1 hnone
    have hlength := hparts.memory
    rw [batchOffsets_length] at hlength
    have hwalk : collectFrom codec sinceHeadId predicate scope index count []
        (batchDirFrom ([] : List Nat).length (batchGroups (offsetsOf entries offsets))) = _ :=
      collectFrom_groups hparts.readable
        (fun group hgroup hnew => (newBatch_newest hparts.encoded hgroup hnew).2)
        (batchGroups_descending (by rw [map_fst_offsetsOf hparts.encoded]; exact h.ascending))
        (by rw [hparts.sections]; rfl) (by rw [length_nil, Nat.zero_add]; exact hlength)
        (Nat.pos_of_ne_zero hcount)
    rw [if_neg hnone, hparts.sections, hscan]
    exact hwalk

/-- The batches of two logs one after the other are those of the newer and then those of the older,
when no batch has entries in both. -/
theorem batches_append (holder : Batches older olderBatches) (hnewer : Batches newer newerBatches)
    (hids : ∀ a ∈ older, ∀ b ∈ newer, a.id < b.id)
    (hbatches : ∀ a ∈ older, ∀ b ∈ newer, effectiveBatchId a ≠ effectiveBatchId b) :
    Batches (older ++ newer) (newerBatches ++ olderBatches) := by
  constructor
  · apply pairwise_append.2
    refine ⟨hnewer.descending, holder.descending, ?_⟩
    intro a ha b hb
    have hab := (hnewer.complete a).1 ha
    have hbb := (holder.complete b).1 hb
    obtain ⟨x, hx, hxid, _⟩ := exists_newest hab.nonempty
    obtain ⟨y, hy, hyid, _⟩ := exists_newest hbb.nonempty
    have hlt := hids y (hbb.mem_iff.1 hy).1 x (hab.mem_iff.1 hx).1
    rw [← hxid, ← hyid] at hlt
    exact hlt
  · intro batch
    rw [mem_append, hnewer.complete, holder.complete]
    have hsplit : (older ++ newer).filter (fun e => effectiveBatchId e = batch.id) =
        older.filter (fun e => effectiveBatchId e = batch.id) ++
          newer.filter fun e => effectiveBatchId e = batch.id := filter_append ..
    have hapart : older.filter (fun e => effectiveBatchId e = batch.id) = [] ∨
        newer.filter (fun e => effectiveBatchId e = batch.id) = [] := by
      apply or_iff_not_imp_left.2
      intro hne
      obtain ⟨a, ha⟩ := exists_mem_of_ne_nil _ hne
      obtain ⟨ha, haid⟩ := mem_filter.1 ha
      apply filter_eq_nil_iff.2
      intro b hb hbid
      exact hbatches a ha b hb ((of_decide_eq_true haid).trans (of_decide_eq_true hbid).symm)
    have hempty : ∀ {entries : List OpEntry},
        entries.filter (fun e => effectiveBatchId e = batch.id) = [] → ¬IsBatch entries batch := by
      intro entries hnil hbatch
      apply hbatch.nonempty
      rw [hbatch.entries_eq, hnil]
      rfl
    rcases hapart with hnil | hnil
    · have hiff : IsBatch (older ++ newer) batch ↔ IsBatch newer batch := by
        rw [isBatch_iff, isBatch_iff, hsplit, hnil, nil_append]
      rw [hiff]
      exact or_iff_left (hempty hnil)
    · have hiff : IsBatch (older ++ newer) batch ↔ IsBatch older batch := by
        rw [isBatch_iff, isBatch_iff, hsplit, hnil, append_nil]
      rw [hiff]
      exact or_iff_right (hempty hnil)

/-- The entries of one container are older than those of the next, and no batch is in both. -/
def OlderThan (older newer : List OpEntry) : Prop :=
  (∀ a ∈ older, ∀ b ∈ newer, a.id < b.id) ∧
    ∀ a ∈ older, ∀ b ∈ newer, effectiveBatchId a ≠ effectiveBatchId b

theorem newest_first (sinceHeadId : Nat) {parts : List (List OpEntry)}
    (hsorted : ∀ part ∈ parts, Ascending part)
    (hparts : parts.Pairwise fun newer older => OlderThan older newer) :
    Batches (parts.reverse.flatten.filter fun entry => sinceHeadId < entry.id)
      (parts.flatMap fun part => batchesOf (part.filter fun entry => sinceHeadId < entry.id)) := by
  induction parts with
  | nil =>
    have h := batches_of List.Pairwise.nil
    rw [batchesOf_nil] at h
    exact h
  | cons part parts ih =>
    obtain ⟨hpart, hrest⟩ := forall_mem_cons.1 hsorted
    obtain ⟨holder, hparts⟩ := pairwise_cons.1 hparts
    have hmem : ∀ a ∈ parts.reverse.flatten.filter fun entry => sinceHeadId < entry.id,
        ∃ older ∈ parts, a ∈ older := by
      intro a ha
      obtain ⟨older, holder, ha⟩ := mem_flatten.1 (mem_of_mem_filter ha)
      exact ⟨older, mem_reverse.1 holder, ha⟩
    rw [reverse_cons, flatten_append, flatten_singleton, filter_append,
      flatMap_cons]
    apply batches_append (ih hrest hparts) (batches_of (hpart.filter _))
    · intro a ha b hb
      obtain ⟨older, hmem, ha⟩ := hmem a ha
      exact (holder older hmem).1 a ha b (mem_of_mem_filter hb)
    · intro a ha b hb
      obtain ⟨older, hmem, ha⟩ := hmem a ha
      exact (holder older hmem).2 a ha b (mem_of_mem_filter hb)

theorem collectSegments_scan (h : List.Forall₂ (Written codec) segments parts)
    (hout : out.length ≤ count) :
    collectSegments codec sinceHeadId predicate scope count out segments =
      .ok (out ++ ((parts.flatMap fun part => batchesOf (part.filter fun entry =>
        sinceHeadId < entry.id)).filter (wanted predicate scope)).take (count - out.length)) := by
  induction h generalizing out with
  | nil =>
    rw [flatMap_nil, filter_nil, take_nil, append_nil]
    rfl
  | @cons segment part segments parts hwritten hrest ih =>
    unfold collectSegments
    rw [flatMap_cons, filter_append]
    by_cases hskip : out.length = count ∨ segment.header.headId ≤ sinceHeadId
    · rw [if_pos hskip, ih hout]
      rcases hskip with hfull | hold
      · rw [hfull, Nat.sub_self, take_zero, take_zero]
      · have hnone : part.filter (fun entry => sinceHeadId < entry.id) = [] := by
          apply filter_eq_nil_iff.2
          intro entry hentry hnew
          have hle := hwritten.le_headId entry hentry
          have hlt := of_decide_eq_true hnew
          omega
        rw [hnone, batchesOf_nil, filter_nil, nil_append]
    · rw [if_neg hskip, hwritten.collect]
      have hlength : (scanBatches part sinceHeadId predicate scope (count - out.length)).length ≤
          count - out.length := length_take_le _ _
      have hout' : (out ++ scanBatches part sinceHeadId predicate scope
          (count - out.length)).length ≤ count := by
        rw [length_append]
        omega
      change collectSegments codec sinceHeadId predicate scope count (out ++ scanBatches part
        sinceHeadId predicate scope (count - out.length)) segments = _
      rw [ih hout', append_assoc, take_append, length_append]
      unfold scanBatches
      rw [length_take]
      have hleft : ∀ found : Nat, count - (out.length + min (count - out.length) found) =
          count - out.length - found := by omega
      rw [hleft]
      rfl

/-- Batches by the index: over a log whose batches each lie in one container, the walk over the
directories returns the batches of the new entries that a scan finds. -/
theorem collectBatchesAfterScoped_scan (codec : PayloadCodec) (log : SegmentedOpLogIndex)
    (parts : List (List OpEntry))
    (hwritten : List.Forall₂ (Written codec) (log.base :: log.segments) parts)
    (hsorted : Ascending parts.flatten)
    (hbatches : parts.Pairwise fun older newer => ∀ a ∈ older, ∀ b ∈ newer,
      effectiveBatchId a ≠ effectiveBatchId b)
    (sinceHeadId : Nat) (predicate : OpBatch → Bool) (scope : Option String) (count : Nat) :
    log.collectBatchesAfterScoped codec sinceHeadId predicate scope count =
      .ok (scanBatches parts.flatten sinceHeadId predicate scope count) := by
  obtain ⟨hparts, hids⟩ := List.pairwise_flatten.1 hsorted
  have hnewest := @newest_first sinceHeadId parts.reverse
    (fun part hpart => hparts part (List.mem_reverse.1 hpart))
    (List.pairwise_reverse.2 (hids.and hbatches))
  rw [List.reverse_reverse] at hnewest
  have hscan := (batches_of (hsorted.filter _)).unique hnewest
  have hwalk : collectSegments codec sinceHeadId predicate scope count []
      (log.base :: log.segments).reverse = _ :=
    collectSegments_scan (List.rel_reverse hwritten) (Nat.zero_le _)
  unfold SegmentedOpLogIndex.collectBatchesAfterScoped scanBatches
  rw [hscan, ← List.reverse_cons, hwalk]
  rfl

def abortContainer (entries : List OpEntry) (headId : Fin 100) :
    Except HeddleError PackedOpLogIndex := do
  let bytes ← encodeCurrentContainer recordCodec ⟨entries, headId, lt_word headId⟩
  PackedOpLogIndex.open recordCodec bytes

theorem open_file (h : PackedOpLogIndex.open codec bytes = .ok index) : index.file = bytes := by
  unfold PackedOpLogIndex.open at h
  simp only [bind_eq_ok, pure_eq_ok, Except.ok.injEq, Prod.exists] at h
  obtain ⟨_, _, _, _, _, _, _, rfl⟩ := h
  rfl

theorem written_of_decodes (h : abortContainer entries headId = .ok index)
    (hsorted : Ascending entries) (hrecords : ∀ entry ∈ entries, entry.operation = abortRecord)
    (hlength : index.file.length < 2 ^ 63)
    (hdecode : decodeCurrentContainer recordCodec index.file = .ok (entries, headId.val)) :
    Written recordCodec index entries := by
  obtain ⟨bytes, hencode, hopen⟩ := bind_eq_ok.1 h
  obtain rfl := open_file hopen
  have hlossless : ∀ entry ∈ entries, recordCodec.Lossless entry.operation := by
    intro entry hmem
    rw [hrecords entry hmem]
    exact abortRecord_lossless
  exact ⟨hsorted, hlossless, ⟨_, _, hencode⟩, hlength, ⟨_, hdecode⟩, hopen⟩

def legacyEntry : OpEntry :=
  { abortEntry 7 (some "main") with batchId := 0, batchId_lt := by decide }

theorem ok_get {e : Except ε α} (h : e.toOption.isSome) : e = .ok (e.toOption.get h) := by
  cases e with
  | ok a => rfl
  | error err => cases h

@[irreducible] def olderContainer : PackedOpLogIndex :=
  (abortContainer [abortEntry 1 none, abortEntry 2 (some "main")] 2).toOption.get
    (by decide +kernel)

@[irreducible] def newerContainer : PackedOpLogIndex :=
  (abortContainer [legacyEntry] 7).toOption.get (by decide +kernel)

theorem olderContainer_written :
    Written recordCodec olderContainer [abortEntry 1 none, abortEntry 2 (some "main")] := by
  have hopen : abortContainer [abortEntry 1 none, abortEntry 2 (some "main")] 2 =
      .ok olderContainer := by
    unfold olderContainer
    exact ok_get _
  exact written_of_decodes hopen (by decide +kernel) (by decide +kernel) (by decide +kernel)
    (by decide +kernel)

theorem newerContainer_written : Written recordCodec newerContainer [legacyEntry] := by
  have hopen : abortContainer [legacyEntry] 7 = .ok newerContainer := by
    unfold newerContainer
    exact ok_get _
  exact written_of_decodes hopen (by decide +kernel) (by decide +kernel) (by decide +kernel)
    (by decide +kernel)

/-- A batch that is new in part, behind one without a batch id. -/
theorem collectBatchesAfterScoped_scan_two :
    SegmentedOpLogIndex.collectBatchesAfterScoped recordCodec 1 (fun _ => true) (some "main")
        ⟨olderContainer, [newerContainer]⟩ 3 =
      .ok [⟨7, [legacyEntry]⟩, ⟨1, [abortEntry 2 (some "main")]⟩] := by
  have h := collectBatchesAfterScoped_scan recordCodec ⟨olderContainer, [newerContainer]⟩
    [[abortEntry 1 none, abortEntry 2 (some "main")], [legacyEntry]]
    (.cons olderContainer_written (.cons newerContainer_written .nil))
    (by decide +kernel) (by decide +kernel) 1 (fun _ => true) (some "main") 3
  have hscan : scanBatches [abortEntry 1 none, abortEntry 2 (some "main"), legacyEntry] 1
      (fun _ => true) (some "main") 3 =
        [⟨7, [legacyEntry]⟩, ⟨1, [abortEntry 2 (some "main")]⟩] := by
    decide +kernel
  rw [← hscan]
  exact h

end Heddle.Oplog
