import Heddle.Oplog.ContainerLayout
import Mathlib.Algebra.Order.BigOperators.Group.List

namespace Heddle.Oplog
open Heddle Heddle.Lib
open List hiding after not_le

def batchOf (batchId : Nat) (entries : List (OpEntry × Nat)) : List (OpEntry × Nat) :=
  entries.filter fun e => effectiveBatchId e.1 = batchId

theorem mem_batchGroups :
    group ∈ batchGroups entries ↔
      batchOf group.batchId entries ≠ [] ∧
        group = batchGroup group.batchId (batchOf group.batchId entries) := by
  unfold batchGroups
  rw [mem_sortBy, mem_map]
  apply Iff.intro
  · intro h
    obtain ⟨⟨batchId, members⟩, hmem, rfl⟩ := h
    obtain ⟨rfl, hne⟩ := mem_groupBy.1 hmem
    exact ⟨hne, rfl⟩
  · intro h
    exact ⟨(group.batchId, batchOf group.batchId entries), mem_groupBy.2 ⟨rfl, h.1⟩, h.2.symm⟩

theorem batchGroup_perm (batchId : Nat) (entries : List (OpEntry × Nat)) :
    (batchGroup batchId entries).entries.Perm entries :=
  perm_insertionSort BatchOrder entries

theorem batchGroup_newest {batchId : Nat} {entries : List (OpEntry × Nat)} (hne : entries ≠ []) :
    ∃ e ∈ entries, e.1.id = (batchGroup batchId entries).newestEntryId := by
  have hperm := batchGroup_perm batchId entries
  cases hmax : ((entries.insertionSort BatchOrder).map fun e => e.1.id).max? with
  | none =>
    have hnil := max?_eq_none_iff.1 hmax
    have hempty := map_eq_nil_iff.1 hnil
    have hlen := congrArg length hempty
    rw [length_insertionSort] at hlen
    exact absurd (length_eq_zero_iff.1 hlen) hne
  | some newest =>
    have hmem := max?_mem hmax
    obtain ⟨e, he, hid⟩ := mem_map.1 hmem
    refine ⟨e, hperm.mem_iff.1 he, ?_⟩
    unfold batchGroup
    simp only [hmax, Option.getD_some]
    exact hid

def Ascending (entries : List OpEntry) : Prop := entries.Pairwise fun a b => a.id < b.id

section
variable {entries : List (OpEntry × Nat)} (h : Ascending (entries.map Prod.fst))
include h

theorem id_injective :
    ∀ a ∈ entries, ∀ b ∈ entries, a.1.id = b.1.id → a = b := by
  have hnodup : (entries.map fun e => e.1.id).Nodup := by
    apply pairwise_map.2
    apply (pairwise_map.1 h).imp
    intro a b hlt
    exact Nat.ne_of_lt hlt
  intro a ha b hb heq
  exact inj_on_of_nodup_map hnodup ha hb heq

theorem batchGroups_descending :
    (batchGroups entries).Pairwise fun a b => b.newestEntryId < a.newestEntryId := by
  have hgroups : (groupBy (fun e : OpEntry × Nat => effectiveBatchId e.1) entries).Nodup := by
    apply (groupBy_sorted entries).imp
    intro a b hlt heq
    exact absurd (congrArg Prod.fst heq) (ne_of_lt hlt)
  have hnodup : (((groupBy (fun e : OpEntry × Nat => effectiveBatchId e.1) entries).map fun g =>
      batchGroup g.1 g.2).map fun group => OrderDual.toDual group.newestEntryId).Nodup := by
    rw [map_map]
    apply List.Nodup.map_on _ hgroups
    intro g hg g' hg' heq
    obtain ⟨hfilter, hne⟩ := mem_groupBy.1 hg
    obtain ⟨hfilter', hne'⟩ := mem_groupBy.1 hg'
    obtain ⟨e, he, hid⟩ := @batchGroup_newest g.1 g.2 hne
    obtain ⟨e', he', hid'⟩ := @batchGroup_newest g'.1 g'.2 hne'
    have hnewest : (batchGroup g.1 g.2).newestEntryId = (batchGroup g'.1 g'.2).newestEntryId := heq
    rw [hfilter, mem_filter, decide_eq_true_eq] at he
    rw [hfilter', mem_filter, decide_eq_true_eq] at he'
    have hsame : e = e' :=
      id_injective h e he.1 e' he'.1 (by rw [hid, hid', hnewest])
    have hkey : g.1 = g'.1 := by rw [← he.2, ← he'.2, hsame]
    exact Prod.ext hkey (by rw [hfilter, hfilter', hkey])
  exact sortBy_sorted hnodup

end

def totalLength (groups : List BatchGroup) : Nat := (groups.map fun group => group.entries.length).sum

theorem totalLength_cons (group : BatchGroup) (groups : List BatchGroup) :
    totalLength (group :: groups) = group.entries.length + totalLength groups := by
  unfold totalLength
  rw [map_cons, sum_cons]

theorem mem_batchDirFrom (h : record ∈ batchDirFrom first groups) :
    ∃ group ∈ groups, record.batchId = group.batchId ∧
      record.newestEntryId = group.newestEntryId ∧
      record.entryCount = group.entries.length % 256 ^ 4 ∧
      record.scopeState = scopeState (group.entries.map fun e => e.1.scope) ∧
      record.firstOffsetIndex ≤ first + totalLength groups := by
  induction groups generalizing first with
  | nil => cases h
  | cons group groups ih =>
    rw [totalLength_cons]
    rcases mem_cons.1 h with rfl | h
    · exact ⟨group, .head _, rfl, rfl, rfl, rfl, Nat.le_add_right _ _⟩
    · obtain ⟨g, hg, hid, hnewest, hcount, hscope, hfirst⟩ := ih h
      exact ⟨g, .tail _ hg, hid, hnewest, hcount, hscope, by omega⟩

/-- Checking the directory of batches that are listed newest first adds up the counts that were
written. -/
theorem checkBatchDir_batchDirFrom {prev : Option Nat}
    (hprev : ∀ id ∈ prev, ∀ group ∈ groups, group.newestEntryId < id)
    (hsorted : groups.Pairwise fun a b => b.newestEntryId < a.newestEntryId)
    (hroom : first + totalLength groups ≤ footer.batchOffsetsCount) :
    checkBatchDir footer prev total (batchDirFrom first groups) =
      .ok (total + (groups.map fun group => group.entries.length % 256 ^ 4).sum) := by
  induction groups generalizing prev first total with
  | nil => rfl
  | cons group groups ih =>
    obtain ⟨hnewest, hrest⟩ := pairwise_cons.1 hsorted
    rw [totalLength_cons] at hroom
    have hcut : group.entries.length % 256 ^ 4 ≤ group.entries.length := Nat.mod_le _ _
    unfold batchDirFrom checkBatchDir
    refine bind_eq_ok.2 ⟨(), refuse_eq_ok.2 ?_, ?_⟩
    · intro hbad
      obtain ⟨id, hid, hle⟩ := hbad
      have hlt := hprev id hid group (.head _)
      exact absurd hle (Nat.not_le.2 hlt)
    refine bind_eq_ok.2 ⟨(), refuse_eq_ok.2 (by simp only; omega), ?_⟩
    have hnext : ∀ id ∈ some group.newestEntryId, ∀ g ∈ groups, g.newestEntryId < id := by
      intro id hid g hg
      cases hid
      exact hnewest g hg
    rw [ih hnext hrest (by omega), map_cons, sum_cons, Nat.add_assoc]

theorem sum_mod_eq {lengths : List Nat} {m : Nat} (hm : 0 < m) :
    (lengths.map (· % m)).sum = lengths.sum ↔ ∀ n ∈ lengths, n < m := by
  induction lengths with
  | nil => exact ⟨fun _ _ hn => absurd hn not_mem_nil, fun _ => rfl⟩
  | cons n lengths ih =>
    have hle : (lengths.map (· % m)).sum ≤ (lengths.map id).sum :=
      sum_le_sum fun n _ => Nat.mod_le n m
    rw [map_id] at hle
    have hcut : n % m ≤ n := Nat.mod_le n m
    rw [map_cons, sum_cons, sum_cons, forall_mem_cons, ← ih]
    apply Iff.intro
    · intro h
      have hn : n % m = n := by omega
      exact ⟨hn ▸ Nat.mod_lt n hm, by omega⟩
    · intro h
      rw [Nat.mod_eq_of_lt h.1, h.2]

/-! The entries with their offsets -/

section Stored
variable {codec : PayloadCodec} {entries : List OpEntry} {offsets : List EntryOffsetRecord}
  {stream : Bytes}

def offsetsOf (entries : List OpEntry) (offsets : List EntryOffsetRecord) : List (OpEntry × Nat) :=
  (entries.zip offsets).map fun e => (e.1, e.2.entryOffset)

section
variable (h : encodeEntries codec headerLen entries = .ok (offsets, stream))
include h

theorem buildIndexSections_entryOffsets :
    (buildIndexSections (entries.zip offsets)).entryOffsets = offsets :=
  map_snd_zip (Nat.le_of_eq (encodeEntries_length h))

theorem map_fst_zip_offsets :
    (entries.zip offsets).map Prod.fst = entries :=
  map_fst_zip (Nat.le_of_eq (encodeEntries_length h).symm)

theorem map_fst_offsetsOf :
    (offsetsOf entries offsets).map Prod.fst = entries := by
  unfold offsetsOf
  rw [map_map]
  exact map_fst_zip_offsets h

theorem storedAt_of_mem_zip
    (hmem : (entry, record) ∈ entries.zip offsets) : StoredAt codec headerLen stream entry record :=
  (forall₂_iff_zip.1 (encodeEntries_storedAt h)).2 hmem

theorem offset_lt_of_mem (hmem : e ∈ offsetsOf entries offsets) :
    headerLen ≤ e.2 ∧ e.2 < headerLen + stream.length := by
  obtain ⟨⟨entry, record⟩, hzip, rfl⟩ := mem_map.1 hmem
  exact (storedAt_of_mem_zip h hzip).offset_lt

end

theorem checkEntryOffsets_ok (hsorted : SortedBy EntryOffsetRecord.entryId offsets)
    (hlast : ∀ id ∈ lastId, ∀ record ∈ offsets, id < record.entryId) (hrange : ∀ record ∈ offsets,
      headerLen ≤ record.entryOffset ∧ record.entryOffset < footer.entryDataEnd) :
    checkEntryOffsets header footer lastId offsets = .ok () := by
  induction offsets generalizing lastId with
  | nil => rfl
  | cons record offsets ih =>
    obtain ⟨hfirst, hrest⟩ := sortedBy_cons.1 hsorted
    have hin := hrange record (.head _)
    unfold checkEntryOffsets
    refine bind_eq_ok.2 ⟨(), refuse_eq_ok.2 (by omega), ?_⟩
    refine bind_eq_ok.2 ⟨(), refuse_eq_ok.2 ?_, ?_⟩
    · intro hbad
      obtain ⟨id, hid, hle⟩ := hbad
      have hlt := hlast id hid record (.head _)
      exact absurd hle (Nat.not_le.2 hlt)
    · apply ih hrest
      · intro id hid next hnext
        cases hid
        exact hfirst next hnext
      · intro next hnext
        exact hrange next (.tail _ hnext)

theorem offsets_sorted (h : encodeEntries codec headerLen entries = .ok (offsets, stream))
    (hsorted : Ascending entries) : SortedBy EntryOffsetRecord.entryId offsets := by
  have hids : (entries.map OpEntry.id).Pairwise (· < ·) := pairwise_map.2 hsorted
  rw [← encodeEntries_ids h] at hids
  exact pairwise_map.1 hids

theorem mem_batchGroups_entries {entries : List (OpEntry × Nat)} (h : group ∈ batchGroups entries)
    (hmem : e ∈ group.entries) : e ∈ entries := by
  obtain ⟨_, hgroup⟩ := mem_batchGroups.1 h
  rw [hgroup, (batchGroup_perm _ _).mem_iff] at hmem
  exact mem_of_mem_filter hmem

end Stored

theorem byteKey_injective : Function.Injective byteKey :=
  map_injective_iff.2 fun _ _ h => UInt8.toNat_inj.1 h

theorem mem_txFirst (h : commit ∈ txFirst entries) :
    commit.2 ∈ entries ∧ commitId? commit.2 = some commit.1 := by
  obtain ⟨⟨key, found⟩, hfound, rfl⟩ := mem_map.1 h
  obtain ⟨entry, hentry, hcommit⟩ := mem_filterMap.1 (of_mem_firstBy hfound).1
  obtain ⟨id, hid, rfl⟩ := Option.map_eq_some_iff.1 hcommit
  exact ⟨hentry, hid⟩

theorem txFirst_complete (hmem : entry ∈ entries) (hid : commitId? entry = some transactionId) :
    ∃ commit ∈ txFirst entries, commit.1 = transactionId := by
  have hcommit : (transactionId, entry) ∈
      entries.filterMap fun e => (commitId? e).map fun id => (id, e) :=
    mem_filterMap.2 ⟨entry, hmem, by rw [hid]; rfl⟩
  obtain ⟨commit, hfound⟩ := @exists_mem_firstBy _ _ _ (fun c => byteKey (utf8 c.1)) _ _ hcommit
  have hkey := (of_mem_firstBy hfound).2
  exact ⟨commit, mem_map.2 ⟨_, hfound, rfl⟩, utf8_injective (byteKey_injective hkey)⟩

def commitKey (commit : String × OpEntry) : List Nat := byteKey (utf8 commit.1)

theorem txFirst_sorted (entries : List OpEntry) : SortedBy commitKey (txFirst entries) := by
  apply pairwise_map.2
  apply List.Pairwise.imp_of_mem _ (firstBy_sorted _)
  intro a b ha hb hlt
  have hkey : ∀ p ∈ firstBy (fun commit : String × OpEntry => byteKey (utf8 commit.1))
      (entries.filterMap fun e => (commitId? e).map fun id => (id, e)), p.1 = commitKey p.2 := by
    intro p hp
    exact (of_mem_firstBy hp).2.symm
  rw [hkey a ha, hkey b hb] at hlt
  exact hlt

def keyBytesOf (commits : List (String × OpEntry)) : Bytes :=
  commits.flatMap fun commit => utf8 commit.1

theorem mem_txDirFrom (h : record ∈ txDirFrom offset commits) :
    ∃ commit ∈ commits, record.keyLen = (utf8 commit.1).length % 256 ^ 4 ∧
      record.commitEntryId = commit.2.id ∧ record.batchId = effectiveBatchId commit.2 ∧
      record.keyOffset ≤ offset + (keyBytesOf commits).length := by
  induction commits generalizing offset with
  | nil => cases h
  | cons commit commits ih =>
    have hlen : (keyBytesOf (commit :: commits)).length =
        (utf8 commit.1).length + (keyBytesOf commits).length := by
      unfold keyBytesOf
      rw [flatMap_cons, length_append]
    rcases mem_cons.1 h with rfl | h
    · exact ⟨commit, .head _, rfl, rfl, rfl, Nat.le_add_right _ _⟩
    · obtain ⟨c, hc, hkeyLen, hid, hbatch, hoffset⟩ := ih h
      exact ⟨c, .tail _ hc, hkeyLen, hid, hbatch, by omega⟩

section TxDir
variable {codec : PayloadCodec} {entries : List OpEntry} {offsets : List EntryOffsetRecord}
  {stream : Bytes} {footer : PackedFooter} {front back : Bytes}

/-- Looking a commit marker up by its id and reading it back gives the transaction. -/
theorem checkCommit_ok_iff
    (hentries : encodeEntries codec headerLen entries = .ok (offsets, stream))
    (hsorted : Ascending entries) (hr : ∀ entry ∈ entries, entry.Readable codec)
    (hfront : front.length = headerLen) (hend : footer.entryDataEnd = headerLen + stream.length)
    {commit : String × OpEntry} (hmem : commit.2 ∈ entries)
    (hcommit : commitId? commit.2 = some commit.1) (hid : record.commitEntryId = commit.2.id) :
    checkCommit codec (front ++ (stream ++ back)) footer offsets key record = .ok () ↔
      utf8 commit.1 = key := by
  have hfst := map_fst_zip_offsets hentries
  rw [← hfst] at hmem
  obtain ⟨⟨entry, found⟩, hzip, hentry⟩ := mem_map.1 hmem
  simp only at hentry
  subst hentry
  have hstored := storedAt_of_mem_zip hentries hzip
  have hlookup : (offsets.find? fun offset => offset.entryId = record.commitEntryId) = some found :=
    (lookupBy_eq_some (offsets_sorted hentries hsorted)).2
      ⟨(of_mem_zip hzip).2, hstored.id.trans hid.symm⟩
  have hrange := hstored.offset_lt
  have hreadable := hr commit.2 (of_mem_zip hzip).1
  obtain ⟨_, before, bytes, after, rfl, hoffset, hbytes⟩ := hstored
  have htake : (front ++ (before ++ (bytes ++ after) ++ back)).take footer.entryDataEnd =
      front ++ (before ++ (bytes ++ after)) := by
    rw [← append_assoc]
    apply take_left'
    rw [hend, length_append, hfront]
  have hdrop : (front ++ (before ++ (bytes ++ after))).drop found.entryOffset = bytes ++ after := by
    rw [hoffset, ← hfront, ← drop_drop, drop_left, drop_left]
  have hread : readEntry codec cursorEof (bytes ++ after) = .ok (commit.2, after) :=
    readEntry_reads cursorEof hbytes hreadable after
  unfold checkCommit
  simp only [bind_eq_ok, refuse_eq_ok, orElseErr_eq_ok, hlookup, Option.some.injEq,
    exists_eq_left', htake, hdrop, parseCurrentEntry, hread, Except.ok.injEq, hcommit, not_not]
  apply Iff.intro
  · intro h
    obtain ⟨_, _, hkey⟩ := h
    exact hkey
  · intro h
    exact ⟨(), by omega, h⟩

theorem txRecordKey_ok (hbytes : keyBytes = before ++ (key ++ after))
    (hoffset : record.keyOffset = before.length) (hlen : record.keyLen = key.length % 256 ^ 4) :
    txRecordKey keyBytes record = .ok (key.take (key.length % 256 ^ 4)) := by
  have hcut : key.length % 256 ^ 4 ≤ key.length := Nat.mod_le _ _
  unfold txRecordKey
  rw [hbytes, hoffset, hlen, drop_left, take_append_of_le_length hcut]
  refine bind_eq_ok.2 ⟨(), refuse_eq_ok.2 ?_, rfl⟩
  simp only [length_append]
  omega

theorem take_mod_eq_self {bytes : Bytes} (hm : 0 < m) :
    bytes = bytes.take (bytes.length % m) ↔ bytes.length < m := by
  apply Iff.intro
  · intro h
    have hlen := congrArg length h
    rw [length_take] at hlen
    have hlt := Nat.mod_lt bytes.length hm
    omega
  · intro h
    rw [Nat.mod_eq_of_lt h, take_length]

theorem checkTxDir_ok_iff
    (hentries : encodeEntries codec headerLen entries = .ok (offsets, stream))
    (hsorted : Ascending entries) (hr : ∀ entry ∈ entries, entry.Readable codec)
    (hfront : front.length = headerLen) (hend : footer.entryDataEnd = headerLen + stream.length)
    (hcommits : ∀ commit ∈ commits, commit.2 ∈ entries ∧ commitId? commit.2 = some commit.1)
    (hkeys : SortedBy commitKey commits)
    (hprev : ∀ key ∈ prevKey, ∀ commit ∈ commits, byteKey key < commitKey commit)
    (hbytes : keyBytes = before ++ keyBytesOf commits) :
    checkTxDir codec (front ++ (stream ++ back)) footer offsets keyBytes prevKey
        (txDirFrom before.length commits) = .ok () ↔
      ∀ commit ∈ commits, (utf8 commit.1).length < 256 ^ 4 := by
  induction commits generalizing before prevKey with
  | nil => exact ⟨fun _ _ hmem => absurd hmem not_mem_nil, fun _ => rfl⟩
  | cons commit commits ih =>
    obtain ⟨hfirst, hrest⟩ := sortedBy_cons.1 hkeys
    obtain ⟨hmem, hcommit⟩ := hcommits commit (.head _)
    have hsplit : keyBytes = before ++ (utf8 commit.1 ++ keyBytesOf commits) := hbytes
    have hkey : txRecordKey keyBytes ⟨before.length, (utf8 commit.1).length % 256 ^ 4, commit.2.id,
        effectiveBatchId commit.2⟩ =
        .ok ((utf8 commit.1).take ((utf8 commit.1).length % 256 ^ 4)) :=
      txRecordKey_ok hsplit rfl rfl
    have hcheck : ∀ key, checkCommit codec (front ++ (stream ++ back)) footer offsets key
        ⟨before.length, (utf8 commit.1).length % 256 ^ 4, commit.2.id, effectiveBatchId commit.2⟩ =
        .ok () ↔ utf8 commit.1 = key :=
      fun _ => checkCommit_ok_iff hentries hsorted hr hfront hend hmem hcommit rfl
    have hnext : ∀ key ∈ some (utf8 commit.1), ∀ c ∈ commits, byteKey key < commitKey c := by
      intro key hk c hc
      cases hk
      exact hfirst c hc
    have hjoin : keyBytes = (before ++ utf8 commit.1) ++ keyBytesOf commits := by
      rw [hsplit, append_assoc]
    have htail := ih (fun c hc => hcommits c (.tail _ hc)) hrest hnext hjoin
    rw [length_append] at htail
    unfold txDirFrom checkTxDir
    simp only [bind_eq_ok, hkey, Except.ok.injEq, exists_eq_left', refuse_eq_ok, hcheck,
      take_mod_eq_self (show 0 < 256 ^ 4 by decide), forall_mem_cons]
    apply Iff.intro
    · intro h
      obtain ⟨_, _, _, hlen, htx⟩ := h
      rw [← (take_mod_eq_self (by decide)).2 hlen] at htx
      exact ⟨hlen, htail.1 htx⟩
    · intro h
      have hwhole := (take_mod_eq_self (by decide)).2 h.1
      refine ⟨(), ?_, (), h.1, ?_⟩
      · rw [← hwhole]
        intro hbad
        obtain ⟨prev, hprevMem, hle⟩ := hbad
        exact absurd hle (not_le.2 (hprev prev hprevMem commit (.head _)))
      · rw [← hwhole]
        exact htail.2 h.2

end TxDir

end Heddle.Oplog
