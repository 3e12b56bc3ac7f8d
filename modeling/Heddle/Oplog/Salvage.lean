import Heddle.Oplog.ContainerLossless
import Mathlib.Data.List.Infix

namespace Heddle.Oplog
open Heddle Heddle.Lib List

/-! What is salvaged from a container that was cut off -/

inductive RecoveryStrategy where
  | footerGuided
  | forwardGreedy
  deriving DecidableEq

structure TruncatedTailRecovery where
  data : OplogData
  originalEntryCount : Option Nat
  damagedByteStart : Nat
  damagedByteEnd : Nat
  strategy : RecoveryStrategy

def truncationTexts : List String :=
  ["oplog truncated", "oplog missing index footer", "invalid oplog index magic",
    "oplog index footer length mismatch", "oplog entry/index boundary disagreement",
    "oplog entry section points outside file", "oplog footer length disagrees with file length",
    "section points outside file", "oplog entry-offset", "oplog batch offset",
    "oplog batch directory", "oplog transaction directory"]

def isTruncationShapedError : HeddleError → Bool
  | .invalidObject message => truncationTexts.any fun text => text.toList <:+: message.toList
  | _ => false

def recoveredData (entries : List OpEntry) : OplogData where
  entries
  headId := (entries.getLast?.map OpEntry.id).getD 0
  headId_lt := by
    cases entries.getLast? with
    | none => decide
    | some entry => exact entry.id_lt

def parseFooterAt (bytes : Bytes) (footerStart : Nat) : Except HeddleError PackedFooter := do
  refuse (bytes.length < footerStart + footerLen) (.invalidObject "oplog footer past end of file")
  let (footer, _) ← readFooter ((bytes.drop footerStart).take footerLen)
  return footer

def tryFooterGuidedAt (codec : PayloadCodec) (bytes : Bytes) (header : PackedHeader)
    (footerStart : Nat) : Option TruncatedTailRecovery :=
  match parseFooterAt bytes footerStart with
  | .error _ => none
  | .ok footer =>
    if footer.entryCount ≠ header.entryCount ∨ footer.headId ≠ header.headId then none
    else if footer.entryDataEnd < headerLen ∨ footerStart < footer.entryDataEnd then none
    else
      match takeMany (parseCurrentEntry codec) header.entryCount
          ((bytes.drop headerLen).take (footer.entryDataEnd - headerLen)) with
      | .error _ => none
      | .ok (entries, left) =>
        if left ≠ [] then none
        else some ⟨recoveredData entries, some header.entryCount, footer.entryDataEnd, bytes.length,
          .footerGuided⟩

def scanCandidates (codec : PayloadCodec) (bytes : Bytes) (header : PackedHeader) :
    Nat → Option TruncatedTailRecovery
  | 0 => footerCandidate headerLen
  | steps + 1 => (footerCandidate (headerLen + (steps + 1))).or (scanCandidates codec bytes header steps)
where
  footerCandidate (candidate : Nat) : Option TruncatedTailRecovery :=
    if (bytes.drop candidate).take indexMagic.length = indexMagic then
      tryFooterGuidedAt codec bytes header candidate
    else none

def scanFooterGuidedRecovery (codec : PayloadCodec) (bytes : Bytes) (header : PackedHeader) :
    Option TruncatedTailRecovery :=
  if bytes.length < headerLen + footerLen then none
  else scanCandidates codec bytes header (bytes.length - footerLen - headerLen)

def scanForward (codec : PayloadCodec) : Nat → Bytes → Except HeddleError (List OpEntry × Bytes)
  | 0, bytes => .ok ([], bytes)
  | count + 1, bytes =>
    match parseCurrentEntry codec bytes with
    | .ok (entry, rest) => do
      let (entries, left) ← scanForward codec count rest
      return (entry :: entries, left)
    | .error err => if isTruncationShapedError err then .ok ([], bytes) else .error err

def planTruncatedLatestRecovery (codec : PayloadCodec) (bytes : Bytes) (sourceError : HeddleError) :
    Except HeddleError (Option TruncatedTailRecovery) :=
  if ¬isTruncationShapedError sourceError then .ok none
  else
    match parseHeader bytes with
    | .error err =>
      if ¬isTruncationShapedError err ∨ headerLen < bytes.length ∨
          ¬(bytes <+: magic ∨ magic <+: bytes) then .ok none
      else .ok (some ⟨recoveredData [], none, 0, bytes.length, .forwardGreedy⟩)
    | .ok (header, rest) =>
      match scanFooterGuidedRecovery codec bytes header with
      | some recovery => .ok (some recovery)
      | none => do
        let (entries, left) ← scanForward codec header.entryCount rest
        return some ⟨recoveredData entries, some header.entryCount, bytes.length - left.length,
          bytes.length, .forwardGreedy⟩

def survivors (codec : PayloadCodec) : Bytes → List OpEntry → List OpEntry
  | _, [] => []
  | rest, entry :: entries =>
    match encodeEntry codec entry with
    | .ok bytes =>
      if bytes <+: rest then entry :: survivors codec (rest.drop bytes.length) entries else []
    | .error _ => []

theorem cursorEof_shaped : isTruncationShapedError cursorEof = true := by decide +kernel

theorem prefix_append_cases (h : rest <+: front ++ back ∨ front ++ back <+: rest) :
    (¬front <+: rest ∧ rest <+: front ∧ rest ≠ front) ∨
      ∃ rest', rest = front ++ rest' ∧ (rest' <+: back ∨ back <+: rest') := by
  by_cases hfront : front <+: rest
  · obtain ⟨rest', rfl⟩ := hfront
    rw [prefix_append_right_inj, prefix_append_right_inj] at h
    exact .inr ⟨rest', rfl, h⟩
  · left
    rcases h with h | h
    · have hle := prefix_or_prefix_of_prefix h (prefix_append front back)
      exact ⟨hfront, hle.resolve_right hfront, fun heq => hfront (heq ▸ prefix_rfl)⟩
    · exact absurd ((prefix_append front back).trans h) hfront

section Entries
variable {codec : PayloadCodec} {entries : List OpEntry} {offsets : List EntryOffsetRecord}
  {stream : Bytes}

theorem survivors_front (rest : Bytes) (entries : List OpEntry) :
    survivors codec rest entries <+: entries := by
  induction entries generalizing rest with
  | nil => exact nil_prefix
  | cons entry entries ih =>
    rw [survivors]
    cases encodeEntry codec entry with
    | error err => exact nil_prefix
    | ok bytes =>
      by_cases hbytes : bytes <+: rest
      · simp only [if_pos hbytes]
        exact cons_prefix_cons.2 ⟨rfl, ih _⟩
      · simp only [if_neg hbytes]
        exact nil_prefix

theorem survivors_cons (h : encodeEntry codec entry = .ok bytes) (rest : Bytes) :
    survivors codec (bytes ++ rest) (entry :: entries) = entry :: survivors codec rest entries := by
  rw [survivors, h]
  simp only [prefix_append, if_true, drop_left]

theorem survivors_torn (h : encodeEntry codec entry = .ok bytes) (hne : ¬bytes <+: rest) :
    survivors codec rest (entry :: entries) = [] := by
  rw [survivors, h]
  exact if_neg hne

theorem survivors_whole (h : encodeEntries codec offset entries = .ok (offsets, stream))
    (tail : Bytes) : survivors codec (stream ++ tail) entries = entries := by
  induction entries generalizing offset offsets stream with
  | nil => rfl
  | cons entry entries ih =>
    obtain ⟨bytes, offsets', stream', hbytes, hrest, _, rfl⟩ := encodeEntries_cons_ok_iff.1 h
    rw [append_assoc, survivors_cons hbytes, ih hrest]

theorem scanForward_ok (h : encodeEntries codec offset entries = .ok (offsets, stream))
    (hr : ∀ entry ∈ entries, entry.Readable codec) (hrest : rest <+: stream ∨ stream <+: rest) :
    ∃ left, scanForward codec entries.length rest = .ok (survivors codec rest entries, left) := by
  induction entries generalizing offset offsets stream rest with
  | nil => exact ⟨rest, rfl⟩
  | cons entry entries ih =>
    obtain ⟨bytes, offsets', stream', hbytes, hstream, _, rfl⟩ := encodeEntries_cons_ok_iff.1 h
    have hreads := readEntry_reads cursorEof hbytes (hr entry (.head _))
    rw [length_cons, scanForward]
    rcases prefix_append_cases hrest with ⟨hwhole, hfront, hne⟩ | ⟨rest', rfl, hrest'⟩
    · have herr := (readEntry_sequential codec cursorEof).cut hreads hfront hne
      refine ⟨rest, ?_⟩
      simp only [parseCurrentEntry, herr, cursorEof_shaped, survivors_torn hbytes hwhole]
      rfl
    · obtain ⟨left, hleft⟩ := ih hstream (fun e he => hr e (.tail _ he)) hrest'
      refine ⟨left, ?_⟩
      simp only [parseCurrentEntry, hreads rest', survivors_cons hbytes, hleft]
      rfl

theorem survivors_nil (h : encodeEntries codec offset entries = .ok (offsets, stream)) :
    survivors codec [] entries = [] := by
  cases entries with
  | nil => rfl
  | cons entry entries =>
    obtain ⟨bytes, _, _, hbytes, _, _, _⟩ := encodeEntries_cons_ok_iff.1 h
    apply survivors_torn hbytes
    rw [prefix_nil]
    exact ne_nil_of_length_pos (encodeEntry_pos hbytes)

/-- The entries read from the front of bytes that go on as the stream does, or break off: either the
end is met, or all the entries are there. -/
theorem takeMany_front (h : encodeEntries codec offset entries = .ok (offsets, stream))
    (hr : ∀ entry ∈ entries, entry.Readable codec) (hrest : rest <+: stream ∨ stream <+: rest)
    (stop : Nat) :
    takeMany (parseCurrentEntry codec) entries.length (rest.take stop) = .error cursorEof ∨
      ∃ left tail, takeMany (parseCurrentEntry codec) entries.length (rest.take stop) =
        .ok (entries, left) ∧ rest = stream ++ tail := by
  have hreads := encodeEntries_reads cursorEof h hr
  have htake : rest.take stop <+: stream ++ [] ∨ stream ++ [] <+: rest.take stop := by
    rw [append_nil]
    rcases hrest with hrest | hrest
    · exact .inl ((List.take_prefix stop rest).trans hrest)
    · exact prefix_or_prefix_of_prefix (List.take_prefix stop rest) hrest
  rcases prefix_append_cases htake with ⟨_, hfront, hne⟩ | ⟨left, hleft, _⟩
  · left
    exact ((readEntry_sequential codec cursorEof).many entries.length).cut hreads hfront hne
  · right
    obtain ⟨tail, htail⟩ := take_prefix stop rest
    refine ⟨left, left ++ tail, ?_, by rw [← append_assoc, ← hleft, htail]⟩
    rw [hleft]
    exact hreads left

end Entries

section Plan
variable {codec : PayloadCodec} {file : Bytes} {header : PackedHeader}

/-- What a footer that is found on the way guides the recovery to. -/
structure Guided (codec : PayloadCodec) (file : Bytes) (header : PackedHeader)
    (recovery : TruncatedTailRecovery) : Prop where
  framed : ∃ entries stop, takeMany (parseCurrentEntry codec) header.entryCount
    ((file.drop headerLen).take stop) = .ok (entries, []) ∧ recovery.data = recoveredData entries

theorem tryFooterGuidedAt_guided
    (h : tryFooterGuidedAt codec file header footerStart = some recovery) :
    Guided codec file header recovery := by
  unfold tryFooterGuidedAt at h
  split at h
  · cases h
  · rename_i footer _
    split at h
    · cases h
    · split at h
      · cases h
      · split at h
        · cases h
        · rename_i entries left hmany
          by_cases hleft : left = []
          · subst hleft
            cases h
            exact ⟨entries, _, hmany, rfl⟩
          · rw [if_pos hleft] at h
            cases h

theorem scanCandidates_guided (h : scanCandidates codec file header steps = some recovery) :
    Guided codec file header recovery := by
  have hcandidate : ∀ {candidate}, scanCandidates.footerCandidate codec file header candidate =
      some recovery → Guided codec file header recovery := by
    intro candidate hfound
    unfold scanCandidates.footerCandidate at hfound
    split at hfound
    · exact tryFooterGuidedAt_guided hfound
    · cases hfound
  induction steps with
  | zero => exact hcandidate h
  | succ steps ih =>
    rw [scanCandidates, Option.or_eq_some_iff] at h
    rcases h with h | ⟨_, h⟩
    · exact hcandidate h
    · exact ih h

theorem scanFooterGuidedRecovery_guided
    (h : scanFooterGuidedRecovery codec file header = some recovery) :
    Guided codec file header recovery := by
  unfold scanFooterGuidedRecovery at h
  split at h
  · cases h
  · exact scanCandidates_guided h

end Plan

section Rebuilt

theorem batchDirFrom_length (groups : List BatchGroup) (first : Nat) :
    (batchDirFrom first groups).length = groups.length := by
  induction groups generalizing first with
  | nil => rfl
  | cons group groups ih => rw [batchDirFrom, length_cons, ih, length_cons]

theorem txDirFrom_length (commits : List (String × OpEntry)) (offset : Nat) :
    (txDirFrom offset commits).length = commits.length := by
  induction commits generalizing offset with
  | nil => rfl
  | cons commit commits ih => rw [txDirFrom, length_cons, ih, length_cons]

theorem batchGroups_len (entries : List (OpEntry × Nat)) :
    8 * totalLength (batchGroups entries) + 48 * (batchGroups entries).length =
      ((groupBy (fun e => effectiveBatchId e.1) entries).map fun g => 8 * g.2.length + 48).sum := by
  have hperm : (batchGroups entries).Perm
      ((groupBy (fun e => effectiveBatchId e.1) entries).map fun g => batchGroup g.1 g.2) :=
    perm_insertionSort _ _
  unfold totalLength
  rw [(hperm.map _).sum_eq, hperm.length_eq, map_map, length_map]
  induction groupBy (fun e => effectiveBatchId e.1) entries with
  | nil => rfl
  | cons g groups ih =>
    have hlen : (batchGroup g.1 g.2).entries.length = g.2.length := length_insertionSort _ _
    simp only [map_cons, sum_cons, length_cons, Function.comp_apply, hlen] at ih ⊢
    omega

theorem encodedLen_eq (entries : List (OpEntry × EntryOffsetRecord)) :
    (buildIndexSections entries).encodedLen = 16 * entries.length +
      ((groupBy (fun e => effectiveBatchId e.1) (entries.map fun e => (e.1, e.2.entryOffset))).map
        fun g => 8 * g.2.length + 48).sum +
      ((txFirst (entries.map Prod.fst)).map fun commit => (utf8 commit.1).length + 32).sum + 120 := by
  have hbatches := batchOffsets_length entries
  have hkeys : ∀ commits : List (String × OpEntry),
      (commits.flatMap fun commit => utf8 commit.1).length + 32 * commits.length =
        (commits.map fun commit => (utf8 commit.1).length + 32).sum := by
    intro commits
    induction commits with
    | nil => rfl
    | cons commit commits ih =>
      simp only [flatMap_cons, length_append, length_cons, map_cons,
        sum_cons]
      omega
  rw [← batchGroups_len, ← hkeys]
  unfold IndexSections.encodedLen
  rw [hbatches]
  simp only [buildIndexSections, length_map, batchDirFrom_length, txDirFrom_length,
    entryOffsetRecordLen, batchDirRecordLen, txDirRecordLen, footerLen]
  omega

theorem encodedLen_append_le (kept lost : List (OpEntry × EntryOffsetRecord)) :
    (buildIndexSections kept).encodedLen ≤ (buildIndexSections (kept ++ lost)).encodedLen := by
  rw [encodedLen_eq, encodedLen_eq]
  unfold txFirst
  simp only [map_append, filterMap_append, length_append, map_map]
  have hmeasure : ∀ (g : List (OpEntry × Nat)) (e : OpEntry × Nat),
      8 * g.length + 48 ≤ 8 * (g ++ [e]).length + 48 := by
    intro g e
    rw [length_append]
    omega
  have hbatches := @sum_groupBy_le _ _ _ (fun e => effectiveBatchId e.1) _ hmeasure
    (kept.map fun e => (e.1, e.2.entryOffset)) (lost.map fun e => (e.1, e.2.entryOffset))
  have hcommits := @sum_firstBy_le _ _ _ (fun commit : String × OpEntry => byteKey (utf8 commit.1))
    ((fun commit => (utf8 commit.1).length + 32) ∘ Prod.snd)
    ((kept.map Prod.fst).filterMap fun e => (commitId? e).map fun id => (id, e))
    ((lost.map Prod.fst).filterMap fun e => (commitId? e).map fun id => (id, e))
  omega

theorem encodeEntries_append
    (h : encodeEntries codec offset (kept ++ lost) = .ok (offsets, stream)) :
    ∃ offsets₁ stream₁ offsets₂ stream₂, encodeEntries codec offset kept = .ok (offsets₁, stream₁) ∧
      offsets = offsets₁ ++ offsets₂ ∧ stream = stream₁ ++ stream₂ := by
  induction kept generalizing offset offsets stream with
  | nil => exact ⟨[], [], offsets, stream, rfl, rfl, rfl⟩
  | cons entry kept ih =>
    obtain ⟨bytes, offsets', stream', hbytes, hrest, rfl, rfl⟩ := encodeEntries_cons_ok_iff.1 h
    obtain ⟨offsets₁, stream₁, offsets₂, stream₂, hkept, rfl, rfl⟩ := ih hrest
    refine ⟨_ :: offsets₁, bytes ++ stream₁, offsets₂, stream₂, ?_, rfl, by rw [append_assoc]⟩
    exact encodeEntries_cons_ok_iff.2 ⟨bytes, offsets₁, stream₁, hbytes, hkept, rfl, rfl⟩

theorem Storable.kept {data : OplogData} (h : Storable codec data) {kept : List OpEntry}
    (hkept : kept <+: data.entries) : Storable codec (recoveredData kept) where
  headId := rfl
  readable := fun entry hmem => h.readable entry (hkept.mem hmem)
  batches := by
    intro batchId
    exact lt_of_le_of_lt (hkept.sublist.filter _).length_le (h.batches batchId)
  transactions := fun entry hmem => h.transactions entry (hkept.mem hmem)

theorem rebuilt_opens (hsorted : Ascending data.entries) (hmemory : FitsMemory codec data)
    (hstorable : Storable codec data) (hencoded : encodeCurrentContainer codec data = .ok bytes)
    (hkept : kept <+: data.entries) :
    ∃ rebuilt index, encodeCurrentContainer codec (recoveredData kept) = .ok rebuilt ∧
      PackedOpLogIndex.open codec rebuilt = .ok index := by
  obtain ⟨lost, hlost⟩ := hkept
  obtain ⟨offsets, stream, hentries, _, _⟩ := encodeCurrentContainer_ok_iff.1 hencoded
  have hroom := hmemory offsets stream hentries
  rw [← hlost] at hentries
  obtain ⟨offsets₁, stream₁, offsets₂, stream₂, hfirst, rfl, rfl⟩ := encodeEntries_append hentries
  have hle : (buildIndexSections (kept.zip offsets₁)).encodedLen ≤
      (buildIndexSections (data.entries.zip (offsets₁ ++ offsets₂))).encodedLen := by
    rw [← hlost, zip_append (encodeEntries_length hfirst).symm]
    exact encodedLen_append_le _ _
  rw [length_append] at hroom
  have hfits : FitsMemory codec (recoveredData kept) := by
    intro found foundStream hfound
    obtain ⟨rfl, rfl⟩ := Prod.mk.inj (Except.ok.inj (hfirst.symm.trans hfound))
    change _ + _ + (buildIndexSections (kept.zip offsets₁)).encodedLen < _
    omega
  have hindex : (buildIndexSections (kept.zip offsets₁)).encodedLen < 2 ^ 64 := by omega
  have hrebuilt : encodeCurrentContainer codec (recoveredData kept) = .ok _ :=
    encodeCurrentContainer_ok_iff.2 ⟨offsets₁, stream₁, hfirst, hindex, rfl⟩
  have hascending : Ascending kept := hsorted.sublist (List.IsPrefix.sublist ⟨lost, hlost⟩)
  obtain ⟨_, index, hopen, _⟩ := (hstorable.kept ⟨lost, hlost⟩).recovers hascending hfits _ hrebuilt
  exact ⟨_, index, hrebuilt, hopen⟩

end Rebuilt

/-- The end of the file is refused as a footer, if at all, with an error that a torn file has. -/
def RefusedAsTorn (file : Bytes) (header : PackedHeader) : Prop :=
  ∀ err, PackedFooter.parse file header = .error err → isTruncationShapedError err

/-- The plan keeps the entries whose bytes are all there, and the container that is rebuilt from
them opens. -/
def SalvagesSurvivors (codec : PayloadCodec) (data : OplogData) (file : Bytes)
    (plan : Except HeddleError (Option TruncatedTailRecovery)) : Prop :=
  ∃ recovery rebuilt index, plan = .ok (some recovery) ∧
    recovery.data = recoveredData (survivors codec (file.drop headerLen) data.entries) ∧
    encodeCurrentContainer codec recovery.data = .ok rebuilt ∧
    PackedOpLogIndex.open codec rebuilt = .ok index

section Damaged
variable {codec : PayloadCodec} {entries : List OpEntry} {offsets : List EntryOffsetRecord}
  {stream back file : Bytes} {headId : Nat}

theorem headerBytes_magic (entryCount headId : Nat) : magic <+: headerBytes entryCount headId :=
  prefix_append _ _

theorem stream_cases (h : rest <+: stream ++ back ∨ stream ++ back <+: rest) :
    rest <+: stream ∨ stream <+: rest := by
  rcases prefix_append_cases h with ⟨_, hfront, _⟩ | ⟨tail, rfl, _⟩
  · exact .inl hfront
  · exact .inr (prefix_append stream tail)

theorem parse_entryDataEnd (h : PackedFooter.parse file header = .ok footer) :
    headerLen ≤ footer.entryDataEnd := by
  unfold PackedFooter.parse at h
  obtain ⟨_, _, h⟩ := bind_eq_ok.1 h
  obtain ⟨_, _, h⟩ := bind_eq_ok.1 h
  obtain ⟨_, hvalidate, h⟩ := bind_eq_ok.1 h
  cases h
  unfold PackedFooter.validate at hvalidate
  obtain ⟨_, _, hvalidate⟩ := bind_eq_ok.1 hvalidate
  obtain ⟨_, hinside, _⟩ := bind_eq_ok.1 hvalidate
  exact Nat.not_lt.1 (not_or.1 (refuse_eq_ok.1 hinside)).1

section
variable (h : encodeEntries codec headerLen entries = .ok (offsets, stream))
  (hr : ∀ entry ∈ entries, entry.Readable codec) (hcount : entries.length < 256 ^ 8)
  (hhead : headId < 256 ^ 8)
  (hfile : file <+: headerBytes entries.length headId ++ (stream ++ back) ∨ headerBytes entries.length headId ++ (stream ++ back) <+: file)
include h hr hcount hhead hfile

/-- A container that was cut off, or that something was appended to, is planned for. -/
theorem plan_of_shaped (hshaped : isTruncationShapedError sourceError = true) :
    ∃ recovery, planTruncatedLatestRecovery codec file sourceError = .ok (some recovery) ∧
      recovery.data = recoveredData (survivors codec (file.drop headerLen) entries) := by
  have hheader := parseHeader_reads hcount hhead
  have hlen := headerBytes_length entries.length headId
  unfold planTruncatedLatestRecovery
  rw [if_neg (not_not.2 hshaped)]
  rcases prefix_append_cases hfile with ⟨_, hfront, hne⟩ | ⟨rest, rfl, hrest⟩
  · have herr := parseHeader_sequential.cut hheader hfront hne
    have hshort := hfront.length_le
    have hmagic := prefix_or_prefix_of_prefix hfront (headerBytes_magic entries.length headId)
    have hnone : survivors codec (file.drop headerLen) entries = [] := by
      rw [drop_of_length_le (hshort.trans hlen.le)]
      exact survivors_nil h
    rw [herr, hnone]
    refine ⟨_, if_neg ?_, rfl⟩
    rw [not_or, not_or, not_not, not_not, not_lt]
    exact ⟨cursorEof_shaped, hshort.trans hlen.le, hmagic⟩
  · have hdrop : (headerBytes entries.length headId ++ rest).drop headerLen = rest :=
      drop_left' hlen
    rw [hheader rest, hdrop]
    have hrest' := stream_cases hrest
    simp only
    cases hscan : scanFooterGuidedRecovery codec (headerBytes entries.length headId ++ rest)
        ⟨entries.length, headId⟩ with
    | some recovery =>
      obtain ⟨found, stop, hmany, hdata⟩ := scanFooterGuidedRecovery_guided hscan
      rw [hdrop] at hmany
      refine ⟨recovery, rfl, ?_⟩
      rw [hdata]
      rcases takeMany_front h hr hrest' stop with herr | ⟨left, tail, hok, rfl⟩
      · cases hmany.symm.trans herr
      · obtain ⟨rfl, _⟩ := Prod.mk.inj (Except.ok.inj (hmany.symm.trans hok))
        rw [survivors_whole h]
    | none =>
      obtain ⟨left, hforward⟩ := scanForward_ok h hr hrest'
      exact ⟨_, by rw [hforward]; rfl, rfl⟩

/-- What the error of the whole-file reader comes from: the end of the file, when it is none of a torn
file. -/
theorem loadError_shaped_iff (hload : decodeCurrentContainer codec file = .error err) :
    isTruncationShapedError err = true ↔ RefusedAsTorn file ⟨entries.length, headId⟩ := by
  have hheader := parseHeader_reads hcount hhead
  have hlen := headerBytes_length entries.length headId
  unfold decodeCurrentContainer at hload
  rcases prefix_append_cases hfile with ⟨_, hfront, hne⟩ | ⟨rest, rfl, hrest⟩
  · have herr := parseHeader_sequential.cut hheader hfront hne
    have hshort : file.length < headerLen + footerLen :=
      lt_of_le_of_lt (hfront.length_le.trans hlen.le) (by decide)
    rw [herr] at hload
    cases hload
    apply iff_of_true cursorEof_shaped
    intro err hparse
    unfold PackedFooter.parse refuse at hparse
    rw [if_pos hshort] at hparse
    cases hparse
    decide +kernel
  · rw [hheader rest] at hload
    rcases bind_eq_error_iff.1 hload with hload | ⟨_, hok, hload⟩
    · cases hload
    · cases hok
      rcases bind_eq_error_iff.1 hload with hfooter | ⟨footer, hfooter, hload⟩
      · apply Iff.intro
        · intro hshaped found hfound
          cases hfooter.symm.trans hfound
          exact hshaped
        · intro hall
          exact hall err hfooter
      · have hrest' := stream_cases hrest
        apply iff_of_true _ fun found hfound => by cases hfooter.symm.trans hfound
        rcases bind_eq_error_iff.1 hload with hload | ⟨_, _, hload⟩
        · exact absurd (refuse_eq_error.1 hload).1 (Nat.not_lt.2 (parse_entryDataEnd hfooter))
        · rcases takeMany_front h hr hrest' (footer.entryDataEnd - headerLen) with
            herr | ⟨left, tail, hok, rfl⟩
          · simp only [herr] at hload
            cases hload
            exact cursorEof_shaped
          · simp only [hok] at hload
            rcases bind_eq_error_iff.1 hload with hload | ⟨_, _, hload⟩
            · cases hload
            · rcases bind_eq_error_iff.1 hload with hload | ⟨_, _, hload⟩
              · rw [← (refuse_eq_error.1 hload).2]
                decide +kernel
              · cases hload

end

end Damaged

/-- For every error that the reading of a damaged container may have ended with: its entries are
salvaged exactly when the error is one of a torn file. The whole-file reader ends with such an error
exactly when nothing at the end of the file is refused as a footer of another kind. -/
theorem planTruncatedLatestRecovery_exact {codec : PayloadCodec} {data : OplogData}
    {bytes file : Bytes} (hsorted : Ascending data.entries) (hmemory : FitsMemory codec data)
    (hlossless : ∀ entry ∈ data.entries, codec.Lossless entry.operation)
    (hvalid : Recovers codec data) (hencoded : encodeCurrentContainer codec data = .ok bytes)
    (hfile : file <+: bytes ∨ bytes <+: file) :
    (∀ err, SalvagesSurvivors codec data file (planTruncatedLatestRecovery codec file err) ↔
      isTruncationShapedError err = true) ∧
    ∀ err, decodeCurrentContainer codec file = .error err →
      (SalvagesSurvivors codec data file (planTruncatedLatestRecovery codec file err) ↔
        RefusedAsTorn file ⟨data.entries.length, data.headId⟩) := by
  obtain ⟨offsets, stream, hentries, _, rfl⟩ := encodeCurrentContainer_ok_iff.1 hencoded
  have hstorable := hvalid.storable hsorted hmemory hlossless (payload_of_encodeEntries hentries)
  have hcount := (laid_of_encodeEntries data.headId_lt hentries
    (hmemory offsets stream hentries)).entryCount
  have hshaped : ∀ err, SalvagesSurvivors codec data file
      (planTruncatedLatestRecovery codec file err) ↔ isTruncationShapedError err = true := by
    intro err
    apply Iff.intro
    · intro h
      obtain ⟨recovery, _, _, hplan, _⟩ := h
      by_contra hother
      unfold planTruncatedLatestRecovery at hplan
      rw [if_pos hother] at hplan
      cases hplan
    · intro h
      obtain ⟨recovery, hplan, hdata⟩ := plan_of_shaped hentries hstorable.readable hcount
        data.headId_lt hfile h
      obtain ⟨rebuilt, index, hrebuilt, hopen⟩ := rebuilt_opens hsorted hmemory hstorable hencoded
        (survivors_front (file.drop headerLen) data.entries)
      exact ⟨recovery, rebuilt, index, hplan, hdata, hdata ▸ hrebuilt, hopen⟩
  refine ⟨hshaped, fun err hload => ?_⟩
  rw [hshaped]
  exact loadError_shaped_iff hentries hstorable.readable hcount data.headId_lt hfile hload

def lookalikeEntry : OpEntry :=
  { abortEntry 2 none with
    actor := ⟨indexMagic ++ leBytes 4 2 ++ List.replicate 108 0, []⟩ }

def lookalikeLog : OplogData := ⟨[abortEntry 1 none, lookalikeEntry], 2, by decide⟩

def lookalikeFile : Bytes :=
  ((encodeCurrentContainer recordCodec lookalikeLog).toOption.getD []).take 299

theorem lookalikeLog_lossless :
    ∀ entry ∈ lookalikeLog.entries, recordCodec.Lossless entry.operation :=
  forall_mem_cons.2 ⟨abortRecord_lossless, forall_mem_singleton.2 abortRecord_lossless⟩

theorem lookalikeLog_storable : Storable recordCodec lookalikeLog where
  headId := rfl
  readable := by
    have hfits : ∀ opData, recordCodec.encode abortRecord = .ok opData → opData.length < 256 ^ 4 := by
      intro opData hencode
      obtain rfl := Except.ok.inj (encode_abortRecord.symm.trans hencode)
      decide +kernel
    intro entry hmem
    rcases mem_pair.1 hmem with rfl | rfl
    · exact ⟨⟨nofun, by decide, by decide, by decide, by decide⟩, hfits, abortRecord_lossless⟩
    · exact ⟨⟨nofun, by decide, by decide +kernel, by decide, by decide⟩, hfits,
        abortRecord_lossless⟩
  batches := by
    intro batchId
    exact lt_of_le_of_lt (length_filter_le _ _) (by decide)
  transactions := by
    intro entry hmem transactionId hcommit
    rcases mem_pair.1 hmem with rfl | rfl
    · cases hcommit
    · cases hcommit

theorem lookalikeLog_sorted : Ascending lookalikeLog.entries := by
  simp [Ascending, lookalikeLog, lookalikeEntry, abortEntry]

theorem lookalikeLog_fits : FitsMemory recordCodec lookalikeLog := by decide +kernel

theorem lookalikeLog_encoded : encodeCurrentContainer recordCodec lookalikeLog =
    .ok ((encodeCurrentContainer recordCodec lookalikeLog).toOption.getD []) := by decide +kernel

/-- The first of two entries is intact, and nothing is salvaged. -/
theorem planTruncatedLatestRecovery_lookalike :
    ¬∀ codec data bytes file err, Ascending data.entries → FitsMemory codec data →
      (∀ entry ∈ data.entries, codec.Lossless entry.operation) →
      Recovers codec data → encodeCurrentContainer codec data = .ok bytes →
      (file <+: bytes ∨ bytes <+: file) → decodeCurrentContainer codec file = .error err →
      SalvagesSurvivors codec data file (planTruncatedLatestRecovery codec file err) := by
  intro h
  have hload : decodeCurrentContainer recordCodec lookalikeFile =
      .error (.invalidObject "unsupported oplog index version 2") := by decide +kernel
  obtain ⟨_, _, _, hplan, _⟩ := h recordCodec lookalikeLog _ lookalikeFile _ lookalikeLog_sorted
    lookalikeLog_fits lookalikeLog_lossless
    (lookalikeLog_storable.recovers lookalikeLog_sorted lookalikeLog_fits) lookalikeLog_encoded
    (.inl (List.take_prefix _ _)) hload
  have hnone : planTruncatedLatestRecovery recordCodec lookalikeFile
      (.invalidObject "unsupported oplog index version 2") = .ok none :=
    if_pos (by decide +kernel)
  cases hplan.symm.trans hnone

/-- A cut in the second entry. -/
theorem planTruncatedLatestRecovery_exact_lookalike :
    (∀ err, SalvagesSurvivors recordCodec lookalikeLog lookalikeFile
      (planTruncatedLatestRecovery recordCodec lookalikeFile err) ↔
        isTruncationShapedError err = true) ∧
    ∀ err, decodeCurrentContainer recordCodec lookalikeFile = .error err →
      (SalvagesSurvivors recordCodec lookalikeLog lookalikeFile
        (planTruncatedLatestRecovery recordCodec lookalikeFile err) ↔
        RefusedAsTorn lookalikeFile ⟨2, 2⟩) :=
  planTruncatedLatestRecovery_exact lookalikeLog_sorted lookalikeLog_fits lookalikeLog_lossless
    (lookalikeLog_storable.recovers lookalikeLog_sorted lookalikeLog_fits) lookalikeLog_encoded
    (.inl (List.take_prefix _ _))

end Heddle.Oplog
