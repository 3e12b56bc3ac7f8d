import Heddle.Object.State

namespace Heddle
open Heddle.Lib Heddle.Oplog
open List hiding Vector

section Lengths
variable (jsonBytes : J → Bytes)

@[simp] theorem length_writeOptional (bytes : α → Bytes) (value : Option α) :
    (writeOptional bytes value).length = 1 + (value.map fun v => (bytes v).length).getD 0 := by
  cases value with
  | none => rfl
  | some v => exact Nat.add_comm _ _

@[simp] theorem length_terminatedBytes (bytes : Bytes) :
    (terminatedBytes bytes).length = bytes.length + 1 := length_append

@[simp] theorem length_terminatedString (s : String) :
    (terminatedString s).length = (utf8 s).length + 1 := length_append

@[simp] theorem length_prefixedBytes (bytes : Bytes) :
    (prefixedBytes bytes).length = 4 + bytes.length := by
  rw [prefixedBytes, length_append, length_leBytes]

@[simp] theorem length_timestampBytes (t : Timestamp) : (timestampBytes t).length = 8 :=
  length_leBytes _ _

@[simp] theorem length_i32Bytes (v : Int32) : (i32Bytes v).length = 4 := length_leBytes _ _

@[simp] theorem length_writeOptionalString (value : Option String) :
    (writeOptionalString value).length = State.optionalStringLen value := by
  simp only [writeOptionalString, length_writeOptional, length_terminatedString,
    State.optionalStringLen]

@[simp] theorem length_lineageBytes (lineage : ChangeLineage) :
    (State.lineageBytes lineage).length = 49 := by
  simp [State.lineageBytes]

theorem length_flatMap_const {f : α → Bytes} (h : ∀ a, (f a).length = width) (xs : List α) :
    (xs.flatMap f).length = xs.length * width := by
  rw [length_flatMap]
  simp only [h, map_const', sum_replicate_nat]

theorem Verification.length_updateHasher (v : Verification J) :
    (v.updateHasher jsonBytes).length = v.hashLen jsonBytes := by
  simp only [updateHasher, hashLen, length_append, writeOptionalU8, writeOptionalU32,
    writeOptionalF32, length_writeOptional, length_leBytes, length_flatMap, customEntry,
    length_prefixedBytes, length_singleton, Option.map_map, Function.comp_def]

namespace State

theorem length_agentBytes (includeCursorFields : Bool) (agent : Agent) :
    (agentBytes includeCursorFields agent).length = agentHashLen agent includeCursorFields := by
  cases includeCursorFields <;>
    simp only [agentBytes, agentHashLen, cursorBytes, length_append, length_terminatedString,
      length_writeOptionalString, length_nil, if_true, Bool.false_eq_true, if_false]

theorem hashLen_eq_length (s : State J) (includeCursorFields : Bool) :
    s.hashLen jsonBytes includeCursorFields =
      (s.updateHash jsonBytes includeCursorFields).length := by
  have hparent (parent : StateId) : parent.bytes.toList.length = 32 := parent.bytes.length_toList
  simp only [hashLen, hashLenCoreVersioned, hashLenFidelity, updateHash, updateHashCoreVersioned,
    updateHashFidelity, length_append, length_writeOptional, length_agentBytes,
    length_writeOptionalString, writeOptionalF32, writeOptionalBytes, length_prefixedBytes,
    length_timestampBytes, length_i32Bytes, length_leBytes, ContentHash.asBytes_length,
    Verification.length_updateHasher, principalBytes, length_terminatedBytes, Vector.length_toList,
    length_flatMap_const hparent, length_flatMap_const length_lineageBytes, length_flatMap,
    headerBytes, length_singleton]
  omega

end State
end Lengths

section Codes

theorem terminatedString_code : SelfDelimiting (fun s => 0 ∉ utf8 s) terminatedString :=
  SelfDelimiting.terminated.comp utf8_injective

theorem optionalString_code :
    SelfDelimiting (fun o => ∀ s ∈ o, 0 ∉ utf8 s) writeOptionalString :=
  terminatedString_code.optional

theorem prefixedBytes_code : SelfDelimiting (fun xs : Bytes => xs.length < 256 ^ 4) prefixedBytes :=
  SelfDelimiting.prefixed 4

theorem optionalU32_code : SelfDelimiting (fun _ => True) writeOptionalU32 := by
  have hcode : SelfDelimiting (fun _ => True) fun v : UInt32 => leBytes 4 v.toNat :=
    .fixed 4 (fun _ => length_leBytes _ _) fun a b _ _ h =>
      UInt32.toNat_inj.1 (leBytes_inj a.toNat_lt b.toNat_lt h)
  intro a b rest rest' _ _ h
  exact hcode.optional a b rest rest' (fun _ _ => trivial) (fun _ _ => trivial) h

theorem optionalBool_code : SelfDelimiting (fun _ => True)
    fun o : Option Bool => writeOptionalU8 (o.map fun passed => if passed then 1 else 0) := by
  intro a b rest rest' _ _ h
  cases a with
  | none =>
    cases b with
    | none => exact ⟨rfl, append_cancel_left h⟩
    | some y => cases h
  | some x =>
    cases b with
    | none => cases h
    | some y =>
      have htail := (List.cons.inj h).2
      obtain ⟨hbyte, hrest⟩ := List.cons.inj htail
      cases x <;> cases y
      · exact ⟨rfl, hrest⟩
      · exact absurd hbyte (by decide)
      · exact absurd hbyte (by decide)
      · exact ⟨rfl, hrest⟩

theorem timestamp_code : SelfDelimiting (fun secs : Int => -2 ^ 63 ≤ secs ∧ secs < 2 ^ 63)
    (fun secs => leBytes 8 (i64ToNat secs)) := by
  apply SelfDelimiting.fixed 8 (fun _ => length_leBytes _ _)
  intro a b ha hb h
  have hnat := leBytes_inj (i64ToNat_lt a) (i64ToNat_lt b) h
  rw [← i64OfNat_i64ToNat ha.1 ha.2, hnat, i64OfNat_i64ToNat hb.1 hb.2]

theorem i32_code : SelfDelimiting (fun _ => True) i32Bytes := by
  apply SelfDelimiting.fixed 4 length_i32Bytes
  intro a b _ _ h
  have hnat := leBytes_inj a.toUInt32.toNat_lt b.toUInt32.toNat_lt h
  have hbits := congrArg UInt32.toInt32 (UInt32.toNat_inj.1 hnat)
  rwa [Int32.toInt32_toUInt32, Int32.toInt32_toUInt32] at hbits

theorem vector_code (width : Nat) :
    SelfDelimiting (fun _ => True) fun v : Vector UInt8 width => v.toList :=
  .fixed width (fun v => v.length_toList) fun _ _ _ _ h => Vector.toList_inj.1 h

theorem contentHash_code : SelfDelimiting (fun _ => True) ContentHash.asBytes :=
  .fixed 32 ContentHash.asBytes_length fun _ _ _ _ h => ContentHash.asBytes_injective h

theorem stateId_code : SelfDelimiting (fun _ => True) fun id : StateId => id.bytes.toList :=
  (vector_code 32).comp fun _ _ h => congrArg StateId.mk h

theorem changeId_code : SelfDelimiting (fun _ => True) fun id : ChangeId => id.bytes.toList :=
  (vector_code 16).comp fun _ _ h => congrArg ChangeId.mk h

def Oplog.Principal.NullFree (p : Principal) : Prop := 0 ∉ p.name ∧ 0 ∉ p.email

theorem principal_code : SelfDelimiting Principal.NullFree State.principalBytes :=
  (SelfDelimiting.terminated.pair SelfDelimiting.terminated).comp
    (f := fun p : Principal => (p.name, p.email)) fun _ _ h =>
      Principal.ext (congrArg Prod.fst h) (congrArg Prod.snd h)

theorem lineage_code : SelfDelimiting (fun _ => True) State.lineageBytes := by
  intro a b rest rest' _ _ h
  simp only [State.lineageBytes, cons_append, append_assoc, List.cons.injEq] at h
  obtain ⟨hkind, h⟩ := h
  obtain ⟨hchange, h⟩ := changeId_code _ _ _ _ trivial trivial h
  obtain ⟨hstate, hrest⟩ := stateId_code _ _ _ _ trivial trivial h
  exact ⟨ChangeLineage.ext (ChangeLineageKind.toByte_injective hkind) hchange hstate, hrest⟩

theorem header_code : SelfDelimiting
    (fun header : Bytes × Bytes => header.1.length < 256 ^ 4 ∧ header.2.length < 256 ^ 4)
    State.headerBytes :=
  prefixedBytes_code.pair prefixedBytes_code

variable {jsonBytes : J → Bytes}

theorem customEntry_code (hjson : Function.Injective jsonBytes) : SelfDelimiting
    (fun entry : String × J =>
      (utf8 entry.1).length < 256 ^ 4 ∧ (jsonBytes entry.2).length < 256 ^ 4)
    (Verification.customEntry jsonBytes) :=
  (prefixedBytes_code.comp utf8_injective).pair (prefixedBytes_code.comp hjson)

structure Verification.Framed (jsonBytes : J → Bytes) (v : Verification J) : Prop where
  custom : v.custom.length < 256 ^ 4
  entries : ∀ entry ∈ v.custom,
    (utf8 entry.1).length < 256 ^ 4 ∧ (jsonBytes entry.2).length < 256 ^ 4

theorem verification_code (hjson : Function.Injective jsonBytes) :
    SelfDelimiting (Verification.Framed jsonBytes) (Verification.updateHasher jsonBytes) := by
  intro a b rest rest' ha hb h
  simp only [Verification.updateHasher, append_assoc] at h
  obtain ⟨hpassed, h⟩ := optionalBool_code _ _ _ _ trivial trivial h
  obtain ⟨hfailed, h⟩ := optionalU32_code _ _ _ _ trivial trivial h
  obtain ⟨hcoverage, h⟩ := optionalU32_code _ _ _ _ trivial trivial h
  obtain ⟨hdelta, h⟩ := optionalU32_code _ _ _ _ trivial trivial h
  obtain ⟨hlint, h⟩ := optionalU32_code _ _ _ _ trivial trivial h
  rw [← append_assoc, ← append_assoc (leBytes 4 b.custom.length)] at h
  obtain ⟨hcustom, hrest⟩ := (customEntry_code hjson).counted 4 _ _ _ _ ⟨ha.custom, ha.entries⟩
    ⟨hb.custom, hb.entries⟩ h
  exact ⟨Verification.ext hpassed hfailed hcoverage hdelta hlint hcustom, hrest⟩

structure Oplog.Agent.NullFree (agent : Agent) : Prop where
  provider : 0 ∉ utf8 agent.provider
  model : 0 ∉ utf8 agent.model
  sessionId : ∀ s ∈ agent.sessionId, 0 ∉ utf8 s
  segmentId : ∀ s ∈ agent.segmentId, 0 ∉ utf8 s
  policyId : ∀ s ∈ agent.policyId, 0 ∉ utf8 s
  thoughtLevel : ∀ s ∈ agent.thoughtLevel, 0 ∉ utf8 s
  parent : ∀ s ∈ agent.parent, 0 ∉ utf8 s

/-- An agent that published cursor fields has no form without them. -/
def CursorWritten (includeCursorFields : Bool) (agent : Agent) : Prop :=
  includeCursorFields = false → agent.thoughtLevel = none ∧ agent.parent = none

theorem agent_code (includeCursorFields : Bool) :
    SelfDelimiting (fun agent => agent.NullFree ∧ CursorWritten includeCursorFields agent)
      (State.agentBytes includeCursorFields) := by
  intro a b rest rest' hagent hagent' h
  obtain ⟨ha, hcursor⟩ := hagent
  obtain ⟨hb, hcursor'⟩ := hagent'
  simp only [State.agentBytes, append_assoc] at h
  obtain ⟨hprovider, h⟩ := terminatedString_code _ _ _ _ ha.provider hb.provider h
  obtain ⟨hmodel, h⟩ := terminatedString_code _ _ _ _ ha.model hb.model h
  obtain ⟨hsession, h⟩ := optionalString_code _ _ _ _ ha.sessionId hb.sessionId h
  obtain ⟨hsegment, h⟩ := optionalString_code _ _ _ _ ha.segmentId hb.segmentId h
  obtain ⟨hpolicy, h⟩ := optionalString_code _ _ _ _ ha.policyId hb.policyId h
  cases includeCursorFields with
  | true =>
    simp only [if_true, State.cursorBytes, append_assoc] at h
    obtain ⟨hthought, h⟩ := optionalString_code _ _ _ _ ha.thoughtLevel hb.thoughtLevel h
    obtain ⟨hparent, hrest⟩ := optionalString_code _ _ _ _ ha.parent hb.parent h
    exact ⟨Agent.ext hprovider hmodel hsession hsegment hpolicy hthought hparent, hrest⟩
  | false =>
    obtain ⟨hthought, hparent⟩ := hcursor rfl
    obtain ⟨hthought', hparent'⟩ := hcursor' rfl
    exact ⟨Agent.ext hprovider hmodel hsession hsegment hpolicy (hthought.trans hthought'.symm)
      (hparent.trans hparent'.symm), h⟩

end Codes

section Identity

def Oplog.Timestamp.wholeSeconds (t : Timestamp) : Timestamp :=
  { t with nanos := 0, nanos_lt := Timestamp.zero_nanos_lt }

theorem Oplog.Timestamp.wholeSeconds_eq_iff {t u : Timestamp} :
    t.wholeSeconds = u.wholeSeconds ↔ t.secs = u.secs := by
  simp only [wholeSeconds, Timestamp.mk.injEq, and_true]

theorem Oplog.Timestamp.secs_range (t : Timestamp) : -2 ^ 63 ≤ t.secs ∧ t.secs < 2 ^ 63 := by
  have hge := t.secs_ge
  have hle := t.secs_le
  omega

theorem optionalTimestamp_code
    (h : writeOptional timestampBytes o ++ rest = writeOptional timestampBytes p ++ rest') :
    o.map Timestamp.wholeSeconds = p.map Timestamp.wholeSeconds ∧ rest = rest' := by
  have hmap (o : Option Timestamp) : writeOptional timestampBytes o =
      (o.map Timestamp.secs).elim [0] fun secs => 1 :: leBytes 8 (i64ToNat secs) := by
    cases o <;> rfl
  have hrange (o : Option Timestamp) :
      ∀ secs ∈ o.map Timestamp.secs, -2 ^ 63 ≤ secs ∧ secs < 2 ^ 63 := by
    intro secs hsecs
    obtain ⟨t, _, rfl⟩ := Option.map_eq_some_iff.1 hsecs
    exact t.secs_range
  rw [hmap, hmap] at h
  obtain ⟨hsecs, hrest⟩ := timestamp_code.optional _ _ _ _ (hrange o) (hrange p) h
  refine ⟨?_, hrest⟩
  cases o with
  | none =>
    cases p with
    | none => rfl
    | some u => cases hsecs
  | some t =>
    cases p with
    | none => cases hsecs
    | some u => exact congrArg some (Timestamp.wholeSeconds_eq_iff.2 (Option.some.inj hsecs))

namespace State
variable (jsonBytes : J → Bytes)

def covered (s : State J) : State J :=
  { s with stateId := ⟨Vector.replicate 32 0⟩, gitLossy := false }

def wholeSeconds (s : State J) : State J :=
  { s.covered with
    createdAt := s.createdAt.wholeSeconds
    authoredAt := s.authoredAt.map Timestamp.wholeSeconds }

/-- The texts that a null byte ends have none, and what is written in four bytes fits. -/
structure Framed (s : State J) : Prop where
  parents : s.parents.length < 256 ^ 4
  principal : s.attribution.principal.NullFree
  agent : ∀ agent ∈ s.attribution.agent, agent.NullFree
  intent : ∀ text ∈ s.intent, 0 ∉ utf8 text
  verification : ∀ v ∈ s.verification, v.Framed jsonBytes
  committer : ∀ p ∈ s.committer, p.NullFree
  rawMessage : ∀ message ∈ s.rawMessage, message.length < 256 ^ 4
  headerCount : s.extraHeaders.length < 256 ^ 4
  headers : ∀ header ∈ s.extraHeaders, header.1.length < 256 ^ 4 ∧ header.2.length < 256 ^ 4
  lineage : s.lineage.length < 256 ^ 4

variable {jsonBytes}

/-- The covered fields, to the second, are all determined by the bytes that are hashed. -/
theorem updateHash_inj (hjson : Function.Injective jsonBytes) {s t : State J}
    (hs : s.Framed jsonBytes) (ht : t.Framed jsonBytes)
    (hcursor : ∀ agent ∈ s.attribution.agent, CursorWritten includeCursorFields agent)
    (hcursor' : ∀ agent ∈ t.attribution.agent, CursorWritten includeCursorFields agent)
    (h : s.updateHash jsonBytes includeCursorFields =
      t.updateHash jsonBytes includeCursorFields) : s.wholeSeconds = t.wholeSeconds := by
  replace h := congrArg (fun bytes => bytes ++ []) h
  simp only [updateHash, updateHashCoreVersioned, updateHashFidelity, append_assoc] at h
  obtain ⟨hchange, h⟩ := changeId_code _ _ _ _ trivial trivial h
  obtain ⟨htree, h⟩ := contentHash_code _ _ _ _ trivial trivial h
  obtain ⟨hcount, h⟩ := SelfDelimiting.number 4 _ _ _ _ hs.parents ht.parents h
  obtain ⟨hparents, h⟩ := stateId_code.flatMap hcount (fun _ _ => trivial) (fun _ _ => trivial) h
  obtain ⟨hprincipal, h⟩ := principal_code _ _ _ _ hs.principal ht.principal h
  obtain ⟨hagent, h⟩ := (agent_code includeCursorFields).optional _ _ _ _
    (fun a ha => ⟨hs.agent a ha, hcursor a ha⟩) (fun a ha => ⟨ht.agent a ha, hcursor' a ha⟩) h
  obtain ⟨hintent, h⟩ := optionalString_code _ _ _ _ hs.intent ht.intent h
  obtain ⟨hconfidence, h⟩ := optionalU32_code _ _ _ _ trivial trivial h
  obtain ⟨hcreated, h⟩ := timestamp_code _ _ _ _ s.createdAt.secs_range t.createdAt.secs_range h
  obtain ⟨hverification, h⟩ := (verification_code hjson).optional _ _ _ _ hs.verification
    ht.verification h
  obtain ⟨hprovenance, h⟩ := contentHash_code.optional _ _ _ _ (fun _ _ => trivial)
    (fun _ _ => trivial) h
  obtain ⟨hstatus, h⟩ := List.cons.inj h
  obtain ⟨hcommitter, h⟩ := principal_code.optional _ _ _ _ hs.committer ht.committer h
  obtain ⟨hauthoredTz, h⟩ := i32_code _ _ _ _ trivial trivial h
  obtain ⟨hcommitterTz, h⟩ := i32_code _ _ _ _ trivial trivial h
  obtain ⟨hauthored, h⟩ := optionalTimestamp_code h
  obtain ⟨hmessage, h⟩ := prefixedBytes_code.optional _ _ _ _ hs.rawMessage ht.rawMessage h
  obtain ⟨hcount, h⟩ := SelfDelimiting.number 4 _ _ _ _ hs.headerCount ht.headerCount h
  obtain ⟨hheaders, h⟩ := header_code.flatMap hcount hs.headers ht.headers h
  obtain ⟨hcount, h⟩ := SelfDelimiting.number 4 _ _ _ _ hs.lineage ht.lineage h
  obtain ⟨hlineage, _⟩ := lineage_code.flatMap hcount (fun _ _ => trivial) (fun _ _ => trivial) h
  exact State.ext rfl hchange htree hparents (Attribution.ext hprincipal hagent) hintent hconfidence
    (Timestamp.wholeSeconds_eq_iff.2 hcreated) hverification (Status.toByte_injective hstatus)
    hprovenance hauthored hcommitter hauthoredTz hcommitterTz hmessage rfl hheaders hlineage

theorem updateHash_wholeSeconds (s : State J) (includeCursorFields : Bool) :
    s.wholeSeconds.updateHash jsonBytes includeCursorFields =
      s.updateHash jsonBytes includeCursorFields := by
  have hauthored : writeOptional timestampBytes (s.authoredAt.map Timestamp.wholeSeconds) =
      writeOptional timestampBytes s.authoredAt := by
    cases s.authoredAt <;> rfl
  simp only [updateHash, updateHashFidelity, wholeSeconds, hauthored]
  rfl

theorem updateHash_of_human {s : State J} (h : s.attribution.agent = none) (v w : Bool) :
    s.updateHash jsonBytes v = s.updateHash jsonBytes w := by
  simp only [updateHash, updateHashCoreVersioned, h]
  rfl

theorem preimage_inj_iff {s t : State J} :
    s.preimage jsonBytes v = t.preimage jsonBytes w ↔
      s.updateHash jsonBytes v = t.updateHash jsonBytes w := by
  constructor
  · intro h
    simp only [preimage] at h
    exact (append_inj h (by simp only [length_append, length_leBytes])).2
  · intro h
    rw [preimage, preimage, hashLen_eq_length, hashLen_eq_length, h]

theorem cursorWritten_of_unpublished {s : State J} (h : v = false → s.unpublishedCursor = true) :
    ∀ agent ∈ s.attribution.agent, CursorWritten v agent := by
  intro agent hagent hv
  have hall := h hv
  rw [unpublishedCursor, Option.all_eq_true] at hall
  have hboth := hall agent hagent
  rw [Bool.and_eq_true, Option.isNone_iff_eq_none, Option.isNone_iff_eq_none] at hboth
  exact hboth

/-- The two states agree to the second, and only the rest of a second tells them apart. -/
def DifferInSubseconds (s t : State J) : Prop :=
  s.wholeSeconds = t.wholeSeconds ∧ ¬(s.createdAt = t.createdAt ∧ s.authoredAt = t.authoredAt)

theorem covered_eq_of_wholeSeconds {s t : State J} (h : s.wholeSeconds = t.wholeSeconds)
    (hcreated : s.createdAt = t.createdAt) (hauthored : s.authoredAt = t.authoredAt) :
    s.covered = t.covered := by
  simp only [wholeSeconds, covered, State.mk.injEq] at h
  obtain ⟨_, hchange, htree, hparents, hattribution, hintent, hconfidence, _, hverification,
    hstatus, hprovenance, _, hcommitter, htz, htz', hmessage, _, hheaders, hlineage⟩ := h
  exact State.ext rfl hchange htree hparents hattribution hintent hconfidence hcreated
    hverification hstatus hprovenance hauthored hcommitter htz htz' hmessage rfl hheaders hlineage

/-- The same form for both states: a human's state has one form. -/
theorem updateHash_eq_iff {s t : State J} (hjson : Function.Injective jsonBytes)
    (hs : s.Framed jsonBytes) (ht : t.Framed jsonBytes)
    (hv : v = false → s.unpublishedCursor = true) (hw : w = false → t.unpublishedCursor = true)
    (hform : v = w ∨ s.attribution.agent = none ∨ t.attribution.agent = none) :
    s.updateHash jsonBytes v = t.updateHash jsonBytes w ↔ s.wholeSeconds = t.wholeSeconds := by
  have hhuman {u : State J} (hu : u.attribution.agent = none) (f : Bool) :
      ∀ agent ∈ u.attribution.agent, CursorWritten f agent := by
    intro agent hagent
    rw [hu] at hagent
    cases hagent
  have hagents (h : s.wholeSeconds = t.wholeSeconds) :
      s.attribution.agent = t.attribution.agent := by
    have hattribution := congrArg State.attribution h
    exact congrArg Attribution.agent hattribution
  constructor
  · intro h
    rcases hform with rfl | hnone | hnone
    · exact updateHash_inj hjson hs ht (cursorWritten_of_unpublished hv)
        (cursorWritten_of_unpublished hw) h
    · rw [updateHash_of_human hnone v w] at h
      exact updateHash_inj hjson hs ht (hhuman hnone w) (cursorWritten_of_unpublished hw) h
    · rw [updateHash_of_human hnone w v] at h
      exact updateHash_inj hjson hs ht (cursorWritten_of_unpublished hv) (hhuman hnone v) h
  · intro h
    have hsame : s.updateHash jsonBytes v = t.updateHash jsonBytes v := by
      rw [← updateHash_wholeSeconds s, h, updateHash_wholeSeconds]
    rw [hsame]
    rcases hform with rfl | hnone | hnone
    · rfl
    · exact updateHash_of_human ((hagents h).symm.trans hnone) v w
    · exact updateHash_of_human hnone v w

end State

end Identity

section StateId
open State
variable (jsonBytes : J → Bytes)

/-- The announced length is always that of the hashed bytes. Framed states of one form that hash the
same bytes agree on the covered fields, unless they differ within a second. -/
theorem stateId_determines_iff (hjson : Function.Injective jsonBytes) :
    (∀ (s : State J) (v : Bool), s.hashLen jsonBytes v = (s.updateHash jsonBytes v).length) ∧
    ∀ (s t : State J) (v w : Bool), s.Framed jsonBytes → t.Framed jsonBytes →
      (v = false → s.unpublishedCursor = true) → (w = false → t.unpublishedCursor = true) →
      (v = w ∨ s.attribution.agent = none ∨ t.attribution.agent = none) →
      ((s.preimage jsonBytes v = t.preimage jsonBytes w → s.covered = t.covered) ↔
        ¬DifferInSubseconds s t) := by
  apply And.intro (hashLen_eq_length jsonBytes)
  intro s t v w hs ht hv hw hform
  rw [preimage_inj_iff, updateHash_eq_iff hjson hs ht hv hw hform, DifferInSubseconds, not_and,
    not_not]
  constructor
  · intro h hsame
    have hcovered := h hsame
    have hcreated : s.covered.createdAt = t.covered.createdAt := congrArg _ hcovered
    have hauthored : s.covered.authoredAt = t.covered.authoredAt := congrArg _ hcovered
    exact ⟨hcreated, hauthored⟩
  · intro h hsame
    exact covered_eq_of_wholeSeconds hsame (h hsame).1 (h hsame).2

def boolJson (b : Bool) : Bytes := utf8 (if b then "true" else "false")

theorem boolJson_injective : Function.Injective boolJson := by
  intro a b h
  cases a <;> cases b <;> first | rfl | exact absurd h (by decide)

def epochState (attribution : Attribution) : State Bool where
  stateId := ⟨Vector.replicate 32 0⟩
  changeId := ⟨Vector.replicate 16 1⟩
  tree := ⟨Vector.replicate 32 2⟩
  parents := []
  attribution := attribution
  createdAt := ⟨0, 0, Timestamp.epoch_ge, Timestamp.epoch_le, Timestamp.zero_nanos_lt⟩

def agentState : State Bool := epochState ⟨⟨[97], [98]⟩, some { provider := "p", model := "m" }⟩

theorem agentState_framed (createdAt : Timestamp) :
    { agentState with createdAt := createdAt }.Framed boolJson where
  parents := (by decide : 0 < 256 ^ 4)
  principal := ⟨(by decide : (0 : UInt8) ∉ [97]), (by decide : (0 : UInt8) ∉ [98])⟩
  agent := by
    intro agent hagent
    cases hagent
    exact ⟨by decide, by decide, nofun, nofun, nofun, nofun, nofun⟩
  intent := nofun
  verification := nofun
  committer := nofun
  rawMessage := nofun
  headerCount := (by decide : 0 < 256 ^ 4)
  headers := nofun
  lineage := (by decide : 0 < 256 ^ 4)

def secondLater : State Bool :=
  { agentState with createdAt := ⟨1, 0, Timestamp.second_ge, Timestamp.second_le, Timestamp.zero_nanos_lt⟩ }

theorem stateId_determines_agentState :
    agentState.hashLen boolJson true = (agentState.updateHash boolJson true).length ∧
    ((agentState.preimage boolJson true = secondLater.preimage boolJson true →
      agentState.covered = secondLater.covered) ↔ ¬DifferInSubseconds agentState secondLater) := by
  have h := stateId_determines_iff boolJson boolJson_injective
  exact ⟨h.1 _ _, h.2 _ _ _ _ (agentState_framed _) (agentState_framed _) nofun nofun (.inl rfl)⟩

def nullInName : State Bool := epochState ⟨⟨[97, 0, 98], [99]⟩, none⟩

def nullInEmail : State Bool := epochState ⟨⟨[97], [98, 0, 99]⟩, none⟩

def halfSecondLater : State Bool :=
  { nullInName with createdAt := ⟨0, 500000000, Timestamp.epoch_ge, Timestamp.epoch_le, by decide⟩ }

def writtenAgentState : State Bool :=
  { agentState with
    committerTzOffset := 16777216
    authoredAt := some ⟨1, 0, Timestamp.second_ge, Timestamp.second_le, Timestamp.zero_nanos_lt⟩
    rawMessage := some (List.replicate 247 0) }

def shiftedAgentState : State Bool :=
  { agentState with
    rawMessage := some ([0, 0, 0, 0, 0, 1, 247, 0, 0, 0] ++ List.replicate 247 0) }

/-- A null byte moves the end of a text, the part of a second is not hashed, and the two forms of
agent states overlap. -/
theorem stateId_collisions :
    (nullInName.preimage boolJson true = nullInEmail.preimage boolJson true ∧
      nullInName.covered ≠ nullInEmail.covered) ∧
    (nullInName.preimage boolJson true = halfSecondLater.preimage boolJson true ∧
      nullInName.covered ≠ halfSecondLater.covered) ∧
    writtenAgentState.preimage boolJson true = shiftedAgentState.preimage boolJson false ∧
      shiftedAgentState.unpublishedCursor = true ∧
      writtenAgentState.covered ≠ shiftedAgentState.covered := by
  refine ⟨⟨?_, ?_⟩, ⟨?_, ?_⟩, ?_, ?_, ?_⟩ <;> decide +kernel

end StateId

end Heddle
