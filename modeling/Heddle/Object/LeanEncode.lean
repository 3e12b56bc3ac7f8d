import Heddle.Object.CanonicalBody
import Heddle.Object.LeanCodec

namespace Heddle
open Heddle.Lib List

section Encode

def sharedPrefix (left right : String) : Nat :=
  (((utf8 left).zip (utf8 right)).takeWhile fun p => p.1 = p.2).length

def encodeSharedName (previous name : String) : Bytes :=
  putVarint (sharedPrefix previous name) ++
    (putVarint ((utf8 name).length - sharedPrefix previous name) ++
      (utf8 name).drop (sharedPrefix previous name))

def TreeEntryTarget.compactPayload : TreeEntryTarget ContentHash → Bytes
  | .blob hash _ => hash.asBytes
  | .tree hash => hash.asBytes
  | .symlink hash => hash.asBytes
  | .gitlink target => gitFormatToTag target.format :: target.asBytes
  | .spoollink spoolId stateId =>
    putVarint (utf8 spoolId.text).length ++ (utf8 spoolId.text ++ stateId.bytes.toList)

/-- The kind in the low three bits, the mode above it. -/
def compactTag (mode : FileMode) (kind : EntryType) : UInt8 := mode.toByte <<< 3 ||| kind.toByte

def encodeLeanEntry (e : TreeEntry ContentHash) (previous : String) :
    Except TreeStreamError Bytes := do
  refuse e.gitMode.isSome
    (.malformed ("compact entry '" ++ e.name ++ "' cannot carry a raw git mode"))
  return compactTag e.mode e.entryType ::
    (encodeSharedName previous e.name ++ e.target.compactPayload)

def encodeLeanFrom (previous : String) :
    List (TreeEntry ContentHash) → Except TreeStreamError Bytes
  | [] => .ok []
  | e :: es => do
    let bytes ← encodeLeanEntry e previous
    let rest ← encodeLeanFrom e.name es
    return bytes ++ rest

def Tree.hasGitLayout (t : Tree H) : Bool :=
  !t.sourcePositions.isEmpty || t.entries.any fun e => e.gitMode.isSome

def Tree.encodeLean (t : Tree ContentHash) : Except TreeStreamError Bytes := do
  refuse (t.scheme = .v4Salted)
    (.malformed "cannot encode a v4 salted tree as HLR1 lean; use HSR1")
  refuse t.hasGitLayout
    (.malformed "cannot encode a tree with a git source layout as HLR1 lean; use HTR4")
  liftTree t.validate
  let body ← encodeLeanFrom "" t.entries
  return treeLeanMagic ++ (putVarint t.entries.length ++ body)

end Encode

section Names

theorem takeWhile_zip_take [DecidableEq α] (xs ys : List α) :
    let shared := ((xs.zip ys).takeWhile fun p => p.1 = p.2).length
    xs.take shared = ys.take shared ∧ shared ≤ xs.length ∧ shared ≤ ys.length := by
  induction xs generalizing ys with
  | nil => exact ⟨rfl, Nat.zero_le _, Nat.zero_le _⟩
  | cons x xs ih =>
    cases ys with
    | nil => exact ⟨rfl, Nat.zero_le _, Nat.zero_le _⟩
    | cons y ys =>
      obtain ⟨htake, hxs, hys⟩ := ih ys
      by_cases heq : x = y
      · subst heq
        simp only [zip_cons_cons, takeWhile_cons, decide_true, if_true, length_cons,
          take_succ_cons]
        exact ⟨congrArg _ htake, Nat.succ_le_succ hxs, Nat.succ_le_succ hys⟩
      · simp [heq]

theorem sharedPrefix_take (left right : String) :
    (utf8 left).take (sharedPrefix left right) = (utf8 right).take (sharedPrefix left right) :=
  (takeWhile_zip_take _ _).1

theorem sharedPrefix_le_left (left right : String) :
    sharedPrefix left right ≤ (utf8 left).length :=
  (takeWhile_zip_take _ _).2.1

theorem sharedPrefix_le_right (left right : String) :
    sharedPrefix left right ≤ (utf8 right).length :=
  (takeWhile_zip_take _ _).2.2

theorem compactTag_mode (mode : FileMode) (kind : EntryType) :
    FileMode.fromByte (compactTag mode kind >>> 3) = some mode := by
  cases mode <;> cases kind <;> rfl

theorem compactTag_kind (mode : FileMode) (kind : EntryType) :
    EntryType.fromByte (compactTag mode kind &&& 7) = some kind := by
  cases mode <;> cases kind <;> rfl

end Names

section Read
variable {data : Bytes}

theorem sliceInput_byte (h : BytesAt data offset (b :: bytes)) :
    (sliceInput data).byte offset = .ok b :=
  orElseErr_eq_ok.2 h.cons.1

theorem sliceInput_field (hsize : data.length < 2 ^ 64) (h : BytesAt data offset bytes)
    (what : String) : (sliceInput data).field what offset bytes.length = .ok bytes := by
  have hle := h.le
  exact bind_eq_ok.2 ⟨(), refuse_eq_ok.2 (by omega), orElseErr_eq_ok.2 h.sliceAt⟩

theorem or_group (hlow : low < 2 ^ shift) (hbound : group * 2 ^ shift < 2 ^ 64) :
    low ||| (group <<< shift) % 2 ^ 64 = low + group * 2 ^ shift := by
  have hmod : (group <<< shift) % 2 ^ 64 = group <<< shift :=
    Nat.mod_eq_of_lt (by rwa [Nat.shiftLeft_eq])
  rw [hmod, or_shiftLeft_eq_add hlow]

theorem takeVarintFrom_putVarint (rounds i : Nat) (hlow : low < 2 ^ (7 * i))
    (hbound : low + value * 2 ^ (7 * i) < 2 ^ 64) (hrounds : i + rounds = 10)
    (hmore : i = 0 ∨ 0 < value) (h : BytesAt data offset (putVarint value)) :
    takeVarintFrom (sliceInput data).byte ((List.range' i rounds).map (7 * ·)) low offset =
      .ok (low + value * 2 ^ (7 * i), offset + (putVarint value).length) := by
  induction rounds generalizing i value low offset with
  | zero =>
    rcases hmore with hi | hpos
    · omega
    · obtain rfl : i = 10 := by omega
      omega
  | succ rounds ih =>
    rw [range'_succ, map_cons, takeVarintFrom]
    by_cases hlast : value < 0x80
    · obtain ⟨hend, hgroup⟩ := last_group_bits hlast
      rw [putVarint, if_pos hlast] at h ⊢
      apply bind_eq_ok.2
      refine ⟨_, sliceInput_byte h, ?_⟩
      simp only
      rw [if_pos hend, hgroup, or_group hlow (by omega)]
      rfl
    · obtain ⟨hnext, hgroup⟩ := group_bits value
      rw [putVarint, if_neg hlast] at h ⊢
      have hsplit : value * 2 ^ (7 * i) =
          value % 0x80 * 2 ^ (7 * i) + value / 0x80 * 2 ^ (7 * (i + 1)) := by
        have hpow : 2 ^ (7 * (i + 1)) = 0x80 * 2 ^ (7 * i) := by ring
        rw [hpow, ← Nat.mul_assoc, ← Nat.add_mul, Nat.mod_add_div']
      have hlow' : low + value % 0x80 * 2 ^ (7 * i) < 2 ^ (7 * (i + 1)) := by
        have hpow : 2 ^ (7 * (i + 1)) = 2 ^ (7 * i) + 0x7f * 2 ^ (7 * i) := by ring
        have hgroups : value % 0x80 * 2 ^ (7 * i) ≤ 0x7f * 2 ^ (7 * i) :=
          Nat.mul_le_mul_right _ (by omega)
        omega
      apply bind_eq_ok.2
      refine ⟨_, sliceInput_byte h, ?_⟩
      simp only
      rw [if_neg hnext, hgroup, or_group hlow (by omega),
        ih (i + 1) hlow' (by omega) (by omega) (.inr (by omega)) h.cons.2, length_cons]
      congr 2
      · omega
      · omega

theorem takeVarint_putVarint (hvalue : value < 2 ^ 64)
    (h : BytesAt data offset (putVarint value)) :
    (sliceInput data).takeVarint offset = .ok (value, offset + (putVarint value).length) := by
  have hread := takeVarintFrom_putVarint 10 0 (Nat.two_pow_pos _) (by omega) rfl (.inl rfl) h
  rw [Nat.mul_zero, pow_zero, Nat.mul_one, Nat.zero_add, ← range_eq_range'] at hread
  exact hread

theorem takeSharedName (hname : (utf8 name).length < 2 ^ 64)
    (h : BytesAt data offset (encodeSharedName previous name)) :
    ∃ mid start,
      (sliceInput data).takeVarint offset = .ok (sharedPrefix previous name, mid) ∧
      (sliceInput data).takeVarint mid =
        .ok ((utf8 name).length - sharedPrefix previous name, start) ∧
      BytesAt data start ((utf8 name).drop (sharedPrefix previous name)) ∧
      start + ((utf8 name).length - sharedPrefix previous name) =
        offset + (encodeSharedName previous name).length := by
  have hle := sharedPrefix_le_right previous name
  obtain ⟨hshared, hrest⟩ := BytesAt.append h
  obtain ⟨hlen, hsuffix⟩ := hrest.append
  have hsharedRead := takeVarint_putVarint (by omega) hshared
  have hlenRead := takeVarint_putVarint (by omega) hlen
  refine ⟨_, _, hsharedRead, hlenRead, hsuffix, ?_⟩
  simp only [encodeSharedName, length_append, length_drop]
  omega

theorem fromUtf8_sharedName (previous name : String) :
    fromUtf8 ((utf8 previous).take (sharedPrefix previous name) ++
      (utf8 name).drop (sharedPrefix previous name)) = some name := by
  rw [sharedPrefix_take, take_append_drop, fromUtf8_utf8]

section
variable (hsize : data.length < 2 ^ 64)
include hsize

theorem sliceInput_hash (hash : ContentHash)
    (h : BytesAt data offset hash.asBytes) (what : String) :
    (sliceInput data).field what offset 32 = .ok hash.asBytes := by
  have hread := sliceInput_field hsize h what
  rwa [ContentHash.asBytes_length] at hread

theorem sliceSpoollink_compactPayload (h : BytesAt data offset
      (TreeEntryTarget.spoollink spoolId stateId).compactPayload) :
    sliceSpoollink data offset = .ok ((spoolId, stateId),
      offset + (TreeEntryTarget.spoollink spoolId stateId).compactPayload.length) := by
  obtain ⟨hlen, hrest⟩ := BytesAt.append h
  obtain ⟨htext, hstate⟩ := hrest.append
  have hle := htext.le
  have hlenRead := takeVarint_putVarint (by omega) hlen
  have hstateRead := sliceInput_hash hsize ⟨stateId.bytes⟩ hstate "compact state"
  apply bind_eq_ok.2
  refine ⟨_, hlenRead, bind_eq_ok.2 ⟨_, sliceInput_field hsize htext _, ?_⟩⟩
  refine bind_eq_ok.2 ⟨_, orElseErr_eq_ok.2 (fromUtf8_utf8 _), ?_⟩
  refine bind_eq_ok.2 ⟨_, hstateRead, ?_⟩
  refine bind_eq_ok.2 ⟨_, orElseErr_eq_ok.2 (ContentHash.ofSlice_asBytes _), ?_⟩
  refine bind_eq_ok.2 ⟨spoolId, by rw [SpoolId.parse_text]; rfl, ?_⟩
  have hlength : (ContentHash.mk stateId.bytes).asBytes.length = 32 := ContentHash.asBytes_length _
  simp only [pure_eq_ok, TreeEntryTarget.compactPayload, length_append, Vector.length_toList]
  congr 2
  omega

theorem compactTarget_payload (hname : validateName name = .ok ())
    (h : BytesAt data offset target.compactPayload) :
    compactTarget (sliceInput data) (sliceSpoollink data) name target.entryType target.mode offset =
      .ok ({ name := name, target := target }, offset + target.compactPayload.length) := by
  have hchecked : ∀ target : TreeEntryTarget ContentHash,
      liftTree (TreeEntry.withChecked name target) = .ok { name := name, target := target } :=
    fun target => liftTree_eq_ok.2 (withChecked_ok_iff.2 ⟨hname, rfl⟩)
  cases target with
  | blob hash executable =>
    refine bind_eq_ok.2 ⟨hash, bind_eq_ok.2 ⟨_, sliceInput_hash hsize hash h _,
      orElseErr_eq_ok.2 (ContentHash.ofSlice_asBytes _)⟩, ?_⟩
    have hmode : decide ((TreeEntryTarget.blob hash executable).mode = .executable) =
        executable := by
      cases executable
      · rfl
      · rfl
    rw [TreeEntry.file, hmode]
    refine bind_eq_ok.2 ⟨_, hchecked _, ?_⟩
    rw [TreeEntryTarget.compactPayload, ContentHash.asBytes_length]
    rfl
  | tree hash =>
    refine bind_eq_ok.2 ⟨hash, bind_eq_ok.2 ⟨_, sliceInput_hash hsize hash h _,
      orElseErr_eq_ok.2 (ContentHash.ofSlice_asBytes _)⟩, ?_⟩
    refine bind_eq_ok.2 ⟨_, hchecked _, ?_⟩
    rw [TreeEntryTarget.compactPayload, ContentHash.asBytes_length]
    rfl
  | symlink hash =>
    refine bind_eq_ok.2 ⟨hash, bind_eq_ok.2 ⟨_, sliceInput_hash hsize hash h _,
      orElseErr_eq_ok.2 (ContentHash.ofSlice_asBytes _)⟩, ?_⟩
    refine bind_eq_ok.2 ⟨_, hchecked _, ?_⟩
    rw [TreeEntryTarget.compactPayload, ContentHash.asBytes_length]
    rfl
  | gitlink target =>
    have hoid := sliceInput_field hsize h.cons.2 "compact gitlink length"
    rw [GitObjectId.asBytes_length] at hoid
    refine bind_eq_ok.2 ⟨_, sliceInput_byte h, ?_⟩
    refine bind_eq_ok.2 ⟨_, liftTree_eq_ok.2 (gitFormatFromTag_toTag _), ?_⟩
    refine bind_eq_ok.2 ⟨_, hoid, ?_⟩
    refine bind_eq_ok.2 ⟨_, orElseErr_eq_ok.2 target.fromRaw_asBytes, ?_⟩
    refine bind_eq_ok.2 ⟨_, hchecked _, ?_⟩
    rw [TreeEntryTarget.compactPayload, length_cons, GitObjectId.asBytes_length, pure_eq_ok]
    congr 2
    omega
  | spoollink spoolId stateId =>
    refine bind_eq_ok.2 ⟨_, sliceSpoollink_compactPayload hsize h, ?_⟩
    exact bind_eq_ok.2 ⟨_, hchecked _, rfl⟩

theorem decodeCompactEntry_encode
    (hname : validateName e.name = .ok ()) (hencode : encodeLeanEntry e previous = .ok bytes)
    (h : BytesAt data offset bytes) :
    decodeCompactEntry data offset previous = .ok (e, offset + bytes.length) := by
  obtain ⟨_, hraw, hbytes⟩ := bind_eq_ok.1 hencode
  have hmode : e.gitMode = none := by simpa using refuse_eq_ok.1 hraw
  cases hbytes
  have hentry : e = { name := e.name, target := e.target } := by
    cases e
    simp only at hmode
    rw [hmode]
  have hlen := validateName_length hname
  obtain ⟨hnameAt, hpayloadAt⟩ := h.cons.2.append
  obtain ⟨mid, start, hshared, hsuffix, hsuffixAt, hend⟩ := takeSharedName (by omega) hnameAt
  have hsuffixRead := sliceInput_field hsize hsuffixAt "compact name length"
  rw [length_drop] at hsuffixRead
  rw [← hend] at hpayloadAt
  refine bind_eq_ok.2 ⟨_, sliceInput_byte h, ?_⟩
  refine bind_eq_ok.2 ⟨_, orElseErr_eq_ok.2 (compactTag_mode _ _), ?_⟩
  refine bind_eq_ok.2 ⟨_, orElseErr_eq_ok.2 (compactTag_kind _ _), ?_⟩
  refine bind_eq_ok.2 ⟨_, hshared, bind_eq_ok.2 ⟨_, hsuffix, ?_⟩⟩
  refine bind_eq_ok.2 ⟨(), refuse_eq_ok.2 (not_lt.2 (sharedPrefix_le_left _ _)), ?_⟩
  refine bind_eq_ok.2 ⟨_, hsuffixRead, ?_⟩
  refine bind_eq_ok.2 ⟨_, orElseErr_eq_ok.2 (fromUtf8_sharedName _ _), ?_⟩
  refine bind_eq_ok.2 ⟨_, compactTarget_payload hsize hname hpayloadAt, ?_⟩
  refine bind_eq_ok.2 ⟨(), refuse_eq_ok.2 (not_not.2 rfl), ?_⟩
  rw [← hentry, pure_eq_ok, hend, length_cons, length_append]
  congr 2
  omega

end

end Read

section Body
variable {data : Bytes}

theorem encodeLeanEntry_ok_iff :
    encodeLeanEntry e previous = .ok bytes ↔ e.gitMode = none ∧
      bytes = compactTag e.mode e.entryType ::
        (encodeSharedName previous e.name ++ e.target.compactPayload) := by
  simp only [encodeLeanEntry, bind_eq_ok, refuse_eq_ok, pure_eq_ok, Except.ok.injEq,
    Bool.not_eq_true, Option.isSome_eq_false_iff, Option.isNone_iff_eq_none]
  apply Iff.intro
  · intro h
    obtain ⟨_, hmode, hbytes⟩ := h
    exact ⟨hmode, hbytes.symm⟩
  · intro h
    exact ⟨(), h.1, h.2.symm⟩

end Body

section Tree
variable (blake3 : Bytes → ContentHash) {t : Tree ContentHash}

theorem Tree.hasGitLayout_iff {t : Tree H} :
    t.hasGitLayout = false ↔ t.sourcePositions = [] ∧ ∀ e ∈ t.entries, e.gitMode = none := by
  simp only [hasGitLayout, Bool.or_eq_false_iff, Bool.not_eq_false', List.isEmpty_iff,
    any_eq_false, Bool.not_eq_true, Option.isSome_eq_false_iff, Option.isNone_iff_eq_none]

theorem Tree.eq_of_plain (hvalid : t.validate = .ok ()) (hscheme : t.scheme = .v3Flat)
    (hlayout : t.hasGitLayout = false) : t = { entries := t.entries } := by
  have hpositions := (hasGitLayout_iff.1 hlayout).1
  have hsalts : t.salts = [] := by
    simp only [validate, validateScheme, hscheme] at hvalid
    by_contra hne
    simp [hne] at hvalid
  cases t
  simp only at hscheme hpositions hsalts
  rw [hscheme, hpositions, hsalts]

theorem TreeScheme.ne_salted {scheme : TreeScheme} : ¬scheme = .v4Salted ↔ scheme = .v3Flat := by
  cases scheme
  · simp
  · simp

end Tree

section LeanRoundTrip
variable {data : Bytes} {t : Tree ContentHash}

theorem length_le_encodeLeanFrom (h : encodeLeanFrom previous es = .ok bytes) :
    es.length ≤ bytes.length := by
  induction es generalizing previous bytes with
  | nil => exact Nat.zero_le _
  | cons e es ih =>
    obtain ⟨entry, hentry, h⟩ := bind_eq_ok.1 h
    obtain ⟨rest, hrest, h⟩ := bind_eq_ok.1 h
    cases h
    have hle := ih hrest
    rw [(encodeLeanEntry_ok_iff.1 hentry).2, length_append, length_cons, length_cons]
    omega

/-- However many entries are wanted, the decoder finds the first of those that were written. -/
theorem decodeLeanFrom_encode (entries : List (TreeEntry ContentHash))
    (hsize : data.length < 2 ^ 64)
    (hnames : ∀ e ∈ es, validateName e.name = .ok ())
    (hsorted : es.Pairwise fun a b => a.name < b.name)
    (hprevious : previous ≠ "" → ∀ e ∈ es, previous < e.name)
    (hencode : encodeLeanFrom previous es = .ok bytes) (h : BytesAt data offset bytes)
    (hn : n ≤ es.length) :
    ∃ next, decodeLeanFrom data n previous offset entries = .ok (entries ++ es.take n, next) ∧
      (n = es.length → next = offset + bytes.length) := by
  induction es generalizing n previous bytes offset entries with
  | nil =>
    obtain rfl : n = 0 := Nat.le_zero.1 hn
    cases hencode
    exact ⟨offset, by rw [decodeLeanFrom, take_nil, append_nil], fun _ => rfl⟩
  | cons e es ih =>
    obtain ⟨entry, hentry, hencode⟩ := bind_eq_ok.1 hencode
    obtain ⟨rest, hrest, hencode⟩ := bind_eq_ok.1 hencode
    cases hencode
    cases n with
    | zero => exact ⟨offset, by rw [decodeLeanFrom, take_zero, append_nil], fun h => by cases h⟩
    | succ n =>
      obtain ⟨hname, hnames⟩ := forall_mem_cons.1 hnames
      obtain ⟨hfirst, hsorted⟩ := pairwise_cons.1 hsorted
      obtain ⟨hentryAt, hrestAt⟩ := h.append
      obtain ⟨next, hread, hend⟩ := @ih e.name rest _ n (entries ++ [e]) hnames hsorted
        (fun _ => hfirst) hrest hrestAt (Nat.le_of_succ_le_succ hn)
      refine ⟨next, ?_, fun hlen => ?_⟩
      · refine bind_eq_ok.2 ⟨_, decodeCompactEntry_encode hsize hname hentry hentryAt, ?_⟩
        refine bind_eq_ok.2 ⟨(), refuse_eq_ok.2 fun hbad => ?_, ?_⟩
        · exact absurd (hprevious hbad.1 e mem_cons_self) (not_lt.2 hbad.2)
        · rw [hread, take_succ_cons, append_assoc, singleton_append]
      · rw [hend (Nat.succ.inj hlen), length_append]
        omega

theorem isLeanTree_encode : isLeanTree (treeLeanMagic ++ bytes) := by
  rw [isLeanTree, decide_eq_true_eq]
  rfl

theorem decodeLeanEntries_encode
    (hsize : (treeLeanMagic ++ (putVarint es.length ++ body)).length < 2 ^ 64)
    (hnames : ∀ e ∈ es, validateName e.name = .ok ())
    (hsorted : es.Pairwise fun a b => a.name < b.name) (hbody : encodeLeanFrom "" es = .ok body)
    (wanted : Nat) :
    ∃ next, decodeLeanEntries (treeLeanMagic ++ (putVarint es.length ++ body)) wanted =
        .ok (es.take wanted, next) ∧
      (es.length ≤ wanted → next = (treeLeanMagic ++ (putVarint es.length ++ body)).length) := by
  have hfield : BytesAt (treeLeanMagic ++ (putVarint es.length ++ body)) 4
      (putVarint es.length ++ body) := ⟨treeLeanMagic, [], by rw [append_nil], rfl⟩
  have hcount : es.length < 2 ^ 64 := by
    have := length_le_encodeLeanFrom hbody
    simp only [length_append] at hsize
    omega
  obtain ⟨next, hread, hend⟩ := decodeLeanFrom_encode [] hsize hnames hsorted
    (fun h => absurd rfl h) hbody hfield.append.2 (Nat.min_le_right wanted es.length)
  have hfull : min wanted es.length = es.length →
      next = (treeLeanMagic ++ (putVarint es.length ++ body)).length := by
    intro hmin
    rw [hend hmin, length_append, length_append, ← Nat.add_assoc]
    rfl
  refine ⟨next, ?_, fun h => hfull (Nat.min_eq_right h)⟩
  refine bind_eq_ok.2 ⟨(), refuse_eq_ok.2 (not_not.2 isLeanTree_encode), ?_⟩
  refine bind_eq_ok.2 ⟨_, takeVarint_putVarint hcount hfield.append.1, ?_⟩
  refine bind_eq_ok.2 ⟨_, hread, bind_eq_ok.2 ⟨(), refuse_eq_ok.2 fun h => h.2 (hfull h.1), ?_⟩⟩
  rw [nil_append, ← take_eq_take_min]
  rfl

/-- A lean body gives its tree back, and a preview of it the first entries of the tree. -/
theorem Tree.decodeLean_encodeLean (blake3 : Bytes → ContentHash)
    (hencode : t.encodeLean = .ok bytes) (hsize : bytes.length < 2 ^ 64) :
    decodeLean blake3 bytes (t.hash blake3) = .ok t ∧
      ∀ wanted, ∃ next, decodeLeanEntries bytes wanted = .ok (t.entries.take wanted, next) := by
  obtain ⟨_, hscheme, hencode⟩ := bind_eq_ok.1 hencode
  obtain ⟨_, hlayout, hencode⟩ := bind_eq_ok.1 hencode
  obtain ⟨_, hvalid, hencode⟩ := bind_eq_ok.1 hencode
  obtain ⟨body, hbody, hencode⟩ := bind_eq_ok.1 hencode
  cases hencode
  have hvalid := liftTree_eq_ok.1 hvalid
  have hplain := Tree.eq_of_plain hvalid (TreeScheme.ne_salted.1 (refuse_eq_ok.1 hscheme))
    (Bool.eq_false_of_not_eq_true (refuse_eq_ok.1 hlayout))
  obtain ⟨hentries, hsorted⟩ := Tree.validate_entries hvalid
  have hpages := decodeLeanEntries_encode hsize
    (fun e he => TreeEntry.validate_name (hentries e he)) hsorted hbody
  refine ⟨?_, fun wanted => (hpages wanted).imp fun _ => And.left⟩
  obtain ⟨next, hread, hend⟩ := hpages usizeMax
  have hle : t.entries.length ≤ usizeMax := by
    have := length_le_encodeLeanFrom hbody
    simp only [length_append] at hsize
    unfold usizeMax
    omega
  refine bind_eq_ok.2 ⟨_, hread, bind_eq_ok.2 ⟨(), refuse_eq_ok.2 (not_not.2 (hend hle)), ?_⟩⟩
  refine bind_eq_ok.2 ⟨t, liftTree_eq_ok.2 (tryFromDecodedLayout_ok_iff.2 ⟨?_, hvalid⟩), ?_⟩
  · rwa [take_of_length_le hle]
  · exact bind_eq_ok.2 ⟨(), refuse_eq_ok.2 (not_not.2 rfl), rfl⟩

def sharedNames : Tree ContentHash where
  entries := [{ name := "ab", target := .tree ⟨Vector.replicate 32 0⟩ },
    { name := "abc", target := .symlink ⟨Vector.replicate 32 1⟩ }]

theorem Tree.decodeLean_encodeLean_sharedNames : ∃ bytes, sharedNames.encodeLean = .ok bytes ∧
    ∀ blake3, decodeLean blake3 bytes (sharedNames.hash blake3) = .ok sharedNames ∧
      ∀ wanted, ∃ next,
        decodeLeanEntries bytes wanted = .ok (sharedNames.entries.take wanted, next) :=
  ⟨_, rfl, fun blake3 => Tree.decodeLean_encodeLean blake3 rfl (by decide +kernel)⟩

end LeanRoundTrip
end Heddle
