import Heddle.Object.Encoding
import Heddle.Lib.Fold

namespace Heddle
open Heddle.Lib List

inductive TreeStreamError where
  | invalid (error : TreeError)
  | unsupportedVersion (found : UInt8)
  | cursorMismatch (message : String)
  | truncatedFrame (offset : Nat)
  | trailingBytes (extra : Nat)
  | unexpectedEof (expected decoded : Nat)
  | oversizedEntry (decodedBytes maxDecodedBytes : Nat)
  | invalidPageLimits
  | unverifiedRange
  | malformed (message : String)
  | compression (message : String)
  | hashMismatch (expected found : ContentHash)
  deriving DecidableEq

def orElseErr (e : ε) : Option α → Except ε α
  | some a => .ok a
  | none => .error e

@[simp] theorem orElseErr_some : orElseErr e (some a) = .ok a := rfl

@[simp] theorem orElseErr_eq_ok : orElseErr e x = .ok a ↔ x = some a := by
  cases x with
  | none => exact ⟨fun h => (nomatch h), fun h => (nomatch h)⟩
  | some b => simp only [orElseErr, Except.ok.injEq, Option.some.injEq]

def mapErr (f : ε → δ) : Except ε α → Except δ α
  | .ok a => .ok a
  | .error e => .error (f e)

@[simp] theorem mapErr_eq_ok : mapErr f x = .ok a ↔ x = .ok a := by
  cases x with
  | error e => exact ⟨fun h => (nomatch h), fun h => (nomatch h)⟩
  | ok b => simp only [mapErr, Except.ok.injEq]

def liftTree (x : Except TreeError α) : Except TreeStreamError α := mapErr .invalid x

@[simp] theorem liftTree_eq_ok : liftTree x = .ok a ↔ x = .ok a :=
  mapErr_eq_ok

def refuse (p : Prop) [Decidable p] (e : ε) : Except ε Unit :=
  if p then .error e else .ok ()

@[simp] theorem refuse_eq_ok [Decidable p] : refuse p e = .ok u ↔ ¬p := by
  rw [refuse]
  split
  · exact ⟨fun h => (nomatch h), fun h => absurd ‹p› h⟩
  · exact ⟨fun _ => ‹¬p›, fun _ => rfl⟩

theorem refuse_eq_error [Decidable p] :
    refuse p e = .error e' ↔ p ∧ e = e' := by
  unfold refuse
  split
  · rename_i hp
    exact ⟨fun h => ⟨hp, Except.error.inj h⟩, fun h => by rw [h.2]⟩
  · rename_i hp
    exact ⟨nofun, fun h => absurd h.1 hp⟩

section Encode

def encodeTarget : TreeEntryTarget ContentHash → Except TreeStreamError Bytes
  | .blob hash _ => .ok hash.asBytes
  | .tree hash => .ok hash.asBytes
  | .symlink hash => .ok hash.asBytes
  | .gitlink target => .ok (gitFormatToTag target.format :: target.asBytes)
  | .spoollink spoolId stateId =>
    let spoolBytes := utf8 spoolId.text
    if spoolBytes.length > 65535 then .error (.malformed "spool id exceeds u16")
    else .ok (leBytes 2 spoolBytes.length ++ spoolBytes ++ stateId.bytes.toList)

def encodeEntryFrame (e : TreeEntry ContentHash) (sourcePosition : Option UInt32) :
    Except TreeStreamError Bytes := do
  let name := utf8 e.name
  refuse (name.length > 65535) (.malformed ("entry name '" ++ e.name ++ "' exceeds u16"))
  let target ← encodeTarget e.target
  return (e.mode.toByte ||| e.layoutFlags sourcePosition) :: e.entryType.toByte ::
    (leBytes 2 name.length ++ name ++ target ++ e.layoutTrailer sourcePosition)

end Encode

section Decode

def takeHash (payload : Bytes) : Except TreeStreamError ContentHash :=
  orElseErr (.malformed "malformed tree entry object id") (ContentHash.ofSlice payload)

def decodeGitlink (name : String) (payload : Bytes) :
    Except TreeStreamError (TreeEntry ContentHash) :=
  match payload with
  | [] => .error (.malformed "malformed tree entry object id")
  | tag :: oid => do
    let format ← liftTree (gitFormatFromTag tag)
    refuse (oid.length ≠ format.rawLen) (.malformed "malformed tree entry object id")
    let target ← orElseErr (.invalid (.invalidStructure "invalid gitlink target: "))
      (GitObjectId.fromRaw format oid)
    liftTree (TreeEntry.gitlink name target)

def decodeSpoollink (name : String) (payload : Bytes) :
    Except TreeStreamError (TreeEntry ContentHash) := do
  refuse (payload.length < 2) (.truncatedFrame 0)
  let spoolLen := ofLeBytes (payload.take 2)
  refuse (payload.length ≠ 2 + spoolLen + 32) (.malformed "malformed tree entry object id")
  let spool ← orElseErr (.malformed "spool id is not UTF-8")
    (fromUtf8 ((payload.drop 2).take spoolLen))
  let spoolId ← mapErr (fun err => .malformed ("invalid spool id: " ++ err)) (SpoolId.parse spool)
  let state ← orElseErr (.malformed "spoollink state id is not 32 bytes")
    (ContentHash.ofSlice (payload.drop (2 + spoolLen)))
  liftTree (TreeEntry.spoollink name spoolId ⟨state.bytes⟩)

def decodeTarget (name : String) (kind : EntryType) (mode : FileMode) (payload : Bytes) :
    Except TreeStreamError (TreeEntry ContentHash) :=
  match kind with
  | .blob => do
    let hash ← takeHash payload
    liftTree (TreeEntry.file name hash (mode = .executable))
  | .tree => do
    let hash ← takeHash payload
    liftTree (TreeEntry.directory name hash)
  | .symlink => do
    let hash ← takeHash payload
    liftTree (TreeEntry.symlink name hash)
  | .gitlink => decodeGitlink name payload
  | .spoollink => decodeSpoollink name payload

def malformedTrailer : TreeError :=
  .invalidStructure "malformed tree entry layout trailer"

def takeRawGitMode (e : TreeEntry ContentHash) (trailer : Bytes) :
    Except TreeError (TreeEntry ContentHash) :=
  let value := UInt32.ofNat (ofLeBytes (trailer.take 4))
  if h : value ≠ 0 then do
    let mode : RawGitMode := ⟨value, (trailer.drop 4).headD 0, h⟩
    e.checkRawGitMode mode
    return { e with gitMode := some mode }
  else .error malformedTrailer

def takeSourcePosition (flags : UInt8) (rest : Bytes) : Option UInt32 :=
  if flags &&& entryFlagSourcePosition ≠ 0 then some (UInt32.ofNat (ofLeBytes rest)) else none

def applyLayoutTrailer (e : TreeEntry ContentHash) (flags : UInt8) (trailer : Bytes) :
    Except TreeError (TreeEntry ContentHash × Option UInt32) :=
  if trailer.length ≠ layoutTrailerLen flags then .error malformedTrailer
  else if flags &&& entryFlagRawGitMode ≠ 0 then do
    let e ← takeRawGitMode e trailer
    return (e, takeSourcePosition flags (trailer.drop 5))
  else .ok (e, takeSourcePosition flags trailer)

def decodeEntryFrame (frame : Bytes) :
    Except TreeStreamError (TreeEntry ContentHash × Option UInt32) :=
  match frame with
  | modeFlags :: kindByte :: len₀ :: len₁ :: body => do
    let flags := (splitLayoutFlags modeFlags).1
    let mode ← orElseErr
      (.malformed ("malformed tree entry mode " ++ toString modeFlags.toNat))
      (FileMode.fromByte (splitLayoutFlags modeFlags).2)
    let kind ← orElseErr
      (.malformed ("malformed tree entry kind " ++ toString kindByte.toNat))
      (EntryType.fromByte kindByte)
    let nameLen := ofLeBytes [len₀, len₁]
    refuse (body.length < nameLen) (.truncatedFrame 0)
    let name ← orElseErr (.malformed "tree entry name is not UTF-8") (fromUtf8 (body.take nameLen))
    refuse (body.length < nameLen + layoutTrailerLen flags) (.truncatedFrame 0)
    let targetEnd := body.length - layoutTrailerLen flags
    let entry ← decodeTarget name kind mode ((body.take targetEnd).drop nameLen)
    refuse (entry.mode ≠ mode) (.malformed ("tree kind/mode mismatch for " ++ entry.name ++ ": " ++
      kind.debug ++ "/" ++ mode.debug))
    liftTree (applyLayoutTrailer entry flags (body.drop targetEnd))
  | _ => .error (.truncatedFrame 0)

end Decode

section Roundtrip

theorem u32_of_bytes (v : UInt32) : UInt32.ofNat (ofLeBytes (leBytes 4 v.toNat)) = v := by
  rw [ofLeBytes_leBytes v.toNat_lt, UInt32.ofNat_toNat]

theorem bytes_of_u32 (h : bytes.length = 4) :
    leBytes 4 (UInt32.ofNat (ofLeBytes bytes)).toNat = bytes := by
  have hlt := ofLeBytes_lt bytes
  rw [h] at hlt
  rw [UInt32.toNat_ofNat_of_lt' hlt, leBytes_of_length h]

theorem fromUtf8_eq_some : fromUtf8 bytes = some s ↔ utf8 s = bytes := by
  constructor
  · exact utf8_of_fromUtf8
  · rintro rfl
    exact fromUtf8_utf8 s

theorem ContentHash.ofSlice_eq_some {hash : ContentHash} :
    ContentHash.ofSlice slice = some hash ↔ hash.asBytes = slice := by
  constructor
  · exact ContentHash.asBytes_of_ofSlice
  · rintro rfl
    exact ContentHash.ofSlice_asBytes hash

theorem withChecked_ok_iff : TreeEntry.withChecked name target = .ok e ↔
      validateName name = .ok () ∧ e = { name := name, target := target } := by
  constructor
  · exact TreeEntry.withChecked_ok
  · rintro ⟨hname, rfl⟩
    simp only [TreeEntry.withChecked, hname]

def TargetOf (kind : EntryType) (mode : FileMode) (payload : Bytes)
    (target : TreeEntryTarget ContentHash) : Prop :=
  target.entryType = kind ∧ target.mode = mode ∧ encodeTarget target = .ok payload

theorem decodeGitlink_ok_iff :
    decodeGitlink name payload = .ok e ↔ validateName name = .ok () ∧
      ∃ target, e = { name := name, target := .gitlink target } ∧
        payload = gitFormatToTag target.format :: target.asBytes := by
  cases payload with
  | nil =>
    constructor
    · intro h
      cases h
    · rintro ⟨_, target, _, h⟩
      cases h
  | cons tag oid =>
    simp only [decodeGitlink, bind_eq_ok, liftTree_eq_ok, orElseErr_eq_ok, refuse_eq_ok, not_not,
      TreeEntry.gitlink, withChecked_ok_iff]
    constructor
    · rintro ⟨format, hformat, _, hlen, target, htarget, hname, rfl⟩
      obtain ⟨rfl, rfl⟩ := GitObjectId.asBytes_of_fromRaw htarget
      exact ⟨hname, target, rfl, by rw [gitFormatToTag_of_fromTag hformat]⟩
    · rintro ⟨hname, target, rfl, hpayload⟩
      simp only [List.cons.injEq] at hpayload
      obtain ⟨rfl, rfl⟩ := hpayload
      exact ⟨target.format, gitFormatFromTag_toTag _, (), target.asBytes_length, target,
        target.fromRaw_asBytes, hname, rfl⟩

theorem decodeSpoollink_ok_iff :
    decodeSpoollink name payload = .ok e ↔ validateName name = .ok () ∧
      ∃ spoolId stateId, e = { name := name, target := .spoollink spoolId stateId } ∧
        (utf8 spoolId.text).length ≤ 65535 ∧
        payload = leBytes 2 (utf8 spoolId.text).length ++ utf8 spoolId.text ++
          stateId.bytes.toList := by
  simp only [decodeSpoollink, bind_eq_ok, liftTree_eq_ok, refuse_eq_ok, orElseErr_eq_ok,
    mapErr_eq_ok, fromUtf8_eq_some, ContentHash.ofSlice_eq_some, not_not, not_lt, TreeEntry.spoollink,
    withChecked_ok_iff]
  constructor
  · rintro ⟨_, htwo, _, hlen, spool, hspool, spoolId, hid, state, hstate, hname, rfl⟩
    have htext := SpoolId.text_of_parse hid
    have hcount : (payload.take 2).length = 2 := by
      rw [length_take]
      omega
    have hbound := ofLeBytes_lt (payload.take 2)
    rw [hcount] at hbound
    have hspoolLen : (utf8 spool).length = ofLeBytes (payload.take 2) := by
      rw [hspool, length_take, length_drop]
      omega
    refine ⟨hname, spoolId, ⟨state.bytes⟩, rfl, ?_, ?_⟩
    · rw [htext, hspoolLen]
      omega
    · have hrest : payload.drop (2 + ofLeBytes (payload.take 2)) = state.bytes.toList :=
        hstate.symm
      rw [htext, hspoolLen, leBytes_of_length hcount, hspool, ← hrest, ← drop_drop,
        append_assoc, take_append_drop, take_append_drop]
  · rintro ⟨hname, spoolId, stateId, rfl, hshort, rfl⟩
    have htake : (leBytes 2 (utf8 spoolId.text).length ++ utf8 spoolId.text ++
        stateId.bytes.toList).take 2 = leBytes 2 (utf8 spoolId.text).length := by
      rw [append_assoc]
      exact take_left' (length_leBytes _ _)
    have hdrop : (leBytes 2 (utf8 spoolId.text).length ++ utf8 spoolId.text ++
        stateId.bytes.toList).drop 2 = utf8 spoolId.text ++ stateId.bytes.toList := by
      rw [append_assoc]
      exact drop_left' (length_leBytes _ _)
    have hcount : ofLeBytes (leBytes 2 (utf8 spoolId.text).length) = (utf8 spoolId.text).length :=
      ofLeBytes_leBytes (by omega)
    rw [htake, hcount, hdrop, ← drop_drop, hdrop, take_left, drop_left]
    refine ⟨(), ?_, (), ?_, spoolId.text, rfl, spoolId, spoolId.parse_text, ⟨stateId.bytes⟩, rfl, hname,
      rfl⟩
    · simp only [length_append, length_leBytes]
      omega
    · simp only [length_append, length_leBytes, Vector.length_toList]

theorem decodeTarget_ok_iff :
    decodeTarget name kind mode payload = .ok e ∧ e.mode = mode ↔
      validateName name = .ok () ∧ e = { name := name, target := e.target } ∧
        TargetOf kind mode payload e.target := by
  cases kind with
  | blob =>
    simp only [decodeTarget, takeHash, bind_eq_ok, liftTree_eq_ok, orElseErr_eq_ok,
      ContentHash.ofSlice_eq_some, TreeEntry.file, withChecked_ok_iff]
    constructor
    · rintro ⟨⟨hash, rfl, hname, rfl⟩, hmode⟩
      exact ⟨hname, rfl, rfl, hmode, rfl⟩
    · rintro ⟨hname, he, hkind, hmode, hpayload⟩
      cases ht : e.target with
      | blob hash executable =>
        rw [ht] at he hmode hpayload
        cases hpayload
        subst he
        refine ⟨⟨hash, rfl, hname, ?_⟩, hmode⟩
        rw [← hmode]
        cases executable <;> rfl
      | tree | symlink | gitlink | spoollink =>
        rw [ht] at hkind
        cases hkind
  | tree =>
    simp only [decodeTarget, takeHash, bind_eq_ok, liftTree_eq_ok, orElseErr_eq_ok,
      ContentHash.ofSlice_eq_some, TreeEntry.directory, withChecked_ok_iff]
    constructor
    · rintro ⟨⟨hash, rfl, hname, rfl⟩, hmode⟩
      exact ⟨hname, rfl, rfl, hmode, rfl⟩
    · rintro ⟨hname, he, hkind, hmode, hpayload⟩
      cases ht : e.target with
      | tree hash =>
        rw [ht] at he hmode hpayload
        cases hpayload
        subst he
        exact ⟨⟨hash, rfl, hname, rfl⟩, hmode⟩
      | blob | symlink | gitlink | spoollink =>
        rw [ht] at hkind
        cases hkind
  | symlink =>
    simp only [decodeTarget, takeHash, bind_eq_ok, liftTree_eq_ok, orElseErr_eq_ok,
      ContentHash.ofSlice_eq_some, TreeEntry.symlink, withChecked_ok_iff]
    constructor
    · rintro ⟨⟨hash, rfl, hname, rfl⟩, hmode⟩
      exact ⟨hname, rfl, rfl, hmode, rfl⟩
    · rintro ⟨hname, he, hkind, hmode, hpayload⟩
      cases ht : e.target with
      | symlink hash =>
        rw [ht] at he hmode hpayload
        cases hpayload
        subst he
        exact ⟨⟨hash, rfl, hname, rfl⟩, hmode⟩
      | blob | tree | gitlink | spoollink =>
        rw [ht] at hkind
        cases hkind
  | gitlink =>
    rw [decodeTarget, decodeGitlink_ok_iff]
    constructor
    · rintro ⟨⟨hname, target, rfl, rfl⟩, hmode⟩
      exact ⟨hname, rfl, rfl, hmode, rfl⟩
    · rintro ⟨hname, he, hkind, hmode, hpayload⟩
      cases ht : e.target with
      | gitlink target =>
        rw [ht] at he hmode hpayload
        cases hpayload
        subst he
        exact ⟨⟨hname, target, rfl, rfl⟩, hmode⟩
      | blob | tree | symlink | spoollink =>
        rw [ht] at hkind
        cases hkind
  | spoollink =>
    rw [decodeTarget, decodeSpoollink_ok_iff]
    constructor
    · rintro ⟨⟨hname, spoolId, stateId, rfl, hshort, rfl⟩, hmode⟩
      refine ⟨hname, rfl, rfl, hmode, ?_⟩
      simp only [encodeTarget]
      rw [if_neg (by omega)]
    · rintro ⟨hname, he, hkind, hmode, hpayload⟩
      cases ht : e.target with
      | spoollink spoolId stateId =>
        rw [ht] at he hmode hpayload
        simp only [encodeTarget] at hpayload
        split at hpayload
        · cases hpayload
        · cases hpayload
          subst he
          exact ⟨⟨hname, spoolId, stateId, rfl, by omega, rfl⟩, hmode⟩
      | blob | tree | symlink | gitlink =>
        rw [ht] at hkind
        cases hkind

end Roundtrip

section Trailer

theorem checkRawGitMode_eq {e e' : TreeEntry ContentHash} (hname : e'.name = e.name)
    (htarget : e'.target = e.target) (m : RawGitMode) :
    e'.checkRawGitMode m = e.checkRawGitMode m := by
  cases e
  cases e'
  simp only at hname htarget
  subst hname htarget
  rfl

theorem takeRawGitMode_ok_iff (hlen : 5 ≤ trailer.length) :
    takeRawGitMode e trailer = .ok e' ↔ ∃ mode, e' = { e with gitMode := some mode } ∧
      trailer.take 5 = TreeEntry.rawModeBytes mode ∧ e.checkRawGitMode mode = .ok () := by
  obtain ⟨zeros, rest, hdrop⟩ : ∃ zeros rest, trailer.drop 4 = zeros :: rest := by
    cases hd : trailer.drop 4 with
    | nil =>
      have := congrArg List.length hd
      simp only [length_drop, length_nil] at this
      omega
    | cons zeros rest => exact ⟨zeros, rest, rfl⟩
  have hfour : (trailer.take 4).length = 4 := by
    rw [length_take]
    omega
  have hfive : trailer.take 5 = trailer.take 4 ++ [zeros] := by
    rw [show (5 : Nat) = 4 + 1 from rfl, take_add, hdrop]
    rfl
  simp only [takeRawGitMode, hdrop, headD_cons]
  constructor
  · intro h
    split at h
    · rename_i hvalue
      simp only [bind_eq_ok, pure_eq_ok, Except.ok.injEq] at h
      obtain ⟨_, hcheck, rfl⟩ := h
      refine ⟨_, rfl, ?_, hcheck⟩
      rw [hfive, TreeEntry.rawModeBytes, bytes_of_u32 hfour]
    · cases h
  · rintro ⟨mode, rfl, hbytes, hcheck⟩
    rw [hfive, TreeEntry.rawModeBytes] at hbytes
    obtain ⟨hvalue, hzeros⟩ := append_inj' hbytes rfl
    rw [hvalue]
    simp only [u32_of_bytes, List.cons.injEq, and_true] at hzeros ⊢
    rw [dif_pos mode.value_ne, hzeros]
    exact bind_eq_ok.2 ⟨(), hcheck, rfl⟩

theorem takeSourcePosition_eq_iff (raw : Bool) (hlen : rest.length = if position then 4 else 0) :
    takeSourcePosition (layoutFlagsOf raw position) rest = pos ↔
      pos.isSome = position ∧ rest = TreeEntry.positionBytes pos := by
  simp only [takeSourcePosition, layoutFlagsOf_sourcePosition]
  cases position with
  | false =>
    obtain rfl : rest = [] := length_eq_zero_iff.1 hlen
    constructor
    · rintro rfl
      exact ⟨rfl, rfl⟩
    · rintro ⟨hnone, _⟩
      exact (Option.isNone_iff_eq_none.1 (Option.isSome_eq_false_iff.1 hnone)).symm
  | true =>
    constructor
    · rintro rfl
      exact ⟨rfl, (bytes_of_u32 hlen).symm⟩
    · rintro ⟨hsome, hrest⟩
      obtain ⟨p, rfl⟩ := Option.isSome_iff_exists.1 hsome
      simp only [if_true, hrest, TreeEntry.positionBytes, u32_of_bytes]

theorem applyLayoutTrailer_ok_iff (hgit : e.gitMode = none) :
    applyLayoutTrailer e (layoutFlagsOf raw position) trailer = .ok (e', pos) ↔
      e'.name = e.name ∧ e'.target = e.target ∧ e'.gitMode.isSome = raw ∧
        pos.isSome = position ∧ trailer = e'.layoutTrailer pos ∧
        ∀ m, e'.gitMode = some m → e.checkRawGitMode m = .ok () := by
  simp only [applyLayoutTrailer, layoutFlagsOf_rawGitMode, layoutTrailerLen_flagsOf]
  cases raw with
  | false =>
    simp only [Bool.false_eq_true, if_false, zero_add]
    constructor
    · intro h
      by_cases hlen : trailer.length = if position = true then 4 else 0
      · rw [if_neg (not_not.2 hlen)] at h
        cases h
        obtain ⟨hpos, hrest⟩ := (takeSourcePosition_eq_iff false hlen).1 rfl
        refine ⟨rfl, rfl, by rw [hgit]; rfl, hpos, ?_, fun m hm => ?_⟩
        · rw [TreeEntry.layoutTrailer, hgit]
          exact hrest
        · rw [hgit] at hm
          cases hm
      · rw [if_pos hlen] at h
        cases h
    · rintro ⟨hname, htarget, hraw, hpos, rfl, _⟩
      have hnone : e'.gitMode = none :=
        Option.isNone_iff_eq_none.1 (Option.isSome_eq_false_iff.1 hraw)
      have heq : e = e' := by
        cases e
        cases e'
        simp only at hname htarget hgit hnone
        rw [hname, htarget, hgit, hnone]
      have htrailer : e'.layoutTrailer pos = TreeEntry.positionBytes pos := by
        rw [TreeEntry.layoutTrailer, hnone]
        rfl
      have hlen := e'.layoutTrailer_length pos
      rw [TreeEntry.layoutFlags, layoutTrailerLen_flagsOf, hraw, hpos, htrailer] at hlen
      simp only [Bool.false_eq_true, if_false, zero_add] at hlen
      rw [htrailer, if_neg (not_not.2 hlen), heq,
        (takeSourcePosition_eq_iff false hlen).2 ⟨hpos, rfl⟩]
  | true =>
    simp only [if_true]
    constructor
    · intro h
      by_cases hlen : trailer.length = 5 + if position = true then 4 else 0
      · rw [if_neg (not_not.2 hlen)] at h
        obtain ⟨a, ha, hpair⟩ := bind_eq_ok.1 h
        obtain ⟨mode, rfl, hbytes, hcheck⟩ := (takeRawGitMode_ok_iff (by omega)).1 ha
        cases hpair
        have hrest : (trailer.drop 5).length = if position then 4 else 0 := by
          rw [length_drop, hlen]
          omega
        obtain ⟨hpos, hdrop⟩ := (takeSourcePosition_eq_iff true hrest).1 rfl
        refine ⟨rfl, rfl, rfl, hpos, ?_, fun m hm => ?_⟩
        · rw [TreeEntry.layoutTrailer, ← hdrop]
          change trailer = TreeEntry.rawModeBytes mode ++ trailer.drop 5
          rw [← hbytes, take_append_drop]
        · cases hm
          exact hcheck
      · rw [if_pos hlen] at h
        cases h
    · rintro ⟨hname, htarget, hraw, hpos, rfl, hcheck⟩
      obtain ⟨mode, hm⟩ := Option.isSome_iff_exists.1 hraw
      have hlen := e'.layoutTrailer_length pos
      rw [TreeEntry.layoutFlags, layoutTrailerLen_flagsOf, hraw, hpos] at hlen
      simp only [if_true] at hlen
      have heq : ({ e with gitMode := some mode } : TreeEntry ContentHash) = e' := by
        cases e
        cases e'
        simp only at hname htarget hm ⊢
        rw [hname, htarget, hm]
      have hsplit : e'.layoutTrailer pos =
          TreeEntry.rawModeBytes mode ++ TreeEntry.positionBytes pos := by
        rw [TreeEntry.layoutTrailer, hm]
      have hdrop : (e'.layoutTrailer pos).drop 5 = TreeEntry.positionBytes pos := by
        rw [hsplit, drop_left' (TreeEntry.rawModeBytes_length mode)]
      have hrest : (TreeEntry.positionBytes pos).length = if position then 4 else 0 := by
        rw [← hdrop, length_drop, hlen]
        omega
      rw [if_neg (not_not.2 hlen), hdrop,
        (takeSourcePosition_eq_iff true hrest).2 ⟨hpos, rfl⟩]
      apply bind_eq_ok.2
      refine ⟨e', (takeRawGitMode_ok_iff (by omega)).2 ⟨mode, heq.symm, ?_, hcheck mode hm⟩, rfl⟩
      rw [hsplit, take_left' (TreeEntry.rawModeBytes_length mode)]

end Trailer

theorem splitLayoutFlags_spec (b : UInt8) : ∃ raw position : Bool,
    (splitLayoutFlags b).1 = layoutFlagsOf raw position ∧
      b = (splitLayoutFlags b).2 ||| layoutFlagsOf raw position := by
  refine ⟨decide (b &&& entryFlagRawGitMode ≠ 0), decide (b &&& entryFlagSourcePosition ≠ 0), ?_⟩
  cases b with
  | ofBitVec b =>
    cases b with
    | ofFin b =>
      revert b
      decide +kernel

theorem take_drop_take (xs : List α) (h : a ≤ b) :
    xs.take a ++ (xs.take b).drop a ++ xs.drop b = xs := by
  have htake : xs.take a = (xs.take b).take a := by rw [take_take, Nat.min_eq_left h]
  rw [htake, take_append_drop, take_append_drop]

theorem encodeEntryFrame_ok_iff :
    encodeEntryFrame e pos = .ok frame ↔ (utf8 e.name).length ≤ 65535 ∧
      ∃ target, encodeTarget e.target = .ok target ∧
        frame = (e.mode.toByte ||| e.layoutFlags pos) :: e.entryType.toByte ::
          (leBytes 2 (utf8 e.name).length ++ utf8 e.name ++ target ++ e.layoutTrailer pos) := by
  simp only [encodeEntryFrame, bind_eq_ok, refuse_eq_ok, not_lt, pure_eq_ok, Except.ok.injEq]
  constructor
  · rintro ⟨_, hname, target, htarget, rfl⟩
    exact ⟨hname, target, htarget, rfl⟩
  · rintro ⟨hname, target, htarget, rfl⟩
    exact ⟨(), hname, target, htarget, rfl⟩

theorem validate_ok_iff {e : TreeEntry ContentHash} : e.validate = .ok () ↔
    validateName e.name = .ok () ∧ ∀ m, e.gitMode = some m → e.checkRawGitMode m = .ok () := by
  cases hn : validateName e.name with
  | error err => simp [TreeEntry.validate, hn]
  | ok u =>
    cases hm : e.gitMode with
    | none => simp [TreeEntry.validate, hn, hm]
    | some m => simp [TreeEntry.validate, hn, hm]

theorem decodeEntryFrame_ok_iff :
    decodeEntryFrame frame = .ok (e, pos) ↔
      e.validate = .ok () ∧ encodeEntryFrame e pos = .ok frame := by
  constructor
  · intro h
    match frame with
    | modeFlags :: kindByte :: len₀ :: len₁ :: body =>
      simp only [decodeEntryFrame, bind_eq_ok, refuse_eq_ok, orElseErr_eq_ok, liftTree_eq_ok,
        not_lt, not_not, fromUtf8_eq_some] at h
      obtain ⟨mode, hmode, kind, hkind, _, hbody, name, hname, _, htrailer, entry, htarget, _,
        hsame, happly⟩ := h
      obtain ⟨raw, position, hflags, hbyte⟩ := splitLayoutFlags_spec modeFlags
      rw [hflags] at htarget happly htrailer
      obtain ⟨hvalid, hentry, htype, hem, hpayload⟩ := decodeTarget_ok_iff.1 ⟨htarget, hsame⟩
      have hgit : entry.gitMode = none := by rw [hentry]
      have hentryName : entry.name = name := by rw [hentry]
      obtain ⟨hen, het, hraw, hpos, htail, hcheck⟩ := (applyLayoutTrailer_ok_iff hgit).1 happly
      have hlen : (utf8 name).length = ofLeBytes [len₀, len₁] := by
        rw [hname, length_take]
        omega
      have heq : e.name = name := hen.trans hentryName
      have hcount : leBytes 2 (utf8 e.name).length = [len₀, len₁] := by
        rw [heq, hlen]
        exact leBytes_of_length rfl
      refine ⟨validate_ok_iff.2 ⟨heq ▸ hvalid, fun m hm => ?_⟩, encodeEntryFrame_ok_iff.2 ⟨?_, _,
        het ▸ hpayload, ?_⟩⟩
      · rw [checkRawGitMode_eq hen het]
        exact hcheck m hm
      · rw [heq]
        exact validateName_length hvalid
      · have hfirst : e.mode.toByte ||| e.layoutFlags pos = modeFlags := by
          have hmode' : e.mode = mode := by
            rw [TreeEntry.mode, het]
            exact hem
          rw [hmode', TreeEntry.layoutFlags, hraw, hpos, FileMode.toByte_of_fromByte hmode,
            ← hbyte]
        have hsecond : e.entryType.toByte = kindByte := by
          rw [TreeEntry.entryType, het, htype, EntryType.toByte_of_fromByte hkind]
        rw [hfirst, hsecond, hcount, heq, hname, ← htail]
        simp only [cons_append, nil_append]
        rw [take_drop_take body (by omega)]
    | [] | [_] | [_, _] | [_, _, _] => cases h
  · rintro ⟨hvalid, hencode⟩
    obtain ⟨hvalidName, hcheck⟩ := validate_ok_iff.1 hvalid
    obtain ⟨hname, target, htarget, rfl⟩ := encodeEntryFrame_ok_iff.1 hencode
    obtain ⟨len₀, len₁, hcount⟩ : ∃ len₀ len₁, leBytes 2 (utf8 e.name).length = [len₀, len₁] :=
      ⟨_, _, rfl⟩
    have hnameLen : ofLeBytes [len₀, len₁] = (utf8 e.name).length := by
      rw [← hcount]
      exact ofLeBytes_leBytes (by omega)
    have hsplit : splitLayoutFlags (e.mode.toByte ||| e.layoutFlags pos) =
        (e.layoutFlags pos, e.mode.toByte) := splitLayoutFlags_or _ _ _
    have htrailer := e.layoutTrailer_length pos
    have hend : (utf8 e.name ++ target ++ e.layoutTrailer pos).length -
        layoutTrailerLen (e.layoutFlags pos) = (utf8 e.name ++ target).length := by
      rw [length_append, htrailer, Nat.add_sub_cancel]
    rw [hcount]
    simp only [cons_append, nil_append, decodeEntryFrame, bind_eq_ok, refuse_eq_ok,
      orElseErr_eq_ok, liftTree_eq_ok, not_lt, not_not, fromUtf8_eq_some, hsplit, hnameLen, hend]
    obtain ⟨hdecode, hmode⟩ : decodeTarget e.name e.entryType e.mode target =
          .ok { name := e.name, target := e.target } ∧
        ({ name := e.name, target := e.target } : TreeEntry ContentHash).mode = e.mode :=
      decodeTarget_ok_iff.2 ⟨hvalidName, rfl, rfl, rfl, htarget⟩
    refine ⟨e.mode, FileMode.fromByte_toByte _, e.entryType, EntryType.fromByte_toByte _, (), ?_,
      e.name, ?_, (), ?_, _, ?_, (), hmode, ?_⟩
    · simp only [length_append]
      omega
    · rw [append_assoc, take_left]
    · simp only [length_append]
      omega
    · rw [take_left, drop_left]
      exact hdecode
    · rw [drop_left]
      apply (applyLayoutTrailer_ok_iff rfl).2
      refine ⟨rfl, rfl, rfl, rfl, rfl, fun m hm => ?_⟩
      exact (checkRawGitMode_eq rfl rfl m).trans (hcheck m hm)

end Heddle
