import Heddle.Object.CanonicalBody

namespace Heddle
open Heddle.Lib
open List hiding Vector count le_refl not_lt

section RawTree
variable (blake3 : Bytes → ContentHash) {t : Tree ContentHash}

def positionedBody (t : Tree ContentHash) : Except TreeStreamError (Bytes × Nat) :=
  encodeBody (fun p => encodeEntryFrame p.1 p.2) (fun p => p.1.encodedLen p.2) (fun p => p.1.name)
    t.positioned

theorem decodeRaw_ok_iff (hlen : treeHeaderLen ≤ data.length)
    (hlogical : header.logicalLen < 2 ^ 64) :
    Tree.decodeRaw blake3 data header = .ok t ↔
      data.length = treeHeaderLen + header.payloadLen ∧ t.scheme = .v3Flat ∧ t.validate = .ok () ∧
        header.entryCount = t.entries.length ∧ header.treeId = t.hash blake3 ∧
        positionedBody t = .ok (data.drop treeHeaderLen, header.logicalLen) := by
  simp only [Tree.decodeRaw, bind_eq_ok, refuse_eq_ok, liftTree_eq_ok, pure_eq_ok,
    Except.ok.injEq, not_lt, not_not, tryFromDecodedLayout_ok_iff]
  constructor
  · rintro ⟨_, hlower, _, hupper, ⟨decoded, stop⟩, hfold, _, rfl, tree, ⟨htree, hvalid⟩, _, hhash, _,
      hsum, rfl⟩
    obtain ⟨items, frames, hcount, hshort, _, hencode, hdrop, hentries, hpos⟩ :=
      (foldRaw_ok_iff hlen).1 hfold
    rw [hentries] at htree
    have hitems : tree.positioned = items := htree ▸ Tree.positioned_of_recorded hpos
    refine ⟨by omega, by rw [htree], hvalid, ?_, hhash.symm, encodeBody_ok_iff.2
      ⟨frames, hitems ▸ hencode, hshort, hdrop, hsum.symm, .inr hlogical⟩⟩
    rw [← hcount, ← hencode.length_eq, htree, length_map]
  · rintro ⟨htotal, hscheme, hvalid, hcount, hid, hbody⟩
    obtain ⟨frames, hencode, hshort, hpayload, hsum, _⟩ := encodeBody_ok_iff.1 hbody
    have hframes : frames.length = header.entryCount := by
      rw [hcount, ← hencode.length_eq, ← t.positioned_map_fst, length_map]
    have hrecorded := Tree.recorded_positioned hvalid
    refine ⟨(), by omega, (), by omega, ({ entries := t.entries, positions := t.sourcePositions },
      data.length), ?_, (), rfl, t, ⟨?_, hvalid⟩, (), hid.symm, (), hsum.symm, rfl⟩
    · exact (foldRaw_ok_iff hlen).2 ⟨t.positioned, frames, hframes, hshort, items_valid hvalid,
        hencode, hpayload, t.positioned_map_fst.symm, hrecorded⟩
    · have hsalts := Tree.validate_salts hvalid
      rw [hscheme] at hsalts
      cases t
      simp only at hscheme hsalts
      rw [hscheme, hsalts]

theorem encodeRaw_ok_iff (hscheme : t.scheme = .v3Flat) :
    t.encodeCanonical blake3 = .ok data ↔ t.validate = .ok () ∧
      ∃ payload logicalLen, positionedBody t = .ok (payload, logicalLen) ∧
        data = TreeHeader.encode
          { version := treeEncodingVersion, treeId := t.hash blake3,
            entryCount := t.entries.length, payloadLen := payload.length,
            logicalLen := logicalLen } treeCanonicalMagic ++ payload := by
  have hne : ¬t.scheme = .v4Salted := by
    rw [hscheme]
    exact fun h => nomatch h
  rw [Tree.encodeCanonical, if_neg hne]
  simp only [bind_eq_ok, liftTree_eq_ok, pure_eq_ok, Except.ok.injEq]
  constructor
  · rintro ⟨_, hvalid, ⟨payload, logicalLen⟩, hbody, rfl⟩
    exact ⟨hvalid, payload, logicalLen, hbody, rfl⟩
  · rintro ⟨hvalid, payload, logicalLen, hbody, rfl⟩
    exact ⟨(), hvalid, (payload, logicalLen), hbody, rfl⟩

theorem canonicalMagic_length : treeCanonicalMagic.length = 4 := by decide

theorem saltedMagic_length : treeSaltedMagic.length = 4 := by decide

theorem TreeHeader.encode_split (header : TreeHeader) (payload : Bytes) (h : magic.length = 4) :
    (header.encode magic ++ payload).take 4 = magic ∧
      (header.encode magic ++ payload).drop treeHeaderLen = payload := by
  constructor
  · rw [encode, append_assoc]
    exact take_left' h
  · exact drop_left' (header.encode_length h)

theorem headerVersion_encode (header : TreeHeader) (payload : Bytes) (h : magic.length = 4) :
    headerVersion (header.encode magic ++ payload) = header.version := by
  rw [headerVersion, TreeHeader.encode, append_assoc, drop_left' h]
  rfl

theorem positionedBody_counts (h : positionedBody t = .ok (payload, logicalLen)) :
    4 * t.entries.length ≤ payload.length ∧ (t.entries = [] ∨ logicalLen < 2 ^ 64) ∧
      logicalLen < 2 ^ 64 := by
  obtain ⟨frames, hencode, _, hpayload, hsum, hbound⟩ := encodeBody_ok_iff.1 h
  have hframes : frames.length = t.entries.length := by
    rw [← hencode.length_eq, ← t.positioned_map_fst, length_map]
  have hcount := framed_flatMap_length frames
  have hlogical : logicalLen < 2 ^ 64 := by
    rcases hbound with hnil | hbound
    · rw [hsum, hnil]
      exact Nat.two_pow_pos 64
    · exact hbound
  rw [hpayload]
  exact ⟨by omega, .inr hlogical, hlogical⟩

theorem decodeRaw_iff_encode (hlen : treeHeaderLen ≤ data.length) (hmagic : isCanonicalTree data)
    (hversion : headerVersion data = treeEncodingVersion)
    (hheader : headerFields data = .ok header) (hsize : data.length < 2 ^ 64) :
    Tree.decodeRaw blake3 data header = .ok t ↔
      t.scheme = .v3Flat ∧ t.encodeCanonical blake3 = .ok data := by
  obtain ⟨hdata, hentry, hpayload, hlogical⟩ := (headerFields_ok_iff hlen).1 hheader
  have hmagic : data.take 4 = treeCanonicalMagic := of_decide_eq_true hmagic
  rw [hmagic] at hdata
  have hfields : header.version = treeEncodingVersion := by
    rw [← hversion, hdata, headerVersion_encode _ _ canonicalMagic_length]
  rw [decodeRaw_ok_iff blake3 hlen hlogical]
  constructor
  · rintro ⟨htotal, hscheme, hvalid, hcount, hid, hbody⟩
    refine ⟨hscheme, (encodeRaw_ok_iff blake3 hscheme).2 ⟨hvalid, _, _, hbody, ?_⟩⟩
    have hpayloadLen : (data.drop treeHeaderLen).length = header.payloadLen := by
      rw [length_drop]
      omega
    rw [hpayloadLen, ← hcount, ← hid, ← hfields]
    exact hdata
  · rintro ⟨hscheme, hencode⟩
    obtain ⟨hvalid, payload, logicalLen, hbody, hbytes⟩ := (encodeRaw_ok_iff blake3 hscheme).1 hencode
    obtain ⟨hcounts, _, hlogicalLen⟩ := positionedBody_counts hbody
    obtain ⟨_, hdrop⟩ := TreeHeader.encode_split {
      version := treeEncodingVersion, treeId := t.hash blake3, entryCount := t.entries.length,
      payloadLen := payload.length, logicalLen := logicalLen } payload canonicalMagic_length
    rw [← hbytes] at hdrop
    have hpayloadLen : data.length = treeHeaderLen + payload.length := by
      rw [← hdrop, length_drop]
      omega
    have hsame : headerFields data = .ok {
        version := treeEncodingVersion, treeId := t.hash blake3, entryCount := t.entries.length,
        payloadLen := payload.length, logicalLen := logicalLen } := by
      apply (headerFields_ok_iff hlen).2
      rw [hmagic, hdrop]
      exact ⟨hbytes, by simp only; omega, by simp only; omega, hlogicalLen⟩
    rw [hheader, Except.ok.injEq] at hsame
    subst hsame
    rw [hdrop]
    exact ⟨hpayloadLen, hscheme, hvalid, rfl, rfl, hbody⟩

end RawTree

section Salted
variable (blake3 : Bytes → ContentHash) {t : Tree ContentHash}

def saltedBody (t : Tree ContentHash) : Except TreeStreamError (Bytes × Nat) :=
  encodeBody (fun p => encodeSaltedEntryFrame p.1 p.2) (fun p => p.1.encodedLen none)
    (fun p => p.1.name) t.salted

theorem decodeSaltedEntryFrame_ok_iff :
    decodeSaltedEntryFrame frame = .ok item ↔
      item.1.validate = .ok () ∧ encodeSaltedEntryFrame item.1 item.2 = .ok frame := by
  simp only [decodeSaltedEntryFrame, encodeSaltedEntryFrame, bind_eq_ok, refuse_eq_ok,
    orElseErr_eq_ok, pure_eq_ok, Except.ok.injEq, not_lt]
  constructor
  · rintro ⟨_, hlen, salt, hsalt, ⟨e, pos⟩, hframe, _, hnone, rfl⟩
    obtain rfl : pos = none := by
      cases pos with
      | none => rfl
      | some p => exact absurd rfl hnone
    obtain ⟨hvalid, hencode⟩ := decodeEntryFrame_ok_iff.1 hframe
    refine ⟨hvalid, frame.drop 32, hencode, ?_⟩
    have hbytes : salt.bytes.toList = frame.take 32 := ContentHash.asBytes_of_ofSlice hsalt
    rw [hbytes, take_append_drop]
  · rintro ⟨hvalid, inner, hencode, rfl⟩
    have htake : (item.2.toList ++ inner).take 32 = item.2.toList := take_left' (by simp)
    have hdrop : (item.2.toList ++ inner).drop 32 = inner := drop_left' (by simp)
    rw [htake, hdrop]
    refine ⟨(), by simp, ⟨item.2⟩, ContentHash.ofSlice_asBytes ⟨item.2⟩, (item.1, none),
      decodeEntryFrame_ok_iff.2 ⟨hvalid, hencode⟩, (), by simp, rfl⟩

theorem saltedFrames_iff :
    List.Forall₂ (fun frame item => decodeSaltedEntryFrame frame = .ok item) frames items ↔
      (∀ item ∈ items, item.1.validate = .ok ()) ∧
        List.Forall₂ (fun item frame => encodeSaltedEntryFrame item.1 item.2 = .ok frame)
          items frames := by
  constructor
  · intro h
    induction h with
    | nil => exact ⟨fun _ h => (nomatch h), .nil⟩
    | cons hd _ ih =>
      obtain ⟨hvalid, hencode⟩ := decodeSaltedEntryFrame_ok_iff.1 hd
      exact ⟨forall_mem_cons.2 ⟨hvalid, ih.1⟩, .cons hencode ih.2⟩
  · rintro ⟨hvalid, h⟩
    induction h with
    | nil => exact .nil
    | cons hd _ ih =>
      obtain ⟨hfirst, hrest⟩ := forall_mem_cons.1 hvalid
      exact .cons (decodeSaltedEntryFrame_ok_iff.2 ⟨hfirst, hd⟩) (ih hrest)

theorem foldlM_snoc_ok (items acc : List α) :
    items.foldlM (fun acc item => (.ok (acc ++ [item]) : Except ε (List α))) acc =
      .ok (acc ++ items) := by
  induction items generalizing acc with
  | nil => rw [append_nil]; rfl
  | cons item items ih =>
    rw [foldlM_cons, show acc ++ item :: items = acc ++ [item] ++ items by simp]
    exact ih (acc ++ [item])

theorem foldSalted_ok_iff (hlen : treeHeaderLen ≤ data.length) :
    foldFrames .truncatedFrame
        (fun (items : List (TreeEntry ContentHash × Vector UInt8 32)) frame => do
          let item ← decodeSaltedEntryFrame frame
          return items ++ [item]) data data.length count treeHeaderLen [] =
        .ok (items, data.length) ↔
      ∃ frames, frames.length = count ∧ (∀ frame ∈ frames, frame.length < 2 ^ 32) ∧
        (∀ item ∈ items, item.1.validate = .ok ()) ∧
        List.Forall₂ (fun item frame => encodeSaltedEntryFrame item.1 item.2 = .ok frame)
          items frames ∧
        data.drop treeHeaderLen = frames.flatMap framed := by
  rw [foldFrames_ok_iff]
  simp only [pure_eq_ok, foldlM_decode_ok_iff, foldlM_snoc_ok, nil_append, Except.ok.injEq]
  constructor
  · rintro ⟨_, frames, hcount, hshort, ⟨found, hall, rfl⟩, htake, _, _⟩
    obtain ⟨hvalid, hencode⟩ := saltedFrames_iff.1 hall
    refine ⟨frames, hcount, hshort, hvalid, hencode, ?_⟩
    rw [take_length] at htake
    exact append_cancel_left ((take_append_drop treeHeaderLen data).trans htake)
  · rintro ⟨frames, hcount, hshort, hvalid, hencode, hdrop⟩
    refine ⟨hlen, frames, hcount, hshort, ⟨items, saltedFrames_iff.2 ⟨hvalid, hencode⟩, rfl⟩, ?_, ?_,
      .inr (le_refl _)⟩
    · rw [take_length, ← hdrop, take_append_drop]
    · rw [← hdrop, length_drop]
      omega

theorem salted_map_fst (h : t.validate = .ok ()) (hscheme : t.scheme = .v4Salted) :
    t.salted.map Prod.fst = t.entries ∧ t.salted.map Prod.snd = t.salts := by
  have hlen := Tree.validate_salts h
  rw [hscheme] at hlen
  exact ⟨map_fst_zip hlen.ge, map_snd_zip hlen.le⟩

theorem salted_of_items (items : List (TreeEntry ContentHash × Vector UInt8 32)) :
    ({ entries := items.map Prod.fst, scheme := .v4Salted, salts := items.map Prod.snd } :
      Tree ContentHash).salted = items := (zip_of_prod rfl rfl).symm

theorem encodeSalted_ok_iff (hscheme : t.scheme = .v4Salted) :
    t.encodeCanonical blake3 = .ok data ↔ t.validate = .ok () ∧
      ∃ payload logicalLen, saltedBody t = .ok (payload, logicalLen) ∧
        data = TreeHeader.encode
          { version := treeSaltedEncodingVersion, treeId := t.hash blake3,
            entryCount := t.entries.length, payloadLen := payload.length,
            logicalLen := logicalLen } treeSaltedMagic ++ payload := by
  rw [Tree.encodeCanonical, if_pos hscheme, Tree.encodeSaltedV4]
  simp only [bind_eq_ok, refuse_eq_ok, liftTree_eq_ok, pure_eq_ok, Except.ok.injEq]
  constructor
  · rintro ⟨_, _, _, hvalid, ⟨payload, logicalLen⟩, hbody, rfl⟩
    exact ⟨hvalid, payload, logicalLen, hbody, rfl⟩
  · rintro ⟨hvalid, payload, logicalLen, hbody, rfl⟩
    exact ⟨(), not_not.2 hscheme, (), hvalid, (payload, logicalLen), hbody, rfl⟩

theorem decodeSaltedV4_iff_encode (hsize : data.length < 2 ^ 64) :
    decodeSaltedV4 blake3 data = .ok t ↔
      t.scheme = .v4Salted ∧ t.encodeCanonical blake3 = .ok data := by
  simp only [decodeSaltedV4, bind_eq_ok, refuse_eq_ok, liftTree_eq_ok, pure_eq_ok,
    Except.ok.injEq, not_lt, not_not, tryFromDecodedEntriesSaltedV4_ok_iff]
  constructor
  · rintro ⟨_, hmagic, _, hlen, _, hversion, header, hheader, _, hlower, _, hupper, ⟨items, stop⟩,
      hfold, _, rfl, tree, ⟨htree, hvalid⟩, _, hhash, _, hsum, rfl⟩
    obtain ⟨hdata, hentry, hpayload, hlogical⟩ := (headerFields_ok_iff hlen).1 hheader
    rw [of_decide_eq_true hmagic] at hdata
    have hscheme : tree.scheme = .v4Salted := by rw [htree]
    obtain ⟨frames, hcount, hshort, _, hencode, hdrop⟩ := (foldSalted_ok_iff hlen).1 hfold
    have hitems : tree.salted = items := htree ▸ salted_of_items items
    have hfields : header.version = treeSaltedEncodingVersion := by
      rw [← hversion, hdata, headerVersion_encode _ _ saltedMagic_length]
    have hentries : tree.entries = items.map Prod.fst := by rw [htree]
    have hbody : saltedBody tree = .ok (data.drop treeHeaderLen, header.logicalLen) := by
      apply encodeBody_ok_iff.2
      rw [hitems]
      refine ⟨frames, hencode, hshort, hdrop, ?_, .inr hlogical⟩
      rw [← hsum, hentries, map_map]
      rfl
    refine ⟨hscheme, (encodeSalted_ok_iff blake3 hscheme).2 ⟨hvalid, _, _, hbody, ?_⟩⟩
    have hpayloadLen : (data.drop treeHeaderLen).length = header.payloadLen := by
      rw [length_drop]
      omega
    have hentryCount : tree.entries.length = header.entryCount := by
      rw [hentries, length_map, hencode.length_eq, hcount]
    rw [hpayloadLen, hentryCount, hhash, ← hfields]
    exact hdata
  · rintro ⟨hscheme, hencode⟩
    obtain ⟨hvalid, payload, logicalLen, hbody, hbytes⟩ :=
      (encodeSalted_ok_iff blake3 hscheme).1 hencode
    obtain ⟨frames, hframes, hshort, hpayload, hsum, hbound⟩ := encodeBody_ok_iff.1 hbody
    obtain ⟨hfst, hsnd⟩ := salted_map_fst hvalid hscheme
    have hcount : frames.length = t.entries.length := by
      rw [← hframes.length_eq, ← hfst, length_map]
    have hlogical : logicalLen < 2 ^ 64 := by
      rcases hbound with hnil | hbound
      · rw [hsum, hnil]
        exact Nat.two_pow_pos 64
      · exact hbound
    have hframesLen := framed_flatMap_length frames
    rw [← hpayload] at hframesLen
    obtain ⟨hmagic, hdrop⟩ := TreeHeader.encode_split {
      version := treeSaltedEncodingVersion, treeId := t.hash blake3,
      entryCount := t.entries.length, payloadLen := payload.length,
      logicalLen := logicalLen } payload saltedMagic_length
    have hversion := headerVersion_encode {
      version := treeSaltedEncodingVersion, treeId := t.hash blake3,
      entryCount := t.entries.length, payloadLen := payload.length,
      logicalLen := logicalLen } payload saltedMagic_length
    rw [← hbytes] at hmagic hdrop hversion
    have hlen : treeHeaderLen ≤ data.length := by
      rw [hbytes, length_append, TreeHeader.encode_length _ saltedMagic_length]
      omega
    have htotal : data.length = treeHeaderLen + payload.length := by
      rw [← hdrop, length_drop]
      omega
    refine ⟨(), decide_eq_true hmagic, (), hlen, (), hversion, {
      version := treeSaltedEncodingVersion, treeId := t.hash blake3,
      entryCount := t.entries.length, payloadLen := payload.length,
      logicalLen := logicalLen }, (headerFields_ok_iff hlen).2 ?_, (), by simp only; omega, (),
      by simp only; omega, (t.salted, data.length), (foldSalted_ok_iff hlen).2 ?_, (), rfl, t,
      ⟨?_, hvalid⟩, (), rfl, (), ?_, rfl⟩
    · rw [hmagic, hdrop]
      exact ⟨hbytes, by simp only; omega, by simp only; omega, hlogical⟩
    · refine ⟨frames, hcount, hshort, fun item hitem => ?_, hframes, hdrop.trans hpayload⟩
      apply (Tree.validate_entries hvalid).1
      rw [← hfst]
      exact mem_map.2 ⟨item, hitem, rfl⟩
    · simp only
      rw [hfst, hsnd]
      have hpositions : t.sourcePositions = [] := by
        rcases Tree.validate_positions hvalid with hnil | ⟨hflat, _⟩
        · exact hnil
        · rw [hscheme] at hflat
          cases hflat
      cases t
      simp only at hscheme hpositions
      rw [hscheme, hpositions]
    · rw [hsum, ← hfst, map_map]
      rfl

end Salted

section Encodable
variable (blake3 : Bytes → ContentHash) {t : Tree ContentHash}

/-- The frames store the length of a spool id in two bytes. -/
def SpoolIdFits (target : TreeEntryTarget ContentHash) : Prop :=
  match target with
  | .spoollink spoolId _ => (utf8 spoolId.text).length ≤ 65535
  | _ => True

instance (target : TreeEntryTarget ContentHash) : Decidable (SpoolIdFits target) := by
  unfold SpoolIdFits
  split <;> infer_instance

theorem encodeTarget_isOk_iff :
    (∃ payload, encodeTarget target = .ok payload) ↔ SpoolIdFits target := by
  cases target with
  | spoollink spoolId stateId =>
    simp only [encodeTarget, SpoolIdFits]
    split
    · refine ⟨?_, fun h => by omega⟩
      rintro ⟨_, h⟩
      cases h
    · exact ⟨fun _ => by omega, fun _ => ⟨_, rfl⟩⟩
  | blob | tree | symlink | gitlink => exact ⟨fun _ => trivial, fun _ => ⟨_, rfl⟩⟩

theorem encodeTarget_length (h : encodeTarget target = .ok payload) : payload.length < 2 ^ 17 := by
  cases target with
  | spoollink spoolId stateId =>
    simp only [encodeTarget] at h
    split at h
    · cases h
    · cases h
      simp only [length_append, length_leBytes, Vector.length_toList]
      omega
  | gitlink target =>
    cases h
    rw [length_cons, GitObjectId.asBytes_length]
    cases target.format <;> decide
  | blob hash | tree hash | symlink hash =>
    cases h
    rw [ContentHash.asBytes_length]
    omega

theorem encodeEntryFrame_isOk (hvalid : e.validate = .ok ()) (hfits : SpoolIdFits e.target)
    (pos : Option UInt32) :
    ∃ frame, encodeEntryFrame e pos = .ok frame ∧ frame.length < 2 ^ 20 := by
  obtain ⟨target, htarget⟩ := encodeTarget_isOk_iff.2 hfits
  have hname := validateName_length (TreeEntry.validate_name hvalid)
  have hlen := encodeTarget_length htarget
  have htrailer := e.layoutTrailer_length pos
  rw [TreeEntry.layoutFlags, layoutTrailerLen_flagsOf] at htrailer
  have hshort : (e.layoutTrailer pos).length ≤ 9 := by
    rw [htrailer]
    split <;> split <;> omega
  refine ⟨_, encodeEntryFrame_ok_iff.2 ⟨hname, target, htarget, rfl⟩, ?_⟩
  simp only [length_cons, length_append, length_leBytes]
  omega

theorem encodeBody_isOk (hsum : (items.map encodedLen).sum < 2 ^ 64)
    (h : ∀ item ∈ items, ∃ frame, encode item = .ok frame ∧ frame.length < 2 ^ 32) :
    ∃ body, encodeBody encode encodedLen name items = .ok body := by
  have hframes : ∃ frames, List.Forall₂ (fun item frame => encode item = .ok frame) items frames ∧
      ∀ frame ∈ frames, frame.length < 2 ^ 32 := by
    clear hsum
    induction items with
    | nil => exact ⟨[], .nil, fun _ h => (nomatch h)⟩
    | cons item items ih =>
      obtain ⟨hfirst, hrest⟩ := forall_mem_cons.1 h
      obtain ⟨frame, hframe, hshort⟩ := hfirst
      obtain ⟨frames, hall, hshorts⟩ := ih hrest
      exact ⟨frame :: frames, .cons hframe hall, forall_mem_cons.2 ⟨hshort, hshorts⟩⟩
  obtain ⟨frames, hall, hshorts⟩ := hframes
  exact ⟨(_, _), encodeBody_ok_iff.2 ⟨frames, hall, hshorts, rfl, rfl, .inr hsum⟩⟩

def Tree.logicalLen (t : Tree ContentHash) : Nat :=
  (t.positioned.map (fun p => p.1.encodedLen p.2)).sum

theorem Tree.positioned_of_nil (h : t.sourcePositions = []) :
    t.positioned = t.entries.map (fun e => (e, none)) := by
  apply ext_getElem?
  intro i
  rw [positioned_getElem?, h, getElem?_map]
  rfl

theorem salted_positions (h : t.validate = .ok ()) (hscheme : t.scheme = .v4Salted) :
    t.sourcePositions = [] := by
  rcases Tree.validate_positions h with hnil | ⟨hflat, _⟩
  · exact hnil
  · rw [hscheme] at hflat
    cases hflat

theorem salted_logicalLen (h : t.validate = .ok ()) (hscheme : t.scheme = .v4Salted) :
    (t.salted.map (fun p => p.1.encodedLen none)).sum = t.logicalLen := by
  rw [Tree.logicalLen, Tree.positioned_of_nil (salted_positions h hscheme), map_map,
    ← (salted_map_fst h hscheme).1, map_map]
  rfl

theorem frame_fits {items : List α} {encode : α → Except TreeStreamError Bytes}
    (h : List.Forall₂ (fun item frame => encode item = .ok frame) items frames) :
    ∀ item ∈ items, ∃ frame, encode item = .ok frame := by
  intro item hitem
  obtain ⟨frame, _, hframe⟩ := exists_of_forall₂_mem h hitem
  exact ⟨frame, hframe⟩

/-- Only an overlong spool id keeps a valid tree from being encoded. -/
theorem encodeCanonical_isOk_iff (hvalid : t.validate = .ok ()) (hsum : t.logicalLen < 2 ^ 64) :
    (∃ data, t.encodeCanonical blake3 = .ok data) ↔ ∀ e ∈ t.entries, SpoolIdFits e.target := by
  have htarget : ∀ (e : TreeEntry ContentHash) pos frame, encodeEntryFrame e pos = .ok frame →
      SpoolIdFits e.target := by
    intro e pos frame h
    obtain ⟨_, target, htarget, _⟩ := encodeEntryFrame_ok_iff.1 h
    exact encodeTarget_isOk_iff.1 ⟨target, htarget⟩
  cases hscheme : t.scheme with
  | v3Flat =>
    constructor
    · rintro ⟨data, h⟩ e he
      obtain ⟨_, payload, logicalLen, hbody, _⟩ := (encodeRaw_ok_iff blake3 hscheme).1 h
      obtain ⟨frames, hframes, _⟩ := encodeBody_ok_iff.1 hbody
      rw [← t.positioned_map_fst] at he
      obtain ⟨item, hitem, rfl⟩ := mem_map.1 he
      obtain ⟨frame, hframe⟩ := frame_fits hframes item hitem
      exact htarget _ _ _ hframe
    · intro hfits
      obtain ⟨⟨payload, logicalLen⟩, hbody⟩ : ∃ body, positionedBody t = .ok body := by
        apply encodeBody_isOk hsum
        intro item hitem
        have hmem : item.1 ∈ t.entries := by
          rw [← t.positioned_map_fst]
          exact mem_map.2 ⟨item, hitem, rfl⟩
        obtain ⟨frame, hframe, hshort⟩ :=
          encodeEntryFrame_isOk (items_valid hvalid item hitem) (hfits item.1 hmem) item.2
        exact ⟨frame, hframe, by omega⟩
      exact ⟨_, (encodeRaw_ok_iff blake3 hscheme).2 ⟨hvalid, payload, logicalLen, hbody, rfl⟩⟩
  | v4Salted =>
    obtain ⟨hfst, _⟩ := salted_map_fst hvalid hscheme
    constructor
    · rintro ⟨data, h⟩ e he
      obtain ⟨_, payload, logicalLen, hbody, _⟩ := (encodeSalted_ok_iff blake3 hscheme).1 h
      obtain ⟨frames, hframes, _⟩ := encodeBody_ok_iff.1 hbody
      rw [← hfst] at he
      obtain ⟨item, hitem, rfl⟩ := mem_map.1 he
      obtain ⟨frame, hframe⟩ := frame_fits hframes item hitem
      simp only [encodeSaltedEntryFrame, bind_eq_ok] at hframe
      obtain ⟨inner, hinner, _⟩ := hframe
      exact htarget _ _ _ hinner
    · intro hfits
      obtain ⟨⟨payload, logicalLen⟩, hbody⟩ : ∃ body, saltedBody t = .ok body := by
        apply encodeBody_isOk
        · rw [salted_logicalLen hvalid hscheme]
          exact hsum
        · intro item hitem
          have hmem : item.1 ∈ t.entries := by
            rw [← hfst]
            exact mem_map.2 ⟨item, hitem, rfl⟩
          obtain ⟨frame, hframe, hshort⟩ := encodeEntryFrame_isOk
            ((Tree.validate_entries hvalid).1 _ hmem) (hfits item.1 hmem) none
          refine ⟨item.2.toList ++ frame, bind_eq_ok.2 ⟨frame, hframe, rfl⟩, ?_⟩
          rw [length_append, Vector.length_toList]
          omega
      exact ⟨_, (encodeSalted_ok_iff blake3 hscheme).2 ⟨hvalid, payload, logicalLen, hbody, rfl⟩⟩

end Encodable

end Heddle
