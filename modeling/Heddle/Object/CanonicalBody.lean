import Heddle.Object.Canonical
import Mathlib.Data.List.Induction

namespace Heddle
open Heddle.Lib Option
open List hiding Vector after count getElem?_eq_some_iff le_refl map_map not_le

section Header

@[simp] theorem TreeHeader.encode_length (header : TreeHeader) (h : magic.length = 4) :
    (header.encode magic).length = treeHeaderLen := by
  simp only [encode, length_append, length_cons, length_leBytes,
    ContentHash.asBytes_length, h]
  rfl

theorem headerFields_ok_iff (hlen : treeHeaderLen ≤ data.length) :
    headerFields data = .ok header ↔
      data = header.encode (data.take 4) ++ data.drop treeHeaderLen ∧
        header.entryCount < 2 ^ 64 ∧ header.payloadLen < 2 ^ 64 ∧ header.logicalLen < 2 ^ 64 := by
  simp only [treeHeaderLen] at hlen
  simp only [headerFields, bind_eq_ok, orElseErr_eq_ok, pure_eq_ok, Except.ok.injEq]
  constructor
  · rintro ⟨treeId, hid, rfl⟩
    have hid := ContentHash.asBytes_of_ofSlice hid
    have hsplit : data = data.take 4 ++ ((data.drop 4).take 1 ++ ((data.drop 5).take 32 ++
        (data.drop 37).take 8 ++ (data.drop 45).take 8 ++ (data.drop 53).take 8)) ++
        data.drop 61 := by
      have h53 : (data.drop 53).take 8 ++ data.drop 61 = data.drop 53 := by
        rw [show data.drop 61 = (data.drop 53).drop 8 by rw [drop_drop], take_append_drop]
      have h45 : (data.drop 45).take 8 ++ data.drop 53 = data.drop 45 := by
        rw [show data.drop 53 = (data.drop 45).drop 8 by rw [drop_drop], take_append_drop]
      have h37 : (data.drop 37).take 8 ++ data.drop 45 = data.drop 37 := by
        rw [show data.drop 45 = (data.drop 37).drop 8 by rw [drop_drop], take_append_drop]
      have h5 : (data.drop 5).take 32 ++ data.drop 37 = data.drop 5 := by
        rw [show data.drop 37 = (data.drop 5).drop 32 by rw [drop_drop], take_append_drop]
      have h4 : (data.drop 4).take 1 ++ data.drop 5 = data.drop 4 := by
        rw [show data.drop 5 = (data.drop 4).drop 1 by rw [drop_drop], take_append_drop]
      simp only [append_assoc, h53, h45, h37, h5, h4, take_append_drop]
    have hone : (data.drop 4).take 1 = [headerVersion data] := by
      cases hd : data.drop 4 with
      | nil =>
        have hnil := congrArg length hd
        simp only [length_drop, length_nil] at hnil
        omega
      | cons b rest => simp only [headerVersion, hd, headD_cons]; rfl
    have hcount : ∀ {k}, k + 8 ≤ 61 → ((data.drop k).take 8).length = 8 := by
      intro k hk
      rw [length_take, length_drop]
      omega
    have hbound : ∀ {k}, k + 8 ≤ 61 → ofLeBytes ((data.drop k).take 8) < 2 ^ 64 := by
      intro k hk
      have hlt := ofLeBytes_lt ((data.drop k).take 8)
      rw [hcount hk] at hlt
      omega
    refine ⟨?_, hbound (by omega), hbound (by omega), hbound (by omega)⟩
    rw [TreeHeader.encode, hid, leBytes_of_length (hcount (by omega)),
      leBytes_of_length (hcount (by omega)), leBytes_of_length (hcount (by omega))]
    rw [hone] at hsplit
    exact hsplit
  · rintro ⟨hdata, hentry, hpayload, hlogical⟩
    have hmagic : (data.take 4).length = 4 := by
      rw [length_take]
      omega
    generalize data.take 4 = magic at hdata hmagic
    generalize data.drop treeHeaderLen = rest at hdata
    have h4 : data.drop 4 = header.version :: (header.treeId.asBytes ++ (leBytes 8 header.entryCount ++
        (leBytes 8 header.payloadLen ++ (leBytes 8 header.logicalLen ++ rest)))) := by
      rw [hdata, TreeHeader.encode]
      simp only [append_assoc, cons_append]
      exact drop_left' hmagic
    have h5 : data.drop 5 = header.treeId.asBytes ++ (leBytes 8 header.entryCount ++
        (leBytes 8 header.payloadLen ++ (leBytes 8 header.logicalLen ++ rest))) := by
      rw [show data.drop 5 = (data.drop 4).drop 1 by rw [drop_drop], h4]
      rfl
    have h37 : data.drop 37 = leBytes 8 header.entryCount ++
        (leBytes 8 header.payloadLen ++ (leBytes 8 header.logicalLen ++ rest)) := by
      rw [show data.drop 37 = (data.drop 5).drop 32 by rw [drop_drop], h5]
      exact drop_left' header.treeId.asBytes_length
    have h45 : data.drop 45 = leBytes 8 header.payloadLen ++
        (leBytes 8 header.logicalLen ++ rest) := by
      rw [show data.drop 45 = (data.drop 37).drop 8 by rw [drop_drop], h37]
      exact drop_left' (length_leBytes _ _)
    have h53 : data.drop 53 = leBytes 8 header.logicalLen ++ rest := by
      rw [show data.drop 53 = (data.drop 45).drop 8 by rw [drop_drop], h45]
      exact drop_left' (length_leBytes _ _)
    refine ⟨header.treeId, ?_, ?_⟩
    · rw [h5, take_left' header.treeId.asBytes_length, ContentHash.ofSlice_asBytes]
    · rw [headerVersion, h4, h37, h45, h53, take_left' (length_leBytes _ _),
        take_left' (length_leBytes _ _), take_left' (length_leBytes _ _),
        ofLeBytes_leBytes (by omega), ofLeBytes_leBytes (by omega), ofLeBytes_leBytes (by omega)]
      rfl

end Header

section Body

theorem encodeBody_ok_iff {encode : α → Except TreeStreamError Bytes} {encodedLen : α → Nat} :
    encodeBody encode encodedLen name items = .ok (payload, logicalLen) ↔
      ∃ frames, List.Forall₂ (fun item frame => encode item = .ok frame) items frames ∧
        (∀ frame ∈ frames, frame.length < 2 ^ 32) ∧ payload = frames.flatMap framed ∧
        logicalLen = (items.map encodedLen).sum ∧ (items = [] ∨ logicalLen < 2 ^ 64) := by
  have hloop : ∀ (items : List α) (state : Bytes × Nat),
      items.foldlM (fun state item => do
        let logicalLen := state.2 + encodedLen item
        refuse (2 ^ 64 ≤ logicalLen) (TreeStreamError.malformed "logical length overflow")
        let frame ← encode item
        refuse (2 ^ 32 ≤ frame.length)
          (.malformed ("entry '" ++ name item ++ "' frame exceeds u32"))
        return (state.1 ++ framed frame, logicalLen)) state = .ok (payload, logicalLen) ↔
      ∃ frames, List.Forall₂ (fun item frame => encode item = .ok frame) items frames ∧
        (∀ frame ∈ frames, frame.length < 2 ^ 32) ∧
        payload = state.1 ++ frames.flatMap framed ∧
        logicalLen = state.2 + (items.map encodedLen).sum ∧ (items = [] ∨ logicalLen < 2 ^ 64) := by
    intro items
    induction items with
    | nil =>
      intro state
      simp only [foldlM_nil, pure_eq_ok, Except.ok.injEq, forall₂_nil_left_iff]
      constructor
      · rintro rfl
        exact ⟨[], rfl, fun _ h => (nomatch h), (append_nil _).symm, rfl, .inl trivial⟩
      · rintro ⟨_, rfl, _, rfl, rfl, _⟩
        simp
    | cons item items ih =>
      intro state
      simp only [foldlM_cons, bind_eq_ok, refuse_eq_ok, pure_eq_ok, Except.ok.injEq,
        forall₂_cons_left_iff, not_le, map_cons, sum_cons]
      constructor
      · rintro ⟨next, ⟨_, hlogical, frame, hframe, _, hshort, rfl⟩, hrest⟩
        obtain ⟨frames, hall, hshorts, rfl, rfl, hbound⟩ := (ih _).1 hrest
        refine ⟨frame :: frames, ⟨frame, frames, hframe, hall, rfl⟩,
          forall_mem_cons.2 ⟨hshort, hshorts⟩, ?_, ?_, .inr ?_⟩
        · simp only [flatMap_cons, append_assoc]
        · simp only
          omega
        · rcases hbound with rfl | hbound
          · simpa using hlogical
          · exact hbound
      · rintro ⟨_, ⟨frame, frames, hframe, hall, rfl⟩, hshorts, rfl, rfl, hbound⟩
        obtain ⟨hshort, hshorts⟩ := forall_mem_cons.1 hshorts
        have hbound := hbound.resolve_left (by simp)
        refine ⟨_, ⟨(), by omega, frame, hframe, (), hshort, rfl⟩, (ih _).2
          ⟨frames, hall, hshorts, ?_, ?_, .inr hbound⟩⟩
        · simp only [flatMap_cons, append_assoc]
        · simp only
          omega
  rw [encodeBody, hloop]
  simp only [nil_append, zero_add]

end Body

section Positions

def Recorded (ps : List (Option UInt32)) (positions : List UInt32) : Prop :=
  (positions = [] ∧ ∀ p ∈ ps, p = none) ∨ ps = positions.map some

theorem recorded_snoc_iff (h : Recorded ps positions) (p : Option UInt32)
    (positions' : List UInt32) :
    pushPosition positions ps.length p = .ok positions' ↔ Recorded (ps ++ [p]) positions' := by
  cases p with
  | none =>
    simp only [pushPosition]
    split
    · rename_i hnil
      subst hnil
      have hnone : ∀ q ∈ ps, q = none := by
        rcases h with ⟨_, h⟩ | h
        · exact h
        · subst h
          intro q hq
          cases hq
      constructor
      · intro hok
        cases hok
        exact .inl ⟨rfl, fun q hq => (mem_append.1 hq).elim (hnone q) mem_singleton.1⟩
      · rintro (⟨rfl, _⟩ | hmap)
        · rfl
        · have hlast := congrArg getLast? hmap
          rw [getLast?_append, getLast?_map] at hlast
          cases hp : positions'.getLast? <;> simp [hp] at hlast
    · rename_i hne
      constructor
      · intro hok
        cases hok
      · rcases h with ⟨hnil, _⟩ | rfl
        · exact absurd hnil hne
        · rintro (⟨rfl, hnone⟩ | hmap)
          · cases positions with
            | nil => exact absurd rfl hne
            | cons q positions =>
              exact absurd (hnone (some q) (by simp)) (by simp)
          · have hlast := congrArg getLast? hmap
            rw [getLast?_append, getLast?_map] at hlast
            cases hp : positions'.getLast? <;> simp [hp] at hlast
  | some q =>
    simp only [pushPosition]
    split
    · rename_i hlen
      have hall : ps = positions.map some := by
        rcases h with ⟨rfl, _⟩ | h
        · exact length_eq_zero_iff.1 hlen.symm
        · exact h
      constructor
      · intro hok
        cases hok
        exact .inr (by rw [hall, map_append]; rfl)
      · rintro (⟨rfl, hnone⟩ | hmap)
        · exact absurd (hnone (some q) (by simp)) (by simp)
        · have hback : positions'.map some = (positions ++ [q]).map some := by
            rw [← hmap, hall, map_append]
            rfl
          rw [map_injective_iff.2 (some_injective _) hback]
    · rename_i hlen
      constructor
      · intro hok
        cases hok
      · rintro (⟨rfl, hnone⟩ | hmap)
        · exact absurd (hnone (some q) (by simp)) (by simp)
        · rcases h with ⟨rfl, hnone⟩ | h
          · cases ps with
            | nil => exact absurd rfl hlen
            | cons p ps =>
              cases positions' with
              | nil => cases hmap
              | cons q' positions' =>
                simp only [cons_append, map_cons, cons.injEq] at hmap
                exact absurd (hmap.1.symm.trans (hnone p mem_cons_self)) (by simp)
          · exact absurd (by rw [h, length_map]) hlen

theorem recorded_of_snoc (h : Recorded (ps ++ [p]) positions') :
    ∃ positions, Recorded ps positions := by
  rcases h with ⟨_, hnone⟩ | hmap
  · exact ⟨[], .inl ⟨rfl, fun q hq => hnone q (mem_append_left _ hq)⟩⟩
  · obtain ⟨before, after, rfl, hbefore, _⟩ := append_eq_map_iff.1 hmap
    exact ⟨before, .inr hbefore.symm⟩

theorem decodedPush_ok_iff (items : List (TreeEntry ContentHash × Option UInt32))
    (decoded : DecodedEntries) :
    items.foldlM DecodedEntries.push {} = .ok decoded ↔
      decoded.entries = items.map Prod.fst ∧ Recorded (items.map Prod.snd) decoded.positions := by
  induction items using reverseRecOn generalizing decoded with
  | nil =>
    simp only [foldlM_nil, pure_eq_ok, Except.ok.injEq, map_nil]
    constructor
    · rintro rfl
      exact ⟨rfl, .inl ⟨rfl, fun _ h => (nomatch h)⟩⟩
    · rintro ⟨hentries, hpos⟩
      have hnil : decoded.positions = [] := by
        rcases hpos with ⟨h, _⟩ | h
        · exact h
        · exact map_eq_nil_iff.1 h.symm
      cases decoded
      simp only at hentries hnil
      rw [hentries, hnil]
  | append_singleton items item ih =>
    simp only [foldlM_append, foldlM_cons, foldlM_nil, bind_pure, bind_eq_ok,
      map_append, map_cons, map_nil]
    constructor
    · rintro ⟨before, hbefore, hpush⟩
      obtain ⟨hentries, hpos⟩ := (ih before).1 hbefore
      simp only [DecodedEntries.push, bind_eq_ok, pure_eq_ok, Except.ok.injEq] at hpush
      obtain ⟨positions, hpush, rfl⟩ := hpush
      rw [hentries, length_map, ← length_map (f := Prod.snd)] at hpush
      exact ⟨by rw [hentries], (recorded_snoc_iff hpos _ _).1 hpush⟩
    · rintro ⟨hentries, hpos⟩
      obtain ⟨positions, hbefore⟩ := recorded_of_snoc hpos
      refine ⟨{ entries := items.map Prod.fst, positions := positions },
        (ih _).2 ⟨rfl, hbefore⟩, ?_⟩
      have hpush := (recorded_snoc_iff hbefore _ _).2 hpos
      rw [length_map, ← length_map (f := Prod.fst)] at hpush
      simp only [DecodedEntries.push, bind_eq_ok, pure_eq_ok, Except.ok.injEq]
      refine ⟨decoded.positions, hpush, ?_⟩
      cases decoded
      simp only at hentries
      rw [hentries]

theorem foldlM_decode_ok_iff {decode : Bytes → Except ε α} {push : σ → α → Except ε σ} :
    frames.foldlM (fun s frame => do
      let item ← decode frame
      push s item) s = .ok s' ↔
      ∃ items, List.Forall₂ (fun frame item => decode frame = .ok item) frames items ∧
        items.foldlM push s = .ok s' := by
  induction frames generalizing s with
  | nil =>
    simp only [foldlM_nil, forall₂_nil_left_iff, exists_eq_left]
  | cons frame frames ih =>
    simp only [foldlM_cons, bind_eq_ok, ih, forall₂_cons_left_iff]
    constructor
    · rintro ⟨t, ⟨item, hitem, hpush⟩, items, hall, hfold⟩
      exact ⟨item :: items, ⟨item, items, hitem, hall, rfl⟩,
        by rw [foldlM_cons, hpush]; exact hfold⟩
    · rintro ⟨_, ⟨item, items, hitem, hall, rfl⟩, hfold⟩
      rw [foldlM_cons, bind_eq_ok] at hfold
      obtain ⟨t, hpush, hfold⟩ := hfold
      exact ⟨t, ⟨item, hitem, hpush⟩, items, hall, hfold⟩

end Positions

section Layout
variable {t : Tree ContentHash}

theorem Tree.positioned_getElem? (t : Tree ContentHash) (i : Nat) :
    t.positioned[i]? = t.entries[i]?.map (fun e => (e, t.sourcePositions[i]?)) := by
  simp only [positioned, getElem?_map, getElem?_zipIdx, map_map, zero_add]
  rfl

theorem Tree.positioned_map_fst (t : Tree ContentHash) : t.positioned.map Prod.fst = t.entries := by
  apply ext_getElem?
  intro i
  rw [getElem?_map, positioned_getElem?, map_map]
  cases t.entries[i]? <;> rfl

theorem Tree.validate_positions (h : t.validate = .ok ()) :
    t.sourcePositions = [] ∨
      (t.scheme = .v3Flat ∧ t.sourcePositions.length = t.entries.length) := by
  simp only [validate] at h
  split at h
  · cases h
  · split at h
    · cases h
    · simp only [validateSourcePositions] at h
      split at h
      · exact .inl (isEmpty_iff.1 ‹_›)
      · split at h
        · cases h
        · split at h
          · cases h
          · exact .inr ⟨not_not.1 ‹_›, not_not.1 ‹_›⟩

theorem Tree.validate_salts (h : t.validate = .ok ()) :
    match t.scheme with
    | .v3Flat => t.salts = []
    | .v4Salted => t.salts.length = t.entries.length := by
  simp only [validate] at h
  split at h
  · cases h
  · rename_i hscheme
    simp only [validateScheme] at hscheme
    cases hs : t.scheme with
    | v3Flat =>
      simp only [hs] at hscheme
      split at hscheme
      · exact isEmpty_iff.1 ‹_›
      · cases hscheme
    | v4Salted =>
      simp only [hs] at hscheme
      split at hscheme
      · cases hscheme
      · exact not_not.1 ‹_›

theorem Tree.recorded_positioned (h : t.validate = .ok ()) :
    Recorded (t.positioned.map Prod.snd) t.sourcePositions := by
  rcases t.validate_positions h with hnil | ⟨_, hlen⟩
  · refine .inl ⟨hnil, fun p hp => ?_⟩
    obtain ⟨item, hitem, rfl⟩ := mem_map.1 hp
    obtain ⟨i, _, hi⟩ := getElem_of_mem hitem
    have hget := t.positioned_getElem? i
    rw [List.getElem?_eq_some_iff.2 ⟨_, hi⟩] at hget
    obtain ⟨e, _, he⟩ := map_eq_some_iff.1 hget.symm
    rw [← he, hnil]
    rfl
  · apply Or.inr
    apply ext_getElem?
    intro i
    rw [getElem?_map, positioned_getElem?, getElem?_map, map_map]
    by_cases hi : i < t.entries.length
    · rw [getElem?_eq_getElem hi, getElem?_eq_getElem (by omega)]
      rfl
    · rw [getElem?_eq_none (by omega), getElem?_eq_none (by omega)]
      rfl

theorem Tree.positioned_of_recorded (h : Recorded (items.map Prod.snd) positions) :
    ({ entries := items.map Prod.fst, sourcePositions := positions } : Tree ContentHash).positioned =
      items := by
  apply ext_getElem?
  intro i
  rw [positioned_getElem?]
  simp only [getElem?_map, map_map]
  cases hi : items[i]? with
  | none => rfl
  | some item =>
    have hsnd : positions[i]? = item.2 := by
      rcases h with ⟨rfl, hnone⟩ | hmap
      · exact (hnone item.2 (mem_map.2 ⟨item, mem_of_getElem? hi, rfl⟩)).symm
      · have hget := congrArg (fun l => l[i]?) hmap
        simp only [getElem?_map, hi, map_some] at hget
        cases hp : positions[i]? with
        | none =>
          rw [hp] at hget
          cases hget
        | some q =>
          rw [hp] at hget
          exact (some.inj hget).symm
    simp only [map_some, Function.comp, hsnd]

theorem tryFromDecodedLayout_ok_iff : Tree.tryFromDecodedLayout entries positions = .ok t ↔
      t = { entries := entries, sourcePositions := positions } ∧ t.validate = .ok () := by
  simp only [Tree.tryFromDecodedLayout, bind_eq_ok, pure_eq_ok, Except.ok.injEq]
  constructor
  · rintro ⟨_, hvalid, rfl⟩
    exact ⟨rfl, hvalid⟩
  · rintro ⟨rfl, hvalid⟩
    exact ⟨(), hvalid, rfl⟩

theorem tryFromDecodedEntriesSaltedV4_ok_iff {items : List (TreeEntry ContentHash × Vector UInt8 32)} :
    Tree.tryFromDecodedEntriesSaltedV4 (items.map Prod.fst) (items.map Prod.snd) = .ok t ↔
      t = { entries := items.map Prod.fst, scheme := .v4Salted, salts := items.map Prod.snd } ∧
        t.validate = .ok () := by
  simp only [Tree.tryFromDecodedEntriesSaltedV4, bind_eq_ok, refuse_eq_ok, pure_eq_ok,
    Except.ok.injEq, length_map, not_true_eq_false, ne_eq, not_false_eq_true, exists_const,
    true_and]
  constructor
  · rintro ⟨_, hvalid, rfl⟩
    exact ⟨rfl, hvalid⟩
  · rintro ⟨rfl, hvalid⟩
    exact ⟨(), hvalid, rfl⟩

end Layout

section Raw
variable (blake3 : Bytes → ContentHash) {t : Tree ContentHash}

theorem framed_flatMap_length (frames : List Bytes) :
    4 * frames.length ≤ (frames.flatMap framed).length := by
  induction frames with
  | nil => exact le_refl _
  | cons frame frames ih =>
    rw [flatMap_cons, length_append, framed_length, length_cons]
    omega

theorem frames_items_iff :
    List.Forall₂ (fun frame item => decodeEntryFrame frame = .ok item) frames items ↔
      (∀ item ∈ items, item.1.validate = .ok ()) ∧
        List.Forall₂ (fun item frame => encodeEntryFrame item.1 item.2 = .ok frame) items frames := by
  constructor
  · intro h
    induction h with
    | nil => exact ⟨fun _ h => (nomatch h), .nil⟩
    | cons hd _ ih =>
      obtain ⟨hvalid, hencode⟩ := decodeEntryFrame_ok_iff.1 hd
      exact ⟨forall_mem_cons.2 ⟨hvalid, ih.1⟩, .cons hencode ih.2⟩
  · rintro ⟨hvalid, h⟩
    induction h with
    | nil => exact .nil
    | cons hd _ ih =>
      obtain ⟨hfirst, hrest⟩ := forall_mem_cons.1 hvalid
      exact .cons (decodeEntryFrame_ok_iff.2 ⟨hfirst, hd⟩) (ih hrest)

theorem items_valid (h : t.validate = .ok ()) : ∀ item ∈ t.positioned, item.1.validate = .ok () := by
  intro item hitem
  apply (Tree.validate_entries h).1
  rw [← t.positioned_map_fst]
  exact mem_map.2 ⟨item, hitem, rfl⟩

theorem foldRaw_ok_iff (hlen : treeHeaderLen ≤ data.length) :
    foldFrames .truncatedFrame (fun (decoded : DecodedEntries) frame => do
        let item ← decodeEntryFrame frame
        decoded.push item) data data.length count treeHeaderLen {} = .ok (decoded, data.length) ↔
      ∃ items frames, frames.length = count ∧ (∀ frame ∈ frames, frame.length < 2 ^ 32) ∧
        (∀ item ∈ items, item.1.validate = .ok ()) ∧
        List.Forall₂ (fun item frame => encodeEntryFrame item.1 item.2 = .ok frame) items frames ∧
        data.drop treeHeaderLen = frames.flatMap framed ∧ decoded.entries = items.map Prod.fst ∧
        Recorded (items.map Prod.snd) decoded.positions := by
  rw [foldFrames_ok_iff]
  simp only [foldlM_decode_ok_iff]
  constructor
  · rintro ⟨_, frames, hcount, hshort, ⟨items, hall, hpush⟩, htake, _, _⟩
    obtain ⟨hvalid, hencode⟩ := frames_items_iff.1 hall
    obtain ⟨hentries, hpos⟩ := (decodedPush_ok_iff items decoded).1 hpush
    refine ⟨items, frames, hcount, hshort, hvalid, hencode, ?_, hentries, hpos⟩
    rw [take_length] at htake
    exact append_cancel_left ((take_append_drop treeHeaderLen data).trans htake)
  · rintro ⟨items, frames, hcount, hshort, hvalid, hencode, hdrop, hentries, hpos⟩
    refine ⟨hlen, frames, hcount, hshort, ⟨items, frames_items_iff.2 ⟨hvalid, hencode⟩,
      (decodedPush_ok_iff items decoded).2 ⟨hentries, hpos⟩⟩, ?_, ?_, .inr (le_refl _)⟩
    · rw [take_length, ← hdrop, take_append_drop]
    · rw [← hdrop, length_drop]
      omega

end Raw

end Heddle
