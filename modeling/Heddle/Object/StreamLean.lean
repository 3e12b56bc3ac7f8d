import Heddle.Object.StreamVerify

namespace Heddle
open Heddle.Lib

section SameOk

/-- Two computations that go through on the same results; their errors may differ. -/
def SameOk (x : Except ε α) (y : Except δ α) : Prop := ∀ a, x = .ok a ↔ y = .ok a

theorem SameOk.refl (x : Except ε α) : SameOk x x := fun _ => Iff.rfl

theorem SameOk.bind (h : SameOk x y) (hfg : ∀ a, SameOk (f a) (g a)) :
    SameOk (x >>= f) (y >>= g) := by
  intro b
  simp only [bind_eq_ok, h _, hfg _ b]

theorem SameOk.ite [Decidable p] (hx : SameOk x x') (hy : SameOk y y') :
    SameOk (if p then x else y) (if p then x' else y') := by
  split
  · exact hx
  · exact hy

end SameOk

section Inputs
variable {source : BytesTreeSource}

theorem sliceInput_byte_same (source : BytesTreeSource) (offset : Nat) :
    SameOk ((sliceInput source.bytes).byte offset) ((sourceInput source).byte offset) := by
  intro b
  simp only [sliceInput, sourceInput, orElseErr_eq_ok, bind_eq_ok, pure_eq_ok, Except.ok.injEq,
    BytesTreeSource.readExactAt_eq_ok, sliceAt]
  by_cases hlt : offset + 1 ≤ source.bytes.length
  · rw [if_pos hlt, List.getElem?_eq_getElem (by omega), List.drop_eq_getElem_cons (by omega)]
    constructor
    · intro h
      exact ⟨_, rfl, Option.some.inj h⟩
    · rintro ⟨_, h, rfl⟩
      cases h
      rfl
  · rw [if_neg hlt, List.getElem?_eq_none (by omega)]
    constructor
    · intro h
      cases h
    · rintro ⟨_, h, _⟩
      cases h

theorem sliceInput_field_same (hsize : source.bytes.length < 2 ^ 64) (what what' : String)
    (offset len : Nat) :
    SameOk ((sliceInput source.bytes).field what offset len)
      ((sourceInput source).field what' offset len) := by
  intro slice
  simp only [sliceInput, sourceInput, orElseErr_eq_ok, bind_eq_ok, refuse_eq_ok, not_le,
    BytesTreeSource.readExactAt_eq_ok, sliceAt]
  by_cases hle : offset + len ≤ source.bytes.length
  · rw [if_pos hle]
    constructor
    · rintro ⟨_, _, h⟩
      exact h
    · intro h
      exact ⟨(), by omega, h⟩
  · rw [if_neg hle]
    constructor
    · rintro ⟨_, _, h⟩
      exact h
    · intro h
      cases h

theorem takeVarintFrom_same (h : ∀ offset, SameOk (byte offset) (byte' offset))
    (shifts : List Nat) (value offset : Nat) :
    SameOk (takeVarintFrom byte shifts value offset) (takeVarintFrom byte' shifts value offset) := by
  induction shifts generalizing value offset with
  | nil => exact .refl _
  | cons shift shifts ih =>
    rw [takeVarintFrom, takeVarintFrom]
    apply (h offset).bind
    intro b
    exact .ite (.refl _) (ih _ _)

theorem takeVarint_same (source : BytesTreeSource) (offset : Nat) :
    SameOk ((sliceInput source.bytes).takeVarint offset)
      ((sourceInput source).takeVarint offset) :=
  takeVarintFrom_same (sliceInput_byte_same source) varintShifts 0 offset

section
variable (hsize : source.bytes.length < 2 ^ 64)
include hsize

theorem spoollink_same (offset : Nat) :
    SameOk (sliceSpoollink source.bytes offset) (sourceSpoollink source offset) := by
  intro link
  simp only [sliceSpoollink, sourceSpoollink, bind_eq_ok, takeVarint_same source _ _,
    sliceInput_field_same hsize _ "compact spool" _ _ _]
  constructor
  · rintro ⟨len, hlen, spoolBytes, hspool, text, htext, stateBytes, hbytes, state, hstate, spoolId,
      hid, hlink⟩
    exact ⟨len, hlen, spoolBytes, hspool, text, htext, spoolId, hid, stateBytes, hbytes, state,
      hstate, hlink⟩
  · rintro ⟨len, hlen, spoolBytes, hspool, text, htext, spoolId, hid, stateBytes, hbytes, state,
      hstate, hlink⟩
    exact ⟨len, hlen, spoolBytes, hspool, text, htext, stateBytes, hbytes, state, hstate, spoolId,
      hid, hlink⟩

theorem compactTarget_same (name : String)
    (kind : EntryType) (mode : FileMode) (offset : Nat) :
    SameOk
      (compactTarget (sliceInput source.bytes) (sliceSpoollink source.bytes) name kind mode offset)
      (compactTarget (sourceInput source) (sourceSpoollink source) name kind mode offset) := by
  have hhash := (sliceInput_field_same hsize "compact hash" "compact hash" offset 32).bind
    fun bytes => SameOk.refl (orElseErr (.malformed "compact hash is not 32 bytes")
      (ContentHash.ofSlice bytes))
  cases kind with
  | blob => exact hhash.bind fun _ => .refl _
  | tree => exact hhash.bind fun _ => .refl _
  | symlink => exact hhash.bind fun _ => .refl _
  | gitlink =>
    apply (sliceInput_byte_same source offset).bind
    intro tag
    apply (SameOk.refl _).bind
    intro format
    exact (sliceInput_field_same hsize _ _ _ _).bind fun _ => .refl _
  | spoollink => exact (spoollink_same hsize offset).bind fun _ => .refl _

theorem compactEntry_same (offset : Nat)
    (previous : String) :
    SameOk (decodeCompactEntry source.bytes offset previous)
      (readCompactEntry source offset previous) := by
  apply (sliceInput_byte_same source offset).bind
  intro tag
  apply (SameOk.refl _).bind
  intro mode
  apply (SameOk.refl _).bind
  intro kind
  apply (takeVarint_same source _).bind
  intro shared
  apply (takeVarint_same source _).bind
  intro suffixLen
  apply (SameOk.refl _).bind
  intro _
  apply (sliceInput_field_same hsize _ _ _ _).bind
  intro suffix
  apply (SameOk.refl _).bind
  intro name
  exact (compactTarget_same hsize name kind mode _).bind fun _ => .refl _

end

end Inputs

section Progress
variable {source : BytesTreeSource}

theorem takeVarintFrom_offset (h : takeVarintFrom byte shifts value offset = .ok (found, next)) :
    offset < next := by
  induction shifts generalizing value offset with
  | nil => cases h
  | cons shift shifts ih =>
    rw [takeVarintFrom] at h
    obtain ⟨b, _, h⟩ := bind_eq_ok.1 h
    simp only at h
    split at h
    · cases h
      exact Nat.lt_succ_self _
    · exact lt_trans (Nat.lt_succ_self _) (ih h)

theorem compactTarget_offset (h : compactTarget (sourceInput source) (sourceSpoollink source) name
    kind mode offset = .ok (e, next)) : offset ≤ next := by
  cases kind with
  | blob | tree | symlink =>
    simp only [compactTarget, bind_eq_ok, pure_eq_ok, Except.ok.injEq, Prod.mk.injEq] at h
    obtain ⟨_, _, _, _, _, rfl⟩ := h
    exact Nat.le_add_right _ _
  | gitlink =>
    simp only [compactTarget, bind_eq_ok, pure_eq_ok, Except.ok.injEq, Prod.mk.injEq] at h
    obtain ⟨_, _, _, _, _, _, _, _, _, _, _, rfl⟩ := h
    omega
  | spoollink =>
    simp only [compactTarget, sourceSpoollink, bind_eq_ok, pure_eq_ok, Except.ok.injEq,
      Prod.mk.injEq] at h
    obtain ⟨_, ⟨len, hlen, _, _, _, _, _, _, _, _, _, _, rfl⟩, _, _, _, rfl⟩ := h
    have hoffset := takeVarintFrom_offset hlen
    simp only
    omega

theorem readCompactEntry_offset (h : readCompactEntry source offset previous = .ok (e, next)) :
    offset < next := by
  simp only [readCompactEntry, compactEntry, bind_eq_ok, pure_eq_ok, Except.ok.injEq] at h
  obtain ⟨_, _, _, _, _, _, shared, hshared, suffix, hsuffix, _, _, _, _, _, _, ⟨e', next'⟩, htarget,
    _, _, hpair⟩ := h
  cases hpair
  have h1 := takeVarintFrom_offset hshared
  have h2 := takeVarintFrom_offset hsuffix
  have h3 := compactTarget_offset htarget
  omega

theorem compactTarget_valid (h : compactTarget input takeSpoollink name kind
    mode offset = .ok (e, next)) : e.validate = .ok () ∧ e.gitMode = none := by
  have hchecked : ∀ target, TreeEntry.withChecked name target = .ok e →
      e.validate = .ok () ∧ e.gitMode = none := by
    intro target hok
    obtain ⟨hname, rfl⟩ := withChecked_ok_iff.1 hok
    exact ⟨validate_ok_iff.2 ⟨hname, fun _ h => (nomatch h)⟩, rfl⟩
  cases kind with
  | blob | tree | symlink =>
    simp only [compactTarget, bind_eq_ok, liftTree_eq_ok, pure_eq_ok, Except.ok.injEq,
      Prod.mk.injEq] at h
    obtain ⟨_, _, _, hentry, rfl, _⟩ := h
    exact hchecked _ hentry
  | gitlink =>
    simp only [compactTarget, bind_eq_ok, liftTree_eq_ok, pure_eq_ok, Except.ok.injEq,
      Prod.mk.injEq] at h
    obtain ⟨_, _, _, _, _, _, _, _, _, hentry, rfl, _⟩ := h
    exact hchecked _ hentry
  | spoollink =>
    simp only [compactTarget, bind_eq_ok, liftTree_eq_ok, pure_eq_ok, Except.ok.injEq,
      Prod.mk.injEq] at h
    obtain ⟨_, _, _, hentry, rfl, _⟩ := h
    exact hchecked _ hentry

theorem readCompactEntry_valid (h : readCompactEntry source offset previous = .ok (e, next)) :
    e.validate = .ok () := by
  simp only [readCompactEntry, compactEntry, bind_eq_ok, pure_eq_ok, Except.ok.injEq] at h
  obtain ⟨_, _, _, _, _, _, _, _, _, _, _, _, _, _, _, _, ⟨e', next'⟩, htarget, _, _, hpair⟩ := h
  cases hpair
  exact (compactTarget_valid htarget).1

theorem readLeanEntry_ok_iff :
    readLeanEntry source offset prevName = .ok item ↔ ∃ next,
      readCompactEntry source offset (prevName.getD "") = .ok (item.entry, next) ∧
        item.position = none ∧ offset + item.consumed = next := by
  simp only [readLeanEntry, bind_eq_ok, pure_eq_ok, Except.ok.injEq]
  constructor
  · rintro ⟨⟨e, next⟩, hread, rfl⟩
    have hoffset := readCompactEntry_offset hread
    exact ⟨next, hread, rfl, by simp only; omega⟩
  · rintro ⟨next, hread, hposition, hconsumed⟩
    refine ⟨(item.entry, next), hread, ?_⟩
    cases item
    simp only at hposition hconsumed ⊢
    simp only [hposition, DecodedStreamEntry.mk.injEq, true_and]
    omega

end Progress

section Walk
variable (decompress : Bytes → Nat → Except String Bytes)
variable {body : TreeBody}

theorem decodeLeanFrom_ok_iff (hsize : body.source.bytes.length < 2 ^ 64)
    (hlayout : body.layout = .lean bodyStart)
    (hprevious : cursor.prevName = if previous = "" then none else some previous) :
    decodeLeanFrom body.source.bytes n previous cursor.byteOffset entries =
        .ok (entries', stop) ↔
      ∃ items last, walk (body.step decompress) n cursor = .ok (items, last) ∧
        entries' = entries ++ items.map DecodedStreamEntry.entry ∧ last.byteOffset = stop := by
  induction n generalizing cursor previous entries with
  | zero =>
    simp only [decodeLeanFrom, Except.ok.injEq, Prod.mk.injEq, walk_zero_ok_iff]
    constructor
    · rintro ⟨rfl, rfl⟩
      exact ⟨[], cursor, ⟨rfl, rfl⟩, by simp, rfl⟩
    · rintro ⟨_, _, ⟨rfl, rfl⟩, rfl, rfl⟩
      exact ⟨by simp, rfl⟩
  | succ n ih =>
    have hgetD : cursor.prevName.getD "" = previous := by
      rw [hprevious]
      split
      · exact Eq.symm ‹_›
      · rfl
    have hentryAt : body.entryAt decompress cursor =
        readLeanEntry body.source cursor.byteOffset cursor.prevName := by
      rw [TreeBody.entryAt, hlayout]
    have hprecedes : ∀ item : DecodedStreamEntry,
        cursor.Precedes item ↔ ¬(previous ≠ "" ∧ item.entry.name ≤ previous) := by
      intro item
      rw [TreeResumeCursor.Precedes, hprevious]
      by_cases hempty : previous = ""
      · simp [hempty]
      · simp [hempty]
    simp only [decodeLeanFrom, bind_eq_ok, refuse_eq_ok, walk_succ_ok_iff,
      TreeBody.step_ok_iff, hentryAt, readLeanEntry_ok_iff, hgetD, hprecedes,
      compactEntry_same hsize _ _ _]
    constructor
    · rintro ⟨⟨e, next⟩, hread, _, hsorted, hrest⟩
      have hoffset := readCompactEntry_offset hread
      have hname := TreeEntry.name_ne_empty (readCompactEntry_valid hread)
      have hstop : cursor.byteOffset + (next - cursor.byteOffset) = next := by omega
      have hfirst : (cursor.advance ⟨e, none, next - cursor.byteOffset⟩).byteOffset = next := hstop
      rw [← hfirst] at hrest
      obtain ⟨items, last, hwalk, rfl, hlast⟩ := (ih (by simp [TreeResumeCursor.advance, hname])).1
        hrest
      refine ⟨_, last, ⟨⟨e, none, next - cursor.byteOffset⟩, _, items, ⟨⟨next, hread, rfl, hstop⟩,
        hsorted, rfl⟩, hwalk, rfl⟩, ?_, hlast⟩
      rw [List.map_cons, List.append_assoc, List.singleton_append]
    · rintro ⟨_, last, ⟨item, _, items, ⟨⟨next, hread, _, hnext⟩, hsorted, rfl⟩, hwalk, rfl⟩, rfl,
        hlast⟩
      have hname := TreeEntry.name_ne_empty (readCompactEntry_valid hread)
      refine ⟨(item.entry, next), hread, (), hsorted, ?_⟩
      rw [← hnext]
      change decodeLeanFrom _ n _ (cursor.advance item).byteOffset _ = _
      apply (ih (by simp [TreeResumeCursor.advance, hname])).2
      refine ⟨items, last, hwalk, ?_, hlast⟩
      rw [List.map_cons, List.append_assoc, List.singleton_append]

end Walk
end Heddle
