import Heddle.Object.StreamLean
import Heddle.Object.CanonicalImage

namespace Heddle
open Heddle.Lib List

section Open
variable {source : BytesTreeSource} {expectedId : ContentHash}

theorem readMagic_ok_iff :
    source.readExactAt 0 4 = .ok magic ↔ 4 ≤ source.bytes.length ∧ magic = source.bytes.take 4 := by
  rw [BytesTreeSource.readExactAt_eq_ok, sliceAt, zero_add, drop_zero]
  split
  · rw [Option.some.injEq, eq_comm, and_iff_right ‹_›]
  · constructor
    · intro h
      cases h
    · rintro ⟨hlen, _⟩
      exact absurd hlen ‹_›

theorem openLayout_ok_iff : openLayout source expectedId = .ok opened ↔
    (isLeanTree source.bytes ∧ openLean source expectedId = .ok opened) ∨
      (isCanonicalTree source.bytes ∧ openHeadered source expectedId = .ok opened) := by
  simp only [openLayout, bind_eq_ok, refuse_eq_ok, readMagic_ok_iff]
  have hfour : ∀ magic : Bytes, magic.length = 4 → source.bytes.take 4 = magic →
      4 ≤ source.bytes.length := by
    intro magic hlen htake
    rw [← htake, length_take] at hlen
    omega
  constructor
  · rintro ⟨_, ⟨hlen, rfl⟩, _, hredacted, _, hsalted, h⟩
    by_cases hlean : source.bytes.take 4 = treeLeanMagic
    · rw [if_pos hlean] at h
      exact .inl ⟨decide_eq_true hlean, h⟩
    · rw [if_neg hlean] at h
      refine .inr ⟨?_, h⟩
      simp only [openHeadered, bind_eq_ok] at h
      obtain ⟨buf, hbuf, header, hheader, _⟩ := h
      obtain ⟨_, hmagic, _⟩ := decodeHeader_ok_iff.1 hheader
      rw [BytesTreeSource.readExactAt_eq_ok, sliceAt] at hbuf
      split at hbuf
      · cases hbuf
        rw [isCanonicalTree, drop_zero, take_take] at hmagic
        exact hmagic
      · cases hbuf
  · rintro (⟨hlean, h⟩ | ⟨hcanonical, h⟩)
    · have hmagic : source.bytes.take 4 = treeLeanMagic := of_decide_eq_true hlean
      refine ⟨_, ⟨hfour _ (by decide) hmagic, rfl⟩, (), ?_, (), ?_, ?_⟩
      · rw [hmagic]
        decide
      · rw [hmagic]
        decide
      · rw [if_pos hmagic]
        exact h
    · have hmagic : source.bytes.take 4 = treeCanonicalMagic := of_decide_eq_true hcanonical
      have hne : ¬treeCanonicalMagic = treeLeanMagic := by decide
      refine ⟨_, ⟨hfour _ (by decide) hmagic, rfl⟩, (), ?_, (), ?_, ?_⟩
      · rw [hmagic]
        exact canonicalMagic_ne_redacted
      · rw [hmagic]
        exact canonicalMagic_ne_salted
      · rw [hmagic, if_neg hne]
        exact h

theorem decodeHeader_take (data : Bytes) :
    decodeHeader (data.take treeHeaderLen) = .ok header ↔ decodeHeader data = .ok header := by
  by_cases hlen : treeHeaderLen ≤ data.length
  · have hdrop : ∀ k n, k + n ≤ treeHeaderLen →
        ((data.take treeHeaderLen).drop k).take n = (data.drop k).take n := by
      intro k n hk
      rw [drop_take, take_take, Nat.min_eq_left (by omega)]
    have htake : (data.take treeHeaderLen).take 4 = data.take 4 := hdrop 0 4 (by decide)
    have hone := hdrop 4 1 (by decide)
    have hversion : headerVersion (data.take treeHeaderLen) = headerVersion data := by
      rw [headerVersion, headerVersion]
      have hhead := congrArg (fun l : Bytes => l.headD 0) hone
      cases ha : (data.take treeHeaderLen).drop 4 <;> cases hb : data.drop 4 <;>
        simp_all
    simp only [decodeHeader_ok_iff, headerFields, isCanonicalTree, htake, hversion,
      hdrop 5 32 (by decide), hdrop 37 8 (by decide), hdrop 45 8 (by decide),
      hdrop 53 8 (by decide), length_take, Nat.min_eq_left hlen, le_refl, hlen]
  · rw [take_of_length_le (by omega)]

theorem openHeadered_ok_iff : openHeadered source expectedId = .ok (header, layout) ↔
    decodeHeader source.bytes = .ok header ∧ header.treeId = expectedId ∧
      source.bytes.length = treeHeaderLen + header.payloadLen ∧
      (if header.version = treeBlockEncodingVersion then openBlocked source header = .ok layout
        else layout = .raw) := by
  have hbuf : ∀ buf, source.readExactAt 0 treeHeaderLen = .ok buf →
      buf = source.bytes.take treeHeaderLen := by
    intro buf h
    rw [BytesTreeSource.readExactAt_eq_ok, sliceAt] at h
    split at h
    · cases h
      rw [drop_zero]
    · cases h
  simp only [openHeadered, bind_eq_ok, refuse_eq_ok, not_lt, not_not]
  constructor
  · rintro ⟨buf, hread, found, hheader, _, hid, _, hlower, _, hupper, h⟩
    rw [hbuf buf hread, decodeHeader_take] at hheader
    split at h
    · obtain ⟨opened, hblocked, hpair⟩ := bind_eq_ok.1 h
      cases hpair
      refine ⟨hheader, hid, by omega, ?_⟩
      rw [if_pos ‹_›]
      exact hblocked
    · cases h
      refine ⟨hheader, hid, by omega, ?_⟩
      rw [if_neg ‹_›]
  · rintro ⟨hheader, hid, hlen, h⟩
    have hread : source.readExactAt 0 treeHeaderLen = .ok (source.bytes.take treeHeaderLen) := by
      rw [BytesTreeSource.readExactAt_eq_ok, sliceAt, if_pos (by omega), drop_zero]
    refine ⟨_, hread, header, (decodeHeader_take _).2 hheader, (), hid, (), by omega, (), by omega, ?_⟩
    split at h
    · rw [if_pos ‹_›]
      exact bind_eq_ok.2 ⟨layout, h, rfl⟩
    · rw [if_neg ‹_›, h]
      rfl

end Open

section Raw
variable (decompress : Bytes → Nat → Except String Bytes) {body : TreeBody}

/-- A frame of the body and what was read from it. -/
def ReadFrom (item : DecodedStreamEntry) (frame : Bytes) : Prop :=
  decodeEntryFrame frame = .ok item.pair ∧ item.consumed = 4 + frame.length ∧ frame.length < 2 ^ 32

def NamesAscend (previous : Option String) (items : List DecodedStreamEntry) : Prop :=
  (∀ p ∈ previous, ∀ item ∈ items, p < item.entry.name) ∧
    items.Pairwise (fun a b => a.entry.name < b.entry.name)

theorem readRawEntry_ok_iff (hlen : treeHeaderLen + header.payloadLen = source.bytes.length) :
    readRawEntry source header offset = .ok item ↔ ∃ frame rest, ReadFrom item frame ∧
      source.bytes.drop offset = framed frame ++ rest := by
  have htake : readRawEntry source header offset = .ok item ↔ ∃ frame next,
      takeFrame TreeStreamError.truncatedFrame source.bytes source.bytes.length offset = .ok (frame, next) ∧
        decodeEntryFrame frame = .ok item.pair ∧ item.consumed = 4 + frame.length := by
    simp only [readRawEntry, takeFrame, bind_eq_ok, refuse_eq_ok, pure_eq_ok, Except.ok.injEq,
      BytesTreeSource.readExactAt_eq_ok, sliceAt, hlen, or_self, not_lt]
    constructor
    · rintro ⟨lenBuf, hlenBuf, _, hend, frame, hframe, pair, hdecode, rfl⟩
      split at hlenBuf
      · rename_i hfour
        cases hlenBuf
        rw [if_pos hend, Option.some.injEq] at hframe
        refine ⟨frame, offset + 4 + ofLeBytes ((source.bytes.drop offset).take 4), ?_, hdecode, ?_⟩
        · rw [if_neg (by omega), if_neg (by omega), hframe]
        · rw [← hframe, length_take, length_drop, Nat.min_eq_left (by omega)]
      · cases hlenBuf
    · rintro ⟨frame, next, htake, hdecode, hconsumed⟩
      split at htake
      · cases htake
      · split at htake
        · cases htake
        · cases htake
          refine ⟨_, if_pos (by omega), (), by omega, _, if_pos (by omega), item.pair, hdecode, ?_⟩
          cases item
          simp only [DecodedStreamEntry.pair, DecodedStreamEntry.mk.injEq, true_and]
          rw [length_take, length_drop] at hconsumed
          simp only at hconsumed
          omega
  rw [htake]
  simp only [takeFrame_ok_iff]
  constructor
  · rintro ⟨frame, next, ⟨hshort, before, after, hdata, rfl, rfl⟩, hdecode, hconsumed⟩
    refine ⟨frame, after, ⟨hdecode, hconsumed, hshort⟩, ?_⟩
    rw [hdata, append_assoc, drop_left]
  · rintro ⟨frame, rest, ⟨hdecode, hconsumed, hshort⟩, hdrop⟩
    refine ⟨frame, _, ⟨hshort, source.bytes.take offset, rest, ?_, ?_, rfl⟩, hdecode, hconsumed⟩
    · rw [append_assoc, ← hdrop, take_append_drop]
    · have hlength := congrArg List.length hdrop
      simp only [length_drop, length_append, framed_length] at hlength
      rw [length_take]
      omega

theorem namesAscend_cons_iff {cursor : TreeResumeCursor} :
    NamesAscend cursor.prevName (item :: items) ↔
      cursor.Precedes item ∧ NamesAscend (cursor.advance item).prevName items := by
  simp only [NamesAscend, TreeResumeCursor.Precedes, TreeResumeCursor.advance, not_exists, not_and,
    not_le, forall_mem_cons, pairwise_cons]
  constructor
  · rintro ⟨hprevious, hhead, hrest⟩
    exact ⟨fun p hp => (hprevious p hp).1, fun p hp => by cases hp; exact hhead, hrest⟩
  · rintro ⟨hfirst, hnext, hrest⟩
    exact ⟨fun p hp => ⟨hfirst p hp, fun other hother =>
      lt_trans (hfirst p hp) (hnext _ rfl other hother)⟩, hnext _ rfl, hrest⟩

theorem rawWalk_ok_iff (hlayout : body.layout = .raw)
    (hlen : treeHeaderLen + body.header.payloadLen = body.source.bytes.length) :
    (∃ last, walk (body.step decompress) items.length cursor = .ok (items, last) ∧
        last.byteOffset = body.source.bytes.length) ↔
      cursor.byteOffset ≤ body.source.bytes.length ∧ NamesAscend cursor.prevName items ∧
        ∃ frames, List.Forall₂ ReadFrom items frames ∧
          body.source.bytes.drop cursor.byteOffset = frames.flatMap framed := by
  induction items generalizing cursor with
  | nil =>
    constructor
    · rintro ⟨last, hwalk, hlast⟩
      obtain ⟨_, rfl⟩ := walk_zero_ok_iff.1 hwalk
      refine ⟨hlast.le, ⟨fun _ _ _ h => (nomatch h), .nil⟩, [], .nil, ?_⟩
      rw [hlast, drop_length]
      rfl
    · rintro ⟨hle, _, frames, hframes, hdrop⟩
      cases hframes
      refine ⟨cursor, rfl, ?_⟩
      have hlength := congrArg List.length hdrop
      simp only [length_drop, flatMap_nil, length_nil] at hlength
      omega
  | cons item items ih =>
    have hentryAt : body.entryAt decompress cursor =
        readRawEntry body.source body.header cursor.byteOffset := by
      rw [TreeBody.entryAt, hlayout]
    have hcut : ∀ (frame : Bytes), item.consumed = 4 + frame.length → ∀ rest,
        body.source.bytes.drop cursor.byteOffset = framed frame ++ rest →
          body.source.bytes.drop (cursor.advance item).byteOffset = rest := by
      intro frame hconsumed rest hdrop
      simp only [TreeResumeCursor.advance]
      rw [← drop_drop, hdrop]
      apply drop_left'
      rw [framed_length, hconsumed]
    rw [namesAscend_cons_iff]
    constructor
    · rintro ⟨last, hwalk, hlast⟩
      obtain ⟨first, next, rest, hstep, hrest, hcons⟩ := walk_succ_ok_iff.1 hwalk
      cases hcons
      obtain ⟨hentry, hprecedes, rfl⟩ := (TreeBody.step_ok_iff decompress).1 hstep
      rw [hentryAt, readRawEntry_ok_iff hlen] at hentry
      obtain ⟨frame, tail, hread, hdrop⟩ := hentry
      obtain ⟨hle, hascend, frames, hframes, hframesDrop⟩ := ih.1 ⟨last, hrest, hlast⟩
      refine ⟨?_, ⟨hprecedes, hascend⟩, frame :: frames, .cons hread hframes, ?_⟩
      · simp only [TreeResumeCursor.advance] at hle
        omega
      · rw [flatMap_cons, ← hframesDrop, hcut frame hread.2.1 tail hdrop, hdrop]
    · rintro ⟨hle, ⟨hprecedes, hascend⟩, frames, hframes, hdrop⟩
      cases hframes with
      | cons hread hrest =>
        rename_i frame frames
        rw [flatMap_cons] at hdrop
        have hnext := hcut frame hread.2.1 _ hdrop
        have hinside : (cursor.advance item).byteOffset ≤ body.source.bytes.length := by
          have hlength := congrArg List.length hdrop
          simp only [length_drop, length_append, framed_length] at hlength
          simp only [TreeResumeCursor.advance, hread.2.1]
          omega
        obtain ⟨last, hwalk, hlast⟩ := ih.2 ⟨hinside, hascend, frames, hrest, hnext⟩
        refine ⟨last, walk_succ_ok_iff.2 ⟨item, _, items, ?_, hwalk, rfl⟩, hlast⟩
        apply (TreeBody.step_ok_iff decompress).2
        rw [hentryAt, readRawEntry_ok_iff hlen]
        exact ⟨⟨frame, _, hread, hdrop⟩, hprecedes, rfl⟩

end Raw
end Heddle
