import Heddle.Lib.ByteReader
import Heddle.Lib.MsgPack
import Mathlib.Data.Vector.Defs

namespace Heddle.Lib
open List hiding Vector
open Heddle.Lib.MsgPack (beBytes ofBeBytes)

def takeByte (eof : ε) : Reader ε UInt8
  | [] => .error eof
  | byte :: bytes => .ok (byte, bytes)

theorem size_toArray_take {bytes : List UInt8} (h : n ≤ bytes.length) :
    (bytes.take n).toArray.size = n := by
  rw [size_toArray, length_take, Nat.min_eq_left h]

def takeVector (eof : ε) (n : Nat) : Reader ε (Vector UInt8 n) := fun bytes =>
  if h : n ≤ bytes.length then
    .ok (⟨(bytes.take n).toArray, size_toArray_take h⟩, bytes.drop n)
  else .error eof

theorem ofBeBytes_lt (bytes : List UInt8) : ofBeBytes bytes < 256 ^ bytes.length := by
  have hlt := ofLeBytes_lt bytes.reverse
  rwa [length_reverse] at hlt

def takeBe (eof : ε) (width : Nat) : Reader ε { n : Nat // n < 256 ^ width } := fun bytes =>
  if h : width ≤ bytes.length then
    .ok (⟨ofBeBytes (bytes.take width), by
      have hlt := ofBeBytes_lt (bytes.take width)
      rwa [length_take, Nat.min_eq_left h] at hlt⟩, bytes.drop width)
  else .error eof

def takeU64 (eof : ε) : Reader ε UInt64 := return UInt64.ofNat (← takeBe eof 8).1

def takeU32 (eof : ε) : Reader ε UInt32 := return UInt32.ofNat (← takeBe eof 4).1

def takeI64 (eof : ε) : Reader ε Int64 := return (← takeU64 eof).toInt64

theorem takeByte_ok_iff :
    takeByte eof bytes = .ok (byte, rest) ↔ bytes = byte :: rest := by
  cases bytes with
  | nil => exact ⟨nofun, nofun⟩
  | cons first bytes => rw [takeByte, Except.ok.injEq, Prod.mk.injEq, List.cons.injEq]

theorem takeVector_ok_iff :
    takeVector eof n bytes = .ok (taken, rest) ↔ bytes = taken.toList ++ rest := by
  unfold takeVector
  constructor
  · intro h
    split at h
    · cases h
      exact (take_append_drop n bytes).symm
    · cases h
  · intro h
    subst h
    have hlen : taken.toList.length = n := taken.length_toList
    rw [dif_pos (by rw [length_append, hlen]; omega)]
    congr 2
    · apply Vector.toList_inj.1
      exact take_left' hlen
    · exact drop_left' hlen

@[simp] theorem length_beBytes (width n : Nat) : (beBytes width n).length = width := by
  rw [beBytes, length_reverse, length_leBytes]

theorem beBytes_of_length (h : bytes.length = width) :
    beBytes width (ofBeBytes bytes) = bytes := by
  rw [beBytes, ofBeBytes, leBytes_of_length (by rw [length_reverse, h]), reverse_reverse]

theorem takeBe_ok_iff :
    takeBe eof width bytes = .ok (n, rest) ↔ bytes = beBytes width n.1 ++ rest := by
  unfold takeBe
  constructor
  · intro h
    split at h
    · rename_i hle
      cases h
      have hlen : (bytes.take width).length = width := by rw [length_take, Nat.min_eq_left hle]
      rw [beBytes_of_length hlen, take_append_drop]
    · cases h
  · intro h
    subst h
    have hlen : (beBytes width n.1).length = width := length_beBytes width n.1
    rw [dif_pos (by rw [length_append, hlen]; omega)]
    have htake : (beBytes width n.1 ++ rest).take width = beBytes width n.1 := take_left' hlen
    have hdrop : (beBytes width n.1 ++ rest).drop width = rest := drop_left' hlen
    congr 2
    · apply Subtype.ext
      change ofBeBytes ((beBytes width n.1 ++ rest).take width) = n.1
      rw [htake, MsgPack.ofBeBytes_beBytes n.2]

theorem takeU64_ok_iff :
    takeU64 eof bytes = .ok (n, rest) ↔ bytes = beBytes 8 n.toNat ++ rest := by
  unfold takeU64
  simp only [read_bind_ok_iff, takeBe_ok_iff, read_pure_ok_iff]
  constructor
  · rintro ⟨m, _, rfl, rfl, rfl⟩
    have hlt : m.1 < UInt64.size := m.2
    rw [UInt64.toNat_ofNat_of_lt' hlt]
  · intro h
    exact ⟨⟨n.toNat, n.toNat_lt⟩, rest, h, UInt64.ofNat_toNat, rfl⟩

theorem Reads.bind_nil {read : Reader ε α} {next : α → Reader ε β} (h : Reads read bytes a)
    (hnext : Reads (next a) [] b) :
    Reads (read >>= next) bytes b := by
  have hboth := h.bind hnext
  rwa [append_nil] at hboth

theorem Reads.takeByte (eof : ε) (byte : UInt8) : Reads (Lib.takeByte eof) [byte] byte :=
  fun _ => rfl

theorem Reads.takeVector (eof : ε) (taken : Vector UInt8 n) :
    Reads (Lib.takeVector eof n) taken.toList taken :=
  fun _ => takeVector_ok_iff.2 rfl

theorem Reads.takeU64 (eof : ε) (n : UInt64) : Reads (Lib.takeU64 eof) (beBytes 8 n.toNat) n :=
  fun _ => takeU64_ok_iff.2 rfl

theorem Reads.takeU32 (eof : ε) (n : UInt32) : Reads (Lib.takeU32 eof) (beBytes 4 n.toNat) n := by
  intro rest
  refine read_bind_ok_iff.2 ⟨⟨n.toNat, n.toNat_lt⟩, rest, takeBe_ok_iff.2 rfl, ?_⟩
  exact read_pure_ok_iff.2 ⟨UInt32.ofNat_toNat, rfl⟩

theorem Reads.takeI64 (eof : ε) (n : Int64) :
    Reads (Lib.takeI64 eof) (beBytes 8 n.toUInt64.toNat) n := by
  intro rest
  refine read_bind_ok_iff.2 ⟨n.toUInt64, rest, takeU64_ok_iff.2 rfl, ?_⟩
  exact read_pure_ok_iff.2 ⟨Int64.toInt64_toUInt64 n, rfl⟩

end Heddle.Lib

namespace Heddle.Lib

def framed (frame : List UInt8) : List UInt8 := leBytes 4 frame.length ++ frame

@[simp] theorem framed_length (frame : List UInt8) : (framed frame).length = 4 + frame.length := by
  rw [framed, List.length_append, length_leBytes]

section
variable (truncated : Nat → ε)

def takeFrame (data : List UInt8) (stop offset : Nat) : Except ε (List UInt8 × Nat) :=
  let frameLen := ofLeBytes ((data.drop offset).take 4)
  if offset + 4 > stop then .error (truncated offset)
  else if offset + 4 + frameLen > stop then .error (truncated offset)
  else .ok ((data.drop (offset + 4)).take frameLen, offset + 4 + frameLen)

def foldFrames (step : σ → List UInt8 → Except ε σ) (data : List UInt8) (stop : Nat) :
    Nat → Nat → σ → Except ε (σ × Nat)
  | 0, offset, s => .ok (s, offset)
  | count + 1, offset, s => do
    let next ← takeFrame truncated data stop offset
    let s ← step s next.1
    foldFrames step data stop count next.2 s

theorem takeFrame_ok_iff :
    takeFrame truncated data data.length offset = .ok (frame, next) ↔
      frame.length < 2 ^ 32 ∧ ∃ before after, data = before ++ framed frame ++ after ∧
        before.length = offset ∧ next = (before ++ framed frame).length := by
  constructor
  · intro h
    simp only [takeFrame] at h
    split at h
    · cases h
    · split at h
      · cases h
      · rename_i hfour hlen
        obtain ⟨hframe, hnext⟩ := Prod.mk.inj (Except.ok.inj h)
        have hcount : ((data.drop offset).take 4).length = 4 := by
          rw [List.length_take, List.length_drop]
          omega
        have hbound := ofLeBytes_lt ((data.drop offset).take 4)
        rw [hcount] at hbound
        have hframeLen : frame.length = ofLeBytes ((data.drop offset).take 4) := by
          rw [← hframe, List.length_take, List.length_drop]
          omega
        have hsplit : data = data.take offset ++ framed frame ++
            (data.drop (offset + 4)).drop (ofLeBytes ((data.drop offset).take 4)) := by
          rw [framed, hframeLen, leBytes_of_length hcount, ← hframe]
          simp only [List.append_assoc, List.take_append_drop, ← List.drop_drop]
        have hbefore : (data.take offset).length = offset := by
          rw [List.length_take]
          omega
        refine ⟨by omega, data.take offset, _, hsplit, hbefore, ?_⟩
        rw [List.length_append, hbefore, framed_length, hframeLen, ← hnext]
        omega
  · rintro ⟨hshort, before, after, rfl, rfl, rfl⟩
    have hdrop : (before ++ framed frame ++ after).drop before.length = framed frame ++ after := by
      rw [List.append_assoc, List.drop_left]
    have htake : (framed frame ++ after).take 4 = leBytes 4 frame.length := by
      rw [framed, List.append_assoc]
      exact List.take_left' (length_leBytes _ _)
    have hskip : (framed frame ++ after).drop 4 = frame ++ after := by
      rw [framed, List.append_assoc]
      exact List.drop_left' (length_leBytes _ _)
    have hlen : (before ++ framed frame ++ after).length =
        before.length + (4 + frame.length) + after.length := by
      simp only [List.length_append, framed_length]
    have hcount : ofLeBytes (leBytes 4 frame.length) = frame.length := ofLeBytes_leBytes (by omega)
    simp only [takeFrame, hdrop, htake, hcount, ← List.drop_drop, hskip, List.take_left, hlen]
    rw [if_neg (by omega), if_neg (by omega), List.length_append, framed_length]
    congr 2
    omega

/-- Walking frames is folding over a list of them that sits in the data. -/
theorem foldFrames_ok_iff :
    foldFrames truncated step data data.length count offset s = .ok (s', stop) ↔
      offset ≤ stop ∧ ∃ frames : List (List UInt8), frames.length = count ∧
        (∀ frame ∈ frames, frame.length < 2 ^ 32) ∧ frames.foldlM step s = .ok s' ∧
        data.take stop = data.take offset ++ frames.flatMap framed ∧
        stop = offset + (frames.flatMap framed).length ∧ (count = 0 ∨ stop ≤ data.length) := by
  induction count generalizing offset s with
  | zero =>
    simp only [foldFrames, Except.ok.injEq, Prod.mk.injEq]
    constructor
    · rintro ⟨rfl, rfl⟩
      exact ⟨le_refl _, [], rfl, fun _ h => (nomatch h), rfl, (List.append_nil _).symm, rfl,
        .inl trivial⟩
    · rintro ⟨_, frames, hlen, _, hfold, _, hstop, _⟩
      obtain rfl := List.length_eq_zero_iff.1 hlen
      cases hfold
      exact ⟨rfl, hstop.symm⟩
  | succ count ih =>
    simp only [foldFrames, bind_eq_ok, ih]
    constructor
    · rintro ⟨⟨frame, next⟩, hframe, t, hstep, hle, frames, hcount, hshort, hfold, htake, hstop,
        hend⟩
      obtain ⟨hlen, before, after, hdata, rfl, rfl⟩ := (takeFrame_ok_iff truncated).1 hframe
      simp only [List.length_append, framed_length] at hle hstop htake
      refine ⟨by omega, frame :: frames, by rw [List.length_cons, hcount], ?_, ?_, ?_, ?_, .inr ?_⟩
      · exact List.forall_mem_cons.2 ⟨hlen, hshort⟩
      · rw [List.foldlM_cons, hstep]
        exact hfold
      · have hone : data.take (before.length + (4 + frame.length)) =
            data.take before.length ++ framed frame := by
          rw [hdata, ← framed_length frame, ← List.length_append, List.take_left,
            List.append_assoc, List.take_left]
        rw [htake, hone, List.flatMap_cons, List.append_assoc]
      · rw [List.flatMap_cons, List.length_append, framed_length, hstop]
        omega
      · rcases hend with hzero | hend
        · obtain rfl := List.length_eq_zero_iff.1 (hcount.trans hzero)
          have hall := congrArg List.length hdata
          simp only [List.length_append, framed_length] at hall
          simp only [List.flatMap_nil, List.length_nil] at hstop
          omega
        · exact hend
    · rintro ⟨_, frames, hcount, hshort, hfold, htake, hstop, hend⟩
      cases frames with
      | nil => cases hcount
      | cons frame frames =>
        rw [List.length_cons, Nat.add_right_cancel_iff] at hcount
        obtain ⟨hlen, hshort⟩ := List.forall_mem_cons.1 hshort
        rw [List.foldlM_cons, bind_eq_ok] at hfold
        obtain ⟨t, hstep, hfold⟩ := hfold
        rw [List.flatMap_cons, List.length_append, framed_length] at hstop
        have hend : stop ≤ data.length := hend.resolve_left (by omega)
        have hoffset : (data.take offset).length = offset := by
          rw [List.length_take]
          omega
        have hdata : data = data.take offset ++ framed frame ++
            (frames.flatMap framed ++ data.drop stop) := by
          rw [List.flatMap_cons, ← List.append_assoc] at htake
          rw [← List.append_assoc, ← htake, List.take_append_drop]
        have hnext : data.take (offset + (4 + frame.length)) =
            data.take offset ++ framed frame := by
          conv_lhs => rw [hdata]
          apply List.take_left'
          rw [List.length_append, hoffset, framed_length]
        refine ⟨(frame, offset + (4 + frame.length)), (takeFrame_ok_iff truncated).2
          ⟨hlen, _, _, hdata, hoffset, ?_⟩, t, hstep, by omega, frames, hcount, hshort, hfold, ?_, ?_,
          .inr hend⟩
        · rw [List.length_append, hoffset, framed_length]
        · rw [htake, hnext, List.flatMap_cons, List.append_assoc]
        · omega

end
end Heddle.Lib

namespace Heddle.Lib.FrameLog
open Heddle.Lib.MsgPack (beBytes ofBeBytes)

variable (checksum : List UInt8 → UInt32)

def frame (payload : List UInt8) : List UInt8 :=
  beBytes 4 payload.length ++ beBytes 4 (checksum payload).toNat ++ payload

def replay (corrupt : ε) (step : σ → List UInt8 → Except ε σ) (s : σ) (bytes : List UInt8) :
    Except ε σ :=
  if bytes.length < 8 then .ok s
  else
    let frameLen := ofBeBytes (bytes.take 4)
    let expected := ofBeBytes ((bytes.drop 4).take 4)
    let body := bytes.drop 8
    if body.length < frameLen then .ok s
    else if (checksum (body.take frameLen)).toNat ≠ expected then .error corrupt
    else do
      let s ← step s (body.take frameLen)
      replay corrupt step s (body.drop frameLen)
termination_by bytes.length
decreasing_by
  rw [List.length_drop, List.length_drop]
  omega

variable {checksum} {corrupt : ε} {step : σ → List UInt8 → Except ε σ}

theorem replay_short (h : bytes.length < 8) :
    replay checksum corrupt step s bytes = .ok s := by
  rw [replay, if_pos h]

theorem replay_header (hlen : len < 2 ^ 32) (hsum : sum < 2 ^ 32) (body : List UInt8) :
    replay checksum corrupt step s (beBytes 4 len ++ beBytes 4 sum ++ body) =
      if body.length < len then .ok s
      else if (checksum (body.take len)).toNat ≠ sum then .error corrupt
      else step s (body.take len) >>= fun s => replay checksum corrupt step s (body.drop len) := by
  have hfour : (beBytes 4 len ++ beBytes 4 sum ++ body).take 4 = beBytes 4 len := by
    rw [List.append_assoc]
    exact List.take_left' (length_beBytes _ _)
  have hskip : (beBytes 4 len ++ beBytes 4 sum ++ body).drop 4 = beBytes 4 sum ++ body := by
    rw [List.append_assoc]
    exact List.drop_left' (length_beBytes _ _)
  have hnext : (beBytes 4 sum ++ body).take 4 = beBytes 4 sum :=
    List.take_left' (length_beBytes _ _)
  have hbody : (beBytes 4 len ++ beBytes 4 sum ++ body).drop 8 = body :=
    List.drop_left' (by rw [List.length_append, length_beBytes, length_beBytes])
  have hlong : ¬(beBytes 4 len ++ beBytes 4 sum ++ body).length < 8 := by
    rw [List.length_append, List.length_append, length_beBytes, length_beBytes]
    omega
  rw [replay, if_neg hlong, hfour, hskip, hnext, hbody, MsgPack.ofBeBytes_beBytes hlen,
    MsgPack.ofBeBytes_beBytes hsum]

theorem replay_frame (h : payload.length < 2 ^ 32) (rest : List UInt8) :
    replay checksum corrupt step s (frame checksum payload ++ rest) =
      step s payload >>= fun s => replay checksum corrupt step s rest := by
  rw [frame, List.append_assoc (beBytes 4 _ ++ _), replay_header h (checksum payload).toNat_lt,
    if_neg (by rw [List.length_append]; omega), List.take_left, List.drop_left]
  exact if_neg (not_not_intro rfl)

theorem replay_torn (h : payload.length < 2 ^ 32) (hn : n < (frame checksum payload).length) :
    replay checksum corrupt step s ((frame checksum payload).take n) = .ok s := by
  by_cases hshort : n < 8
  · apply replay_short
    rw [List.length_take]
    omega
  · have hheader : (beBytes 4 payload.length ++ beBytes 4 (checksum payload).toNat).length = 8 := by
      rw [List.length_append, length_beBytes, length_beBytes]
    have htake : (frame checksum payload).take n = beBytes 4 payload.length ++
        beBytes 4 (checksum payload).toNat ++ payload.take (n - 8) := by
      rw [frame, List.take_append, hheader, List.take_of_length_le (by omega)]
    rw [frame, List.length_append, hheader] at hn
    rw [htake, replay_header h (checksum payload).toNat_lt, if_pos]
    rw [List.length_take]
    omega

def BadFrame (checksum : List UInt8 → UInt32) (bytes : List UInt8) : Prop :=
  ∃ sum : UInt32, ∃ payload more, payload.length < 2 ^ 32 ∧ checksum payload ≠ sum ∧
    bytes = beBytes 4 payload.length ++ beBytes 4 sum.toNat ++ payload ++ more

theorem replay_badFrame (h : BadFrame checksum bytes) :
    replay checksum corrupt step s bytes = .error corrupt := by
  obtain ⟨sum, payload, more, hlen, hsum, rfl⟩ := h
  rw [List.append_assoc (beBytes 4 _ ++ _), replay_header hlen sum.toNat_lt,
    if_neg (by rw [List.length_append]; omega), List.take_left, if_pos]
  intro heq
  exact hsum (UInt32.toNat_inj.1 heq)

end Heddle.Lib.FrameLog
