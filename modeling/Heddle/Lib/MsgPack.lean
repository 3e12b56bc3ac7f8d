import Heddle.Lib.Fold
import Heddle.Lib.ByteCodec

namespace Heddle.Lib

/-- What a self-describing format stores. A struct is the sequence of its fields. -/
inductive Value where
  | nil
  | bool (b : Bool)
  | uint (n : Nat)
  | str (s : String)
  | bin (bytes : List UInt8)
  | seq (items : List Value)
  | variant (name : String) (body : Value)

class Serde (α : Type) where
  ser : α → Value
  de : Value → Except String α

export Serde (ser de)

class LawfulSerde (α : Type) [Serde α] : Prop where
  de_ser : ∀ a : α, de (ser a) = .ok a

/-- A type no value of which looks absent. -/
class PresentSerde (α : Type) [Serde α] : Prop where
  ser_ne_nil : ∀ a : α, ser a ≠ .nil

attribute [simp] LawfulSerde.de_ser PresentSerde.ser_ne_nil

section Instances

def invalidType : Except String α := .error "invalid type"

instance : Serde Bool where
  ser := .bool
  de
    | .bool b => .ok b
    | _ => invalidType

instance : LawfulSerde Bool := ⟨fun _ => rfl⟩

instance : Serde String where
  ser := .str
  de
    | .str s => .ok s
    | _ => invalidType

instance : LawfulSerde String := ⟨fun _ => rfl⟩

instance : PresentSerde String := ⟨fun _ h => nomatch h⟩

instance : Serde UInt8 where
  ser n := .uint n.toNat
  de
    | .uint n => if n < 2 ^ 8 then .ok (UInt8.ofNat n) else .error "invalid value"
    | _ => invalidType

instance : LawfulSerde UInt8 where
  de_ser n := by
    change (if n.toNat < 2 ^ 8 then _ else _) = _
    rw [if_pos n.toNat_lt, UInt8.ofNat_toNat]

instance : Serde UInt32 where
  ser n := .uint n.toNat
  de
    | .uint n => if n < 2 ^ 32 then .ok (UInt32.ofNat n) else .error "invalid value"
    | _ => invalidType

instance : LawfulSerde UInt32 where
  de_ser n := by
    change (if n.toNat < 2 ^ 32 then _ else _) = _
    rw [if_pos n.toNat_lt, UInt32.ofNat_toNat]

variable [Serde α]

instance : Serde (Option α) where
  ser
    | none => .nil
    | some a => ser a
  de
    | .nil => .ok none
    | v => (de v).map some

theorem de_some (h : v ≠ .nil) : (de v : Except String (Option α)) = (de v).map some := by
  cases v with
  | nil => exact absurd rfl h
  | _ => rfl

theorem de_ser_some_iff [PresentSerde α] (a b : α) :
    de (ser (some a)) = .ok (some b) ↔ de (ser a) = .ok b := by
  change de (ser a) = _ ↔ _
  rw [de_some (PresentSerde.ser_ne_nil a), map_eq_ok_iff]
  simp only [Option.some.injEq, exists_eq_right]

instance [LawfulSerde α] [PresentSerde α] : LawfulSerde (Option α) where
  de_ser
    | none => rfl
    | some a => (de_ser_some_iff a a).2 (LawfulSerde.de_ser a)

instance : Serde (List α) where
  ser items := .seq (items.map ser)
  de
    | .seq items => items.mapM de
    | _ => invalidType

theorem mapM_de_ser [LawfulSerde α] (items : List α) : (items.map ser).mapM de = .ok items := by
  induction items with
  | nil => rfl
  | cons item items ih =>
    rw [List.map_cons, List.mapM_cons, LawfulSerde.de_ser, ih]
    rfl

instance [LawfulSerde α] : LawfulSerde (List α) := ⟨mapM_de_ser⟩

instance : PresentSerde (List α) := ⟨fun _ h => nomatch h⟩

/-- A fixed-size array is a tuple: nothing less and nothing more is read. -/
instance : Serde (Vector α n) where
  ser items := .seq (items.toList.map ser)
  de
    | .seq items => do
      let read ← items.mapM de
      if h : read.length = n then .ok ⟨read.toArray, h⟩
      else .error ("expected an array of length " ++ toString n)
    | _ => invalidType

instance [LawfulSerde α] : LawfulSerde (Vector α n) where
  de_ser items := by
    change ((items.toList.map ser).mapM de >>= _) = _
    rw [mapM_de_ser]
    change (if h : items.toList.length = n then _ else _) = _
    rw [dif_pos items.length_toList]
    rfl

instance : PresentSerde (Vector α n) := ⟨fun _ h => nomatch h⟩

end Instances

section Fields

/-- The fields of a struct, read one behind the other. -/
abbrev SeqAccess := StateT (List Value) (Except String)

variable [Serde α]

def nextField : SeqAccess α
  | [] => .error "invalid length"
  | v :: vs => (de v).map (·, vs)

def nextFieldOr (default : α) : SeqAccess α
  | [] => .ok (default, [])
  | v :: vs => (de v).map (·, vs)

def readFields (fields : SeqAccess β) : Value → Except String β
  | .seq items => do
    let read ← fields items
    if read.2 = [] then .ok read.1 else .error "length mismatch"
  | _ => invalidType

def skipField (skip : Bool) (v : Value) : List Value := if skip then [] else [v]

theorem readFields_seq (fields : SeqAccess β) (items : List Value) :
    readFields fields (.seq items) =
      (do let read ← fields items; if read.2 = [] then .ok read.1 else .error "length mismatch") := rfl

theorem bind_run (fields : SeqAccess β) (rest : β → SeqAccess γ) (items : List Value) :
    (fields >>= rest) items = (do let read ← fields items; rest read.1 read.2) := rfl

theorem nextField_cons (v : Value) (vs : List Value) :
    (nextField : SeqAccess α) (v :: vs) = (de v).map (·, vs) := rfl

theorem nextFieldOr_cons (default : α) (v : Value) (vs : List Value) :
    nextFieldOr default (v :: vs) = (de v).map (·, vs) := rfl

theorem nextField_bind [LawfulSerde α] (a : α) (vs : List Value) (rest : α → SeqAccess γ) :
    (nextField >>= rest) (ser a :: vs) = rest a vs := by
  rw [bind_run, nextField_cons, LawfulSerde.de_ser]
  rfl

theorem nextFieldOr_bind [LawfulSerde α] (default a : α) (vs : List Value)
    (rest : α → SeqAccess γ) : (nextFieldOr default >>= rest) (ser a :: vs) = rest a vs := by
  rw [bind_run, nextFieldOr_cons, LawfulSerde.de_ser]
  rfl

end Fields
end Heddle.Lib

namespace Heddle.Lib.MsgPack
open Heddle.Lib List

def beBytes (width n : Nat) : List UInt8 := (leBytes width n).reverse

def ofBeBytes (bytes : List UInt8) : Nat := ofLeBytes bytes.reverse

/-- The first bytes of a value: all of a scalar, or how much follows. -/
inductive Token where
  | nil
  | bool (b : Bool)
  | uint (n : Nat)
  | str (len : Nat)
  | bin (len : Nat)
  | seq (len : Nat)
  | variant

def writeSized (n : Nat) : List (UInt8 × Nat) → List UInt8
  | [] => []
  | (marker, width) :: wider =>
    if n < 256 ^ width then marker :: beBytes width n else writeSized n wider

def uintMarkers : List (UInt8 × Nat) := [(0xcc, 1), (0xcd, 2), (0xce, 4), (0xcf, 8)]
def strMarkers : List (UInt8 × Nat) := [(0xd9, 1), (0xda, 2), (0xdb, 4)]
def binMarkers : List (UInt8 × Nat) := [(0xc4, 1), (0xc5, 2), (0xc6, 4)]
def seqMarkers : List (UInt8 × Nat) := [(0xdc, 2), (0xdd, 4)]

def writeToken : Token → List UInt8
  | .nil => [0xc0]
  | .bool b => [if b then 0xc3 else 0xc2]
  | .uint n => if n < 128 then [UInt8.ofNat n] else writeSized n uintMarkers
  | .str len => if len < 32 then [UInt8.ofNat (0xa0 + len)] else writeSized len strMarkers
  | .bin len => writeSized len binMarkers
  | .seq len => if len < 16 then [UInt8.ofNat (0x90 + len)] else writeSized len seqMarkers
  | .variant => [0x81]

def readSized (markers : List (UInt8 × Nat)) (marker : UInt8) (bytes : List UInt8) :
    Option (Nat × List UInt8) := do
  let width ← markers.lookup marker
  if width ≤ bytes.length then some (ofBeBytes (bytes.take width), bytes.drop width) else none

def readToken : List UInt8 → Option (Token × List UInt8)
  | [] => none
  | marker :: bytes =>
    if marker.toNat < 0x80 then some (.uint marker.toNat, bytes)
    else if marker = 0x81 then some (.variant, bytes)
    else if 0x90 ≤ marker.toNat ∧ marker.toNat < 0xa0 then some (.seq (marker.toNat - 0x90), bytes)
    else if 0xa0 ≤ marker.toNat ∧ marker.toNat < 0xc0 then some (.str (marker.toNat - 0xa0), bytes)
    else if marker = 0xc0 then some (.nil, bytes)
    else if marker = 0xc2 then some (.bool false, bytes)
    else if marker = 0xc3 then some (.bool true, bytes)
    else if (binMarkers.lookup marker).isSome then
      (readSized binMarkers marker bytes).map (fun read => (.bin read.1, read.2))
    else if (uintMarkers.lookup marker).isSome then
      (readSized uintMarkers marker bytes).map (fun read => (.uint read.1, read.2))
    else if (strMarkers.lookup marker).isSome then
      (readSized strMarkers marker bytes).map (fun read => (.str read.1, read.2))
    else (readSized seqMarkers marker bytes).map (fun read => (.seq read.1, read.2))

def Token.Fits : Token → Prop
  | .uint n => n < 2 ^ 64
  | .str len | .bin len | .seq len => len < 2 ^ 32
  | _ => True

theorem ofBeBytes_beBytes (h : n < 256 ^ width) :
    ofBeBytes (beBytes width n) = n := by
  rw [ofBeBytes, beBytes, reverse_reverse, ofLeBytes_leBytes h]

theorem readSized_cons (hmarker : markers.lookup marker = some width) (hfits : n < 256 ^ width)
    (rest : List UInt8) :
    readSized markers marker (beBytes width n ++ rest) = some (n, rest) := by
  have hlength : (beBytes width n).length = width := by
    rw [beBytes, length_reverse, length_leBytes]
  rw [readSized, hmarker]
  change (if width ≤ (beBytes width n ++ rest).length then
    some (ofBeBytes ((beBytes width n ++ rest).take width), (beBytes width n ++ rest).drop width)
    else none) = _
  rw [if_pos (by rw [length_append]; omega), take_left' hlength, drop_left' hlength,
    ofBeBytes_beBytes hfits]

def Holds (n : Nat) (markers : List (UInt8 × Nat)) : Prop :=
  ∃ sized ∈ markers, n < 256 ^ sized.2

theorem readToken_sized {wrap : Nat → Token}
    (hlookup : ∀ sized ∈ markers, markers.lookup sized.1 = some sized.2)
    (hread : ∀ sized ∈ markers, ∀ bytes, readToken (sized.1 :: bytes) =
      (readSized markers sized.1 bytes).map (fun read => (wrap read.1, read.2)))
    (hfits : Holds n markers) (rest : List UInt8) :
    readToken (writeSized n markers ++ rest) = some (wrap n, rest) := by
  have hsuffix : ∀ wider, wider <:+ markers → Holds n wider →
      readToken (writeSized n wider ++ rest) = some (wrap n, rest) := by
    intro wider hwider hholds
    induction wider with
    | nil =>
      obtain ⟨_, hmem, _⟩ := hholds
      cases hmem
    | cons sized wider ih =>
      have hmem : sized ∈ markers := hwider.subset mem_cons_self
      rw [writeSized]
      by_cases hwidth : n < 256 ^ sized.2
      · rw [if_pos hwidth, cons_append, hread sized hmem, readSized_cons (hlookup sized hmem) hwidth]
        rfl
      · rw [if_neg hwidth]
        apply ih ((suffix_cons _ _).trans hwider)
        obtain ⟨found, hfound, hlt⟩ := hholds
        rcases mem_cons.1 hfound with rfl | htail
        · exact absurd hlt hwidth
        · exact ⟨found, htail, hlt⟩
  exact hsuffix markers (suffix_refl _) hfits

theorem readToken_writeToken (h : token.Fits) (rest : List UInt8) :
    readToken (writeToken token ++ rest) = some (token, rest) := by
  cases token with
  | nil => rfl
  | bool b => cases b <;> rfl
  | variant => rfl
  | uint n =>
    have hfits : n < 256 ^ 8 := h
    rw [writeToken]
    by_cases hsmall : n < 128
    · have hnat : (UInt8.ofNat n).toNat = n := by
        rw [UInt8.toNat_ofNat']
        omega
      rw [if_pos hsmall, singleton_append, readToken, hnat, if_pos hsmall]
    · rw [if_neg hsmall]
      apply readToken_sized (by decide) _ ⟨(0xcf, 8), by decide, hfits⟩
      intro sized hsized bytes
      simp only [uintMarkers, mem_cons, not_mem_nil, or_false] at hsized
      rcases hsized with rfl | rfl | rfl | rfl <;> rfl
  | str len =>
    have hfits : len < 256 ^ 4 := h
    rw [writeToken]
    by_cases hsmall : len < 32
    · have hnat : (UInt8.ofNat (0xa0 + len)).toNat = 0xa0 + len := by
        rw [UInt8.toNat_ofNat']
        omega
      have h81 : UInt8.ofNat (0xa0 + len) ≠ 0x81 := by
        intro heq
        have := congrArg UInt8.toNat heq
        rw [hnat] at this
        change 160 + len = 129 at this
        omega
      rw [if_pos hsmall, singleton_append, readToken, hnat, if_neg (by omega), if_neg h81,
        if_neg (by omega), if_pos (by omega), Nat.add_sub_cancel_left]
    · rw [if_neg hsmall]
      apply readToken_sized (by decide) _ ⟨(0xdb, 4), by decide, hfits⟩
      intro sized hsized bytes
      simp only [strMarkers, mem_cons, not_mem_nil, or_false] at hsized
      rcases hsized with rfl | rfl | rfl <;> rfl
  | bin len =>
    have hfits : len < 256 ^ 4 := h
    apply readToken_sized (by decide) _ ⟨(0xc6, 4), by decide, hfits⟩
    intro sized hsized bytes
    simp only [binMarkers, mem_cons, not_mem_nil, or_false] at hsized
    rcases hsized with rfl | rfl | rfl <;> rfl
  | seq len =>
    have hfits : len < 256 ^ 4 := h
    rw [writeToken]
    by_cases hsmall : len < 16
    · have hnat : (UInt8.ofNat (0x90 + len)).toNat = 0x90 + len := by
        rw [UInt8.toNat_ofNat']
        omega
      have h81 : UInt8.ofNat (0x90 + len) ≠ 0x81 := by
        intro heq
        have := congrArg UInt8.toNat heq
        rw [hnat] at this
        change 144 + len = 129 at this
        omega
      rw [if_pos hsmall, singleton_append, readToken, hnat, if_neg (by omega), if_neg h81,
        if_pos (by omega), Nat.add_sub_cancel_left]
    · rw [if_neg hsmall]
      apply readToken_sized (by decide) _ ⟨(0xdd, 4), by decide, hfits⟩
      intro sized hsized bytes
      simp only [seqMarkers, mem_cons, not_mem_nil, or_false] at hsized
      rcases hsized with rfl | rfl <;> rfl

theorem writeToken_pos (h : token.Fits) : 0 < (writeToken token).length := by
  apply length_pos_iff.2
  intro hnil
  have hread := readToken_writeToken h []
  rw [hnil] at hread
  cases hread

def strBytes (s : String) : List UInt8 := s.toUTF8.data.toList

def ofStrBytes (bytes : List UInt8) : Option String := String.fromUTF8? ⟨bytes.toArray⟩

theorem ofStrBytes_strBytes (s : String) : ofStrBytes (strBytes s) = some s := by
  have hbytes : (⟨(strBytes s).toArray⟩ : ByteArray) = s.toByteArray := by
    simp only [strBytes, Array.toArray_toList]
    rfl
  rw [ofStrBytes, hbytes, String.fromUTF8?, dif_pos s.isValidUTF8]
  rfl

mutual

def encode : Value → List UInt8
  | .nil => writeToken .nil
  | .bool b => writeToken (.bool b)
  | .uint n => writeToken (.uint n)
  | .str s => writeToken (.str (strBytes s).length) ++ strBytes s
  | .bin bytes => writeToken (.bin bytes.length) ++ bytes
  | .seq items => writeToken (.seq items.length) ++ encodeAll items
  | .variant name body =>
    writeToken .variant ++ (writeToken (.str (strBytes name).length) ++ strBytes name) ++ encode body

def encodeAll : List Value → List UInt8
  | [] => []
  | v :: vs => encode v ++ encodeAll vs

end

mutual

def Fits : Value → Prop
  | .uint n => n < 2 ^ 64
  | .str s => (strBytes s).length < 2 ^ 32
  | .bin bytes => bytes.length < 2 ^ 32
  | .seq items => items.length < 2 ^ 32 ∧ FitsAll items
  | .variant name body => (strBytes name).length < 2 ^ 32 ∧ Fits body
  | _ => True

def FitsAll : List Value → Prop
  | [] => True
  | v :: vs => Fits v ∧ FitsAll vs

end

mutual

def decideFits : (v : Value) → Decidable (Fits v)
  | .nil => isTrue trivial
  | .bool _ => isTrue trivial
  | .uint n => inferInstanceAs (Decidable (n < 2 ^ 64))
  | .str s => inferInstanceAs (Decidable ((strBytes s).length < 2 ^ 32))
  | .bin bytes => inferInstanceAs (Decidable (bytes.length < 2 ^ 32))
  | .seq items => @instDecidableAnd (items.length < 2 ^ 32) _ _ (decideFitsAll items)
  | .variant name body => @instDecidableAnd ((strBytes name).length < 2 ^ 32) _ _ (decideFits body)

def decideFitsAll : (vs : List Value) → Decidable (FitsAll vs)
  | [] => isTrue trivial
  | v :: vs => @instDecidableAnd _ _ (decideFits v) (decideFitsAll vs)

end

instance (v : Value) : Decidable (Fits v) := decideFits v

def readBytes (n : Nat) (bytes : List UInt8) : Option (List UInt8 × List UInt8) :=
  if n ≤ bytes.length then some (bytes.take n, bytes.drop n) else none

def readStr (n : Nat) (bytes : List UInt8) : Option (String × List UInt8) := do
  let read ← readBytes n bytes
  let s ← ofStrBytes read.1
  return (s, read.2)

def readMany (read : List UInt8 → Option (Value × List UInt8)) :
    Nat → List UInt8 → Option (List Value × List UInt8)
  | 0, bytes => some ([], bytes)
  | n + 1, bytes => do
    let first ← read bytes
    let rest ← readMany read n first.2
    return (first.1 :: rest.1, rest.2)

/-- One value. A token takes a byte, so as much fuel as there are bytes is enough. -/
def readValue : Nat → List UInt8 → Option (Value × List UInt8)
  | 0, _ => none
  | fuel + 1, bytes => do
    let token ← readToken bytes
    match token.1 with
    | .nil => return (.nil, token.2)
    | .bool b => return (.bool b, token.2)
    | .uint n => return (.uint n, token.2)
    | .str len => (readStr len token.2).map (fun read => (.str read.1, read.2))
    | .bin len => (readBytes len token.2).map (fun read => (.bin read.1, read.2))
    | .seq len => (readMany (readValue fuel) len token.2).map (fun read => (.seq read.1, read.2))
    | .variant => do
      let nameToken ← readToken token.2
      match nameToken.1 with
      | .str len => do
        let name ← readStr len nameToken.2
        let body ← readValue fuel name.2
        return (.variant name.1 body.1, body.2)
      | _ => none

theorem readBytes_append (bytes rest : List UInt8) :
    readBytes bytes.length (bytes ++ rest) = some (bytes, rest) := by
  rw [readBytes, if_pos (by rw [length_append]; omega), take_left, drop_left]

theorem readStr_append (s : String) (rest : List UInt8) :
    readStr (strBytes s).length (strBytes s ++ rest) = some (s, rest) := by
  rw [readStr, readBytes_append]
  change (ofStrBytes (strBytes s) >>= fun s => some (s, rest)) = _
  rw [ofStrBytes_strBytes]
  rfl

theorem exists_fuel (h : token.Fits) (hfuel : (writeToken token).length + extra ≤ fuel) :
    ∃ left, fuel = left + 1 ∧ extra ≤ left := by
  have hpos := writeToken_pos h
  exact ⟨fuel - 1, by omega, by omega⟩

mutual

theorem readValue_encode (v : Value) (h : Fits v) (hfuel : (encode v).length ≤ fuel)
    (rest : List UInt8) : readValue fuel (encode v ++ rest) = some (v, rest) := by
  cases v with
  | nil =>
    have hfits : Token.Fits .nil := trivial
    obtain ⟨left, rfl, _⟩ := exists_fuel hfits ((Nat.add_zero _).trans_le hfuel)
    rfl
  | bool b =>
    have hfits : Token.Fits (.bool b) := trivial
    obtain ⟨left, rfl, _⟩ := exists_fuel hfits ((Nat.add_zero _).trans_le hfuel)
    cases b <;> rfl
  | uint n =>
    have hfits : Token.Fits (.uint n) := h
    obtain ⟨left, rfl, _⟩ := exists_fuel hfits ((Nat.add_zero _).trans_le hfuel)
    rw [encode, readValue, readToken_writeToken hfits]
    rfl
  | str s =>
    have hfits : Token.Fits (.str (strBytes s).length) := h
    rw [encode, length_append] at hfuel
    obtain ⟨left, rfl, _⟩ := exists_fuel hfits hfuel
    rw [encode, readValue, append_assoc, readToken_writeToken hfits]
    change (readStr (strBytes s).length (strBytes s ++ rest)).map _ = _
    rw [readStr_append]
    rfl
  | bin bytes =>
    have hfits : Token.Fits (.bin bytes.length) := h
    rw [encode, length_append] at hfuel
    obtain ⟨left, rfl, _⟩ := exists_fuel hfits hfuel
    rw [encode, readValue, append_assoc, readToken_writeToken hfits]
    change (readBytes bytes.length (bytes ++ rest)).map _ = _
    rw [readBytes_append]
    rfl
  | seq items =>
    have hfits : Token.Fits (.seq items.length) := h.1
    rw [encode, length_append] at hfuel
    obtain ⟨left, rfl, hleft⟩ := exists_fuel hfits hfuel
    rw [encode, readValue, append_assoc, readToken_writeToken hfits]
    change (readMany (readValue left) items.length (encodeAll items ++ rest)).map _ = _
    rw [readMany_encodeAll items h.2 hleft]
    rfl
  | variant name body =>
    have hfits : Token.Fits (.str (strBytes name).length) := h.1
    rw [encode, append_assoc, append_assoc, length_append, length_append,
      length_append] at hfuel
    have hvariant : Token.Fits .variant := trivial
    obtain ⟨left, rfl, hleft⟩ := exists_fuel hvariant hfuel
    rw [encode, readValue, append_assoc, append_assoc, append_assoc,
      readToken_writeToken hvariant]
    change (readToken (writeToken _ ++ (strBytes name ++ (encode body ++ rest))) >>= _) = _
    rw [readToken_writeToken hfits]
    change (readStr (strBytes name).length (strBytes name ++ (encode body ++ rest)) >>= _) = _
    rw [readStr_append]
    change (readValue left (encode body ++ rest) >>= _) = _
    rw [readValue_encode body h.2 (by omega)]
    rfl

theorem readMany_encodeAll (vs : List Value) (h : FitsAll vs)
    (hfuel : (encodeAll vs).length ≤ fuel) (rest : List UInt8) :
    readMany (readValue fuel) vs.length (encodeAll vs ++ rest) = some (vs, rest) := by
  cases vs with
  | nil => rfl
  | cons v vs =>
    rw [encodeAll, length_append] at hfuel
    rw [encodeAll, append_assoc, length_cons, readMany,
      readValue_encode v h.1 (by omega)]
    change (readMany (readValue fuel) vs.length (encodeAll vs ++ rest) >>= _) = _
    rw [readMany_encodeAll vs h.2 (by omega)]
    rfl

end

def toVec (v : Value) : Except String (List UInt8) := .ok (encode v)

def fromSlice (bytes : List UInt8) : Except String Value :=
  match readValue bytes.length bytes with
  | some read => .ok read.1
  | none => .error "unexpected end of file"

theorem fromSlice_encode (h : Fits v) : fromSlice (encode v) = .ok v := by
  have hread := readValue_encode v h (le_refl _) []
  rw [append_nil] at hread
  rw [fromSlice, hread]

end Heddle.Lib.MsgPack
