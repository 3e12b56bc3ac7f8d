import Heddle.Lib.Escape
import Heddle.Lib.UnixPath
import Heddle.Object.PartialTree

namespace Heddle
open Heddle.Lib List

def stripPrefix (s start : String) : Option String :=
  if start.toList <+: s.toList then some (String.ofList (s.toList.drop start.toList.length)) else none

def reservedRefSegment : String := "heddle"

def isReservedHeddleNamespace (name : String) : Bool :=
  match name.toList.splitOn '/' with
  | first :: _ :: _ =>
    first.map Char.toLower = reservedRefSegment.toList.map Char.toLower
  | _ => false

def isPlainNameByte (b : UInt8) : Bool :=
  (97 ≤ b && b ≤ 122) || (48 ≤ b && b ≤ 57) || b = 45 || b = 95

def asciiText (bytes : Bytes) : String := String.ofList (bytes.map fun b => Char.ofNat b.toNat)

def encodeName (value : String) : String := "n-" ++ asciiText (escape isPlainNameByte (utf8 value))

def decodeName (encoded : String) : Option String := do
  let rest ← stripPrefix encoded "n-"
  let out ← unescape (utf8 rest)
  let value ← fromUtf8 out
  if encodeName value = encoded then some value else none

def nativeGitName (name : String) : String :=
  if isReservedHeddleNamespace name ∨ "git%".toList <+: name.toList then "git%" ++ encodeName name
  else name

/-- A text that was borrowed as it is, or made anew. -/
inductive Cow where
  | borrowed (text : String)
  | owned (text : String)
  deriving DecidableEq

def Cow.text : Cow → String
  | .borrowed text => text
  | .owned text => text

def Cow.isOwned : Cow → Bool
  | .borrowed _ => false
  | .owned _ => true

def gitName (native : String) : Cow :=
  match (stripPrefix native "git%").bind decodeName with
  | some name => if nativeGitName name = native then .owned name else .borrowed native
  | none => .borrowed native

def chunks (size : Nat) (bytes : Bytes) : List Bytes :=
  if bytes = [] ∨ size = 0 then []
  else bytes.take size :: chunks size (bytes.drop size)
termination_by bytes.length
decreasing_by
  rename_i h
  rw [not_or] at h
  have hpos := length_pos_iff.2 h.1
  rw [length_drop]
  omega

def namePathBudget : Nat := 128

def digestNamePath (digest : ContentHash) : Bytes := utf8 ("h-" ++ digest.toHex ++ "/entry")

def namePath (blake3 : Bytes → ContentHash) (value : String) : Bytes :=
  let source := gitName value
  let encoded := encodeName source.text
  let path := if source.isOwned then pushPath [] (utf8 "git") else []
  let path := (chunks 180 ((utf8 encoded).drop 2)).foldl
    (fun path chunk => pushPath path (utf8 "n-" ++ chunk)) path
  let path := pushPath path (utf8 "entry")
  if path.length > namePathBudget then digestNamePath (blake3 (utf8 value)) else path

def isDigestHex (hex : String) : Bool :=
  (utf8 hex).length = 64 && (utf8 hex).all fun b => (48 ≤ b && b ≤ 57) || (97 ≤ b && b ≤ 102)

def isDigestNamePath (path : Bytes) : Bool :=
  match pathComponents path with
  | [digest, entry] =>
    ((fromUtf8 digest.asOsStr).bind (stripPrefix · "h-")).any isDigestHex &&
      entry.asOsStr = utf8 "entry"
  | _ => false

def decodeParts (encoded : String) : List PathComponent → Option String
  | [] => some encoded
  | [part] => do
    let part ← fromUtf8 part.asOsStr
    if part ≠ "entry" then none else some encoded
  | part :: parts => do
    let part ← fromUtf8 part.asOsStr
    let chunk ← stripPrefix part "n-"
    decodeParts (encoded ++ chunk) parts

def SamePath (path path' : Bytes) : Prop := pathComponents path = pathComponents path'

instance : DecidableRel SamePath := fun path path' =>
  inferInstanceAs (Decidable (pathComponents path = pathComponents path'))

def decodeNamePath (blake3 : Bytes → ContentHash) (path : Bytes) : Option String := do
  let parts := pathComponents path
  let imported := parts.head?.any (·.asOsStr = utf8 "git")
  let parts := if imported then parts.tail else parts
  let encoded ← decodeParts "n-" parts
  let source ← decodeName encoded
  let value := if imported then nativeGitName source else source
  if SamePath (namePath blake3 value) path then some value else none

theorem stripPrefix_eq_some :
    stripPrefix s start = some rest ↔ s = start ++ rest := by
  unfold stripPrefix
  constructor
  · intro h
    split at h
    · rename_i hprefix
      obtain rfl := Option.some.inj h
      obtain ⟨tail, htail⟩ := hprefix
      apply String.toList_inj.1
      rw [String.toList_append, String.toList_ofList, ← htail, drop_left]
    · cases h
  · rintro rfl
    rw [String.toList_append, if_pos (prefix_append ..), drop_left, String.ofList_toList]

@[simp] theorem stripPrefix_append (start rest : String) :
    stripPrefix (start ++ rest) start = some rest :=
  stripPrefix_eq_some.2 rfl

@[simp] theorem utf8_append (s t : String) : utf8 (s ++ t) = utf8 s ++ utf8 t := by
  rw [utf8_eq_flatMap, utf8_eq_flatMap, utf8_eq_flatMap, String.toList_append, flatMap_append]

theorem utf8EncodeChar_ascii (hb : b.toNat < 128) :
    String.utf8EncodeChar (Char.ofNat b.toNat) = [b] := by
  have hvalid : b.toNat.isValidChar := .inl (by omega)
  have hval : (Char.ofNat b.toNat).val.toNat = b.toNat := by
    rw [Char.ofNat, dif_pos hvalid]
    rfl
  have hsize : (Char.ofNat b.toNat).utf8Size = 1 := by
    rw [Char.utf8Size, if_pos]
    rw [UInt32.le_iff_toNat_le, hval]
    exact Nat.le_of_lt_succ hb
  rw [String.utf8EncodeChar_eq_singleton hsize]
  refine congrArg (fun c => [c]) (UInt8.toNat_inj.1 ?_)
  rw [UInt32.toNat_toUInt8, hval]
  exact Nat.mod_eq_of_lt b.toNat_lt

theorem utf8_asciiText (h : ∀ b ∈ bytes, b.toNat < 128) :
    utf8 (asciiText bytes) = bytes := by
  rw [utf8_eq_flatMap, asciiText, String.toList_ofList, flatMap_map]
  induction bytes with
  | nil => rfl
  | cons b bytes ih =>
    rw [flatMap_cons, utf8EncodeChar_ascii (h b mem_cons_self),
      ih fun c hc => h c (mem_cons_of_mem b hc), singleton_append]

end Heddle
