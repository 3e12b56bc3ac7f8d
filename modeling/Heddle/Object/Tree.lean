import Mathlib.Data.List.Sort
import Mathlib.Data.String.Basic
import Mathlib.Data.Vector.Defs

namespace Heddle
open List hiding Vector

abbrev Bytes := List UInt8

def utf8 (s : String) : Bytes := s.toUTF8.data.toList

theorem utf8_injective : Function.Injective utf8 := by
  intro s t h
  have hdata : s.toUTF8.data = t.toUTF8.data := Array.toList_inj.1 h
  exact String.toByteArray_inj.1 (ByteArray.ext hdata)

def fromUtf8 (bytes : Bytes) : Option String := String.fromUTF8? ⟨bytes.toArray⟩

@[simp] theorem fromUtf8_utf8 (s : String) : fromUtf8 (utf8 s) = some s := by
  have hbytes : (⟨(utf8 s).toArray⟩ : ByteArray) = s.toByteArray := by
    simp only [utf8, Array.toArray_toList]
    rfl
  rw [fromUtf8, hbytes, String.fromUTF8?, dif_pos s.isValidUTF8]
  rfl

theorem utf8_of_fromUtf8 (h : fromUtf8 bytes = some s) : utf8 s = bytes := by
  simp only [fromUtf8, String.fromUTF8?] at h
  split at h
  · obtain rfl := Option.some.inj h
    rfl
  · cases h

structure StateId where
  bytes : Vector UInt8 32
  deriving DecidableEq

def validSegment (segment : List Char) : Bool :=
  !segment.isEmpty &&
    segment.all (fun c => c.isLower || c.isDigit || c = '-' || c = '_' || c = '.') &&
    segment.head?.any Char.isAlphanum && segment.getLast?.any Char.isAlphanum

def canonicalSpoolId (value : String) : Bool :=
  match value.toList.splitOn '/' with
  | [spoolNamespace, name] => validSegment spoolNamespace && validSegment name
  | _ => false

@[ext] structure SpoolId where
  text : String
  canonical : canonicalSpoolId text = true
  deriving DecidableEq

def SpoolId.parse (value : String) : Except String SpoolId :=
  if h : canonicalSpoolId value = true then .ok ⟨value, h⟩
  else .error ("invalid spool id '" ++ value ++ "'; expected canonical namespace/name")

@[simp] theorem SpoolId.parse_text (spoolId : SpoolId) :
    SpoolId.parse spoolId.text = .ok spoolId := by
  rw [parse, dif_pos spoolId.canonical]

theorem SpoolId.text_of_parse (h : SpoolId.parse value = .ok spoolId) : spoolId.text = value := by
  unfold parse at h
  split at h
  · cases h
    rfl
  · cases h

inductive GitObjectId where
  | sha1 (bytes : Vector UInt8 20)
  | sha256 (bytes : Vector UInt8 32)
  deriving DecidableEq

def GitObjectId.asBytes : GitObjectId → Bytes
  | .sha1 bytes => bytes.toList
  | .sha256 bytes => bytes.toList

theorem GitObjectId.asBytes_injective : Function.Injective GitObjectId.asBytes := by
  intro a b h
  cases a with
  | sha1 x =>
    cases b with
    | sha1 y => exact congrArg _ (Vector.toList_inj.mp h)
    | sha256 y => have hl := congrArg List.length h; simp [asBytes] at hl
  | sha256 x =>
    cases b with
    | sha1 y => have hl := congrArg List.length h; simp [asBytes] at hl
    | sha256 y => exact congrArg _ (Vector.toList_inj.mp h)

inductive TreeError where
  | invalidName (message : String)
  | invalidStructure (message : String)
  deriving DecidableEq

inductive TreeScheme where
  | v3Flat
  | v4Salted
  deriving DecidableEq

inductive FileMode where
  | normal
  | executable
  | symlink
  | gitlink
  | spoollink
  deriving DecidableEq

inductive EntryType where
  | blob
  | tree
  | symlink
  | gitlink
  | spoollink
  deriving DecidableEq

def FileMode.debug : FileMode → String
  | .normal => "Normal"
  | .executable => "Executable"
  | .symlink => "Symlink"
  | .gitlink => "Gitlink"
  | .spoollink => "Spoollink"

def EntryType.debug : EntryType → String
  | .blob => "Blob"
  | .tree => "Tree"
  | .symlink => "Symlink"
  | .gitlink => "Gitlink"
  | .spoollink => "Spoollink"

/-- A Git mode as its source tree spells it: the value and the padding zeros. -/
structure RawGitMode where
  value : UInt32
  leadingZeros : UInt8
  value_ne : value ≠ 0
  deriving DecidableEq

def RawGitMode.canonical (entryType : EntryType) (executable : Bool) : Option RawGitMode :=
  match entryType, executable with
  | .tree, _ => some ⟨0o040000, 0, by decide⟩
  | .blob, true => some ⟨0o100755, 0, by decide⟩
  | .blob, false => some ⟨0o100644, 0, by decide⟩
  | .symlink, _ => some ⟨0o120000, 0, by decide⟩
  | .gitlink, _ => some ⟨0o160000, 0, by decide⟩
  | .spoollink, _ => none

def RawGitMode.entryType (mode : RawGitMode) : Option EntryType :=
  if mode.value &&& ~~~0o177777 ≠ 0 then none
  else
    let kind := mode.value &&& 0o170000
    if kind = 0o040000 then some .tree
    else if kind = 0o100000 then some .blob
    else if kind = 0o120000 then some .symlink
    else if kind = 0o160000 then some .gitlink
    else none

def RawGitMode.isExecutable (mode : RawGitMode) : Bool :=
  mode.entryType = some .blob && mode.value &&& 0o100 ≠ 0

/-- What a tree entry points at. `H` is the content hash. -/
inductive TreeEntryTarget (H : Type) where
  | blob (hash : H) (executable : Bool)
  | tree (hash : H)
  | symlink (hash : H)
  | gitlink (target : GitObjectId)
  | spoollink (spoolId : SpoolId) (stateId : StateId)
  deriving DecidableEq

namespace TreeEntryTarget

def entryType : TreeEntryTarget H → EntryType
  | .blob .. => .blob
  | .tree .. => .tree
  | .symlink .. => .symlink
  | .gitlink .. => .gitlink
  | .spoollink .. => .spoollink

def mode : TreeEntryTarget H → FileMode
  | .blob _ true => .executable
  | .blob _ false => .normal
  | .tree .. => .normal
  | .symlink .. => .symlink
  | .gitlink .. => .gitlink
  | .spoollink .. => .spoollink

end TreeEntryTarget

def validateName (name : String) : Except TreeError Unit :=
  if name.isEmpty then .error (.invalidName "entry name cannot be empty")
  else if name = "." ∨ name = ".." then
    .error (.invalidName ("'" ++ name ++ "' is not a valid entry name"))
  else if name.toList.contains '/' || name.toList.contains '\\' then
    .error (.invalidName "entry name cannot contain path separators")
  else if name.toList.any (fun c => c.toNat < 0x20 || c.toNat = 0x7f) then
    .error (.invalidName "entry name contains control characters")
  else if name.utf8ByteSize > 65535 then
    .error (.invalidName "entry name exceeds the HTR4 u16 length bound")
  else .ok ()

theorem validateName_ne_empty (h : validateName name = .ok ()) : name ≠ "" := by
  rintro rfl
  exact absurd h (by decide)

theorem validateName_no_slash (h : validateName name = .ok ()) : '/' ∉ name.toList := by
  intro hm
  simp only [validateName] at h
  split at h <;> try contradiction
  split at h <;> try contradiction
  split at h <;> try contradiction
  rename_i hs
  simp [hm] at hs

structure TreeEntry (H : Type) where
  name : String
  target : TreeEntryTarget H
  /-- The source Git mode, when it is not the one Git writes for `target`. -/
  gitMode : Option RawGitMode := none
  deriving DecidableEq

namespace TreeEntry

def entryType (e : TreeEntry H) : EntryType := e.target.entryType

def mode (e : TreeEntry H) : FileMode := e.target.mode

def isTree (e : TreeEntry H) : Bool := e.entryType = .tree

def isBlob (e : TreeEntry H) : Bool := e.entryType = .blob

def isExecutable (e : TreeEntry H) : Bool := e.mode = .executable

def treeHash (e : TreeEntry H) : Option H :=
  match e.target with
  | .tree hash => some hash
  | _ => none

def blobHash (e : TreeEntry H) : Option H :=
  match e.target with
  | .blob hash _ => some hash
  | _ => none

def withChecked (name : String) (target : TreeEntryTarget H) : Except TreeError (TreeEntry H) :=
  match validateName name with
  | .ok () => .ok { name, target }
  | .error e => .error e

def file (name : String) (hash : H) (executable : Bool) : Except TreeError (TreeEntry H) :=
  withChecked name (.blob hash executable)

def directory (name : String) (hash : H) : Except TreeError (TreeEntry H) :=
  withChecked name (.tree hash)

def symlink (name : String) (hash : H) : Except TreeError (TreeEntry H) :=
  withChecked name (.symlink hash)

def gitlink (name : String) (target : GitObjectId) : Except TreeError (TreeEntry H) :=
  withChecked name (.gitlink target)

def spoollink (name : String) (spoolId : SpoolId) (stateId : StateId) :
    Except TreeError (TreeEntry H) :=
  withChecked name (.spoollink spoolId stateId)

theorem withChecked_ok {name : String} {target : TreeEntryTarget H} {e : TreeEntry H}
    (h : withChecked name target = .ok e) :
    validateName name = .ok () ∧ e = { name := name, target := target } := by
  unfold withChecked at h
  split at h
  · rename_i hn
    exact ⟨hn, (Except.ok.inj h).symm⟩
  · cases h

/-- Same name, kind, executable bit and target; the source Git mode is ignored. -/
def sameMeaning [DecidableEq H] (a b : TreeEntry H) : Bool :=
  a.name = b.name && a.target = b.target

def dropRawGitMode (e : TreeEntry H) : TreeEntry H := { e with gitMode := none }

@[simp] theorem dropRawGitMode_name (e : TreeEntry H) : e.dropRawGitMode.name = e.name := rfl

def withMode (e : TreeEntry H) (m : FileMode) : Except TreeError (TreeEntry H) :=
  let refuse : Except TreeError (TreeEntry H) := .error (.invalidStructure
    ("cannot apply mode " ++ m.debug ++ " to " ++ e.entryType.debug ++ " entry '" ++ e.name ++ "'"))
  match e.target, m with
  | .blob hash _, .normal => file e.name hash false
  | .blob hash _, .executable => file e.name hash true
  | .symlink _, .symlink => if m = e.mode then .ok e else refuse
  | .tree _, _ => if m = e.mode then .ok e else refuse
  | .gitlink _, .gitlink => if m = e.mode then .ok e else refuse
  | .spoollink _ _, .spoollink => if m = e.mode then .ok e else refuse
  | _, _ => refuse

def checkRawGitMode (e : TreeEntry H) (m : RawGitMode) : Except TreeError Unit :=
  if m.entryType ≠ some e.entryType ∨ (e.entryType = .blob ∧ m.isExecutable ≠ e.isExecutable) then
    .error (.invalidStructure ("git mode " ++ String.ofList (Nat.toDigits 8 m.value.toNat) ++
      " does not describe " ++ e.entryType.debug ++ " entry '" ++ e.name ++ "'"))
  else if RawGitMode.canonical e.entryType e.isExecutable = some m then
    .error (.invalidStructure
      ("entry '" ++ e.name ++ "' records its canonical git mode as a raw mode"))
  else .ok ()

def validate (e : TreeEntry H) : Except TreeError Unit :=
  match validateName e.name, e.gitMode with
  | .error err, _ => .error err
  | .ok (), some m => e.checkRawGitMode m
  | .ok (), none => .ok ()

theorem validate_name {e : TreeEntry H} (h : e.validate = .ok ()) :
    validateName e.name = .ok () := by
  unfold validate at h
  split at h
  · cases h
  · assumption
  · assumption

theorem name_ne_empty {e : TreeEntry H} (h : e.validate = .ok ()) : e.name ≠ "" :=
  validateName_ne_empty (validate_name h)

theorem validate_of_name {e : TreeEntry H} (hm : e.gitMode = none)
    (h : validateName e.name = .ok ()) : e.validate = .ok () := by
  simp only [validate, h, hm]

end TreeEntry

/-- Git's canonical tree order: a tree's name compares as if it ended in `/`. -/
def gitCanonicalOrder (left right : TreeEntry H) : Ordering :=
  let leftName := left.name.toUTF8.data.toList
  let rightName := right.name.toUTF8.data.toList
  let shared := min leftName.length rightName.length
  let terminator (e : TreeEntry H) : UInt8 := if e.isTree then 47 else 0
  (compare (leftName.take shared) (rightName.take shared)).then
    (compare (leftName.getD shared (terminator left)) (rightName.getD shared (terminator right)))

/-- A tree object: `salts` run parallel to `entries` in a salted tree, `sourcePositions` in a tree
imported from a Git tree that was out of Git's order. -/
structure Tree (H : Type) where
  entries : List (TreeEntry H)
  scheme : TreeScheme := .v3Flat
  salts : List (Vector UInt8 32) := []
  sourcePositions : List UInt32 := []
  deriving DecidableEq

namespace Tree

def new : Tree H := { entries := [] }

def nameLe (a b : TreeEntry H) : Prop := a.name ≤ b.name

instance : DecidableRel (nameLe (H := H)) := fun a b => inferInstanceAs (Decidable (a.name ≤ b.name))

instance : Std.Total (nameLe (H := H)) := ⟨fun a b => le_total a.name b.name⟩

instance : IsTrans (TreeEntry H) nameLe := ⟨fun _ _ _ => le_trans⟩

def fromEntries (entries : List (TreeEntry H)) : Tree H :=
  { entries := (entries.map TreeEntry.dropRawGitMode).insertionSort nameLe }

def gitOrderedEntries (t : Tree H) : List (TreeEntry H) :=
  if t.sourcePositions.isEmpty then
    t.entries.insertionSort (fun a b => gitCanonicalOrder a b ≠ .gt)
  else
    ((t.entries.zip t.sourcePositions).insertionSort (fun a b => a.2 ≤ b.2)).map Prod.fst

/-- The loop of `validate`: each entry is checked before it is compared with its predecessor. -/
def validateEntries (previous : Option String) : List (TreeEntry H) → Except TreeError Unit
  | [] => .ok ()
  | e :: es =>
    match e.validate with
    | .error err => .error err
    | .ok () =>
      if previous.any (fun p => decide (e.name ≤ p)) then
        .error (.invalidStructure "entries must be strictly sorted by name")
      else validateEntries (some e.name) es

def validatePositions (len : Nat) (seen : List UInt32) : List UInt32 → Except TreeError Unit
  | [] => .ok ()
  | p :: ps =>
    if len ≤ p.toNat then
      .error (.invalidStructure ("source position " ++ toString p.toNat ++ " is out of range"))
    else if p ∈ seen then
      .error (.invalidStructure ("source position " ++ toString p.toNat ++ " is repeated"))
    else validatePositions len (p :: seen) ps

def inCanonicalOrder : List (TreeEntry H) → Bool
  | a :: b :: rest => gitCanonicalOrder a b = .lt && inCanonicalOrder (b :: rest)
  | _ => true

def validateSourcePositions (t : Tree H) : Except TreeError Unit :=
  if t.sourcePositions.isEmpty then .ok ()
  else if t.scheme ≠ .v3Flat then
    .error (.invalidStructure "only v3 trees record a git source order")
  else if t.sourcePositions.length ≠ t.entries.length then
    .error (.invalidStructure ("tree has " ++ toString t.entries.length ++ " entries but " ++
      toString t.sourcePositions.length ++ " source positions"))
  else
    match validatePositions t.entries.length [] t.sourcePositions with
    | .error err => .error err
    | .ok () =>
      if inCanonicalOrder t.gitOrderedEntries then
        .error (.invalidStructure "recorded git source order is the canonical order")
      else .ok ()

def validateScheme (t : Tree H) : Except TreeError Unit :=
  match t.scheme with
  | .v3Flat =>
    if t.salts.isEmpty then .ok ()
    else .error (.invalidStructure "v3 tree must not carry per-entry salts")
  | .v4Salted =>
    if t.salts.length ≠ t.entries.length then
      .error (.invalidStructure ("v4 tree has " ++ toString t.entries.length ++ " entries but " ++
        toString t.salts.length ++ " salts"))
    else if t.entries.any (fun e => e.gitMode.isSome) then
      .error (.invalidStructure "v4 trees do not record a git source layout")
    else .ok ()

def validate (t : Tree H) : Except TreeError Unit :=
  match t.validateScheme with
  | .error err => .error err
  | .ok () =>
    match validateEntries none t.entries with
    | .error err => .error err
    | .ok () => t.validateSourcePositions

theorem validateEntries_ok_iff (previous : Option String) (es : List (TreeEntry H)) :
    validateEntries previous es = .ok () ↔
      (∀ e ∈ es, e.validate = .ok ()) ∧ (∀ p ∈ previous, ∀ e ∈ es, p < e.name) ∧
        es.Pairwise (fun a b => a.name < b.name) := by
  induction es generalizing previous with
  | nil =>
    simp only [validateEntries, not_mem_nil, false_imp_iff, implies_true, List.Pairwise.nil,
      and_self]
  | cons e es ih =>
    simp only [validateEntries, forall_mem_cons, pairwise_cons]
    cases hv : e.validate with
    | error err => simp only [reduceCtorEq, false_and]
    | ok u =>
      by_cases hp : previous.any (fun p => decide (e.name ≤ p)) = true
      · rw [if_pos hp]
        obtain ⟨p, hmem, hle⟩ := (Option.any_eq_true _ _).1 hp
        simp only [reduceCtorEq, false_iff]
        rintro ⟨_, hlt, _⟩
        exact absurd (hlt p hmem).1 (not_lt_of_ge (of_decide_eq_true hle))
      · rw [if_neg hp, ih]
        have hlt : ∀ p ∈ previous, p < e.name := by
          intro p hmem
          by_contra hnot
          exact hp ((Option.any_eq_true _ _).2
            ⟨p, hmem, decide_eq_true (le_of_not_gt hnot)⟩)
        constructor
        · rintro ⟨hes, hfirst, hsorted⟩
          have hhead : ∀ b ∈ es, e.name < b.name := hfirst e.name rfl
          exact ⟨⟨rfl, hes⟩, fun p hmem => ⟨hlt p hmem, fun b hb =>
            lt_trans (hlt p hmem) (hhead b hb)⟩, hhead, hsorted⟩
        · rintro ⟨⟨_, hes⟩, _, hhead, hsorted⟩
          refine ⟨hes, fun p hmem => ?_, hsorted⟩
          cases hmem
          exact hhead

theorem validate_entries {t : Tree H} (h : t.validate = .ok ()) :
    (∀ e ∈ t.entries, e.validate = .ok ()) ∧
      t.entries.Pairwise (fun a b => a.name < b.name) := by
  unfold validate at h
  split at h
  · cases h
  · split at h
    · cases h
    · rename_i he
      obtain ⟨hv, _, hs⟩ := (validateEntries_ok_iff _ _).1 he
      exact ⟨hv, hs⟩

theorem validate_nodup {t : Tree H} (h : t.validate = .ok ()) :
    (t.entries.map TreeEntry.name).Nodup :=
  pairwise_map.2 ((validate_entries h).2.imp ne_of_lt)

theorem mem_fromEntries :
    e ∈ (fromEntries es).entries ↔ ∃ a ∈ es, a.dropRawGitMode = e := by
  simp [fromEntries]

theorem fromEntries_names_perm (es : List (TreeEntry H)) :
    ((fromEntries es).entries.map TreeEntry.name).Perm (es.map TreeEntry.name) := by
  have h := (perm_insertionSort nameLe (es.map TreeEntry.dropRawGitMode)).map TreeEntry.name
  simpa [fromEntries, Function.comp_def] using h

theorem fromEntries_sorted (es : List (TreeEntry H)) :
    (fromEntries es).entries.Pairwise nameLe :=
  pairwise_insertionSort nameLe _

/-- The constructor sorts and drops the Git layout, so only the names decide validity. -/
theorem fromEntries_validate_iff (es : List (TreeEntry H)) :
    (fromEntries es).validate = .ok () ↔
      (∀ e ∈ es, validateName e.name = .ok ()) ∧ (es.map TreeEntry.name).Nodup := by
  have hred : (fromEntries es).validate = validateEntries none (fromEntries es).entries := by
    have hs : (fromEntries es).validateScheme = .ok () := rfl
    have hp : (fromEntries es).validateSourcePositions = .ok () := rfl
    simp only [validate, hs, hp]
    cases h : validateEntries none (fromEntries es).entries <;> rfl
  rw [hred, validateEntries_ok_iff, ← (fromEntries_names_perm es).nodup_iff]
  constructor
  · rintro ⟨hv, _, hs⟩
    refine ⟨fun e he => ?_, pairwise_map.2 (hs.imp ne_of_lt)⟩
    have hm : e.dropRawGitMode ∈ (fromEntries es).entries := mem_fromEntries.2 ⟨e, he, rfl⟩
    have hname := TreeEntry.validate_name (hv e.dropRawGitMode hm)
    exact hname
  · rintro ⟨hv, hn⟩
    refine ⟨fun e he => ?_, fun p hp => absurd hp (Option.not_mem_none p), ?_⟩
    · obtain ⟨a, ha, rfl⟩ := mem_fromEntries.1 he
      exact TreeEntry.validate_of_name rfl (hv a ha)
    · refine ((fromEntries_sorted es).and (pairwise_map.1 hn)).imp ?_
      rintro a b ⟨hle, hne⟩
      exact lt_of_le_of_ne hle hne

end Tree

inductive HeddleError where
  | io (message : String)
  | serialization (message : String)
  | config (message : String)
  | conflict (message : String)
  | invalidObject (message : String)
  | storageFormatTooOld (storage : String) (found required : Nat)
  | storageFormatTooNew (storage : String) (found supported : Nat)
  deriving DecidableEq

def HeddleError.display : HeddleError → String
  | .io message => "io error: " ++ message
  | .serialization message => "serialization error: " ++ message
  | .config message => "configuration error: " ++ message
  | .conflict message => "conflict: " ++ message
  | .invalidObject message => "invalid object: " ++ message
  | .storageFormatTooOld storage found required =>
    storage ++ " predates required format " ++ toString required ++ " (found " ++ toString found ++
      "); recreate the repository or re-adopt its Git history with this Heddle version"
  | .storageFormatTooNew storage found supported =>
    storage ++ " uses format " ++ toString found ++ ", but this binary supports " ++
      toString supported ++ "; upgrade Heddle before opening it"

theorem utf8_eq_flatMap (s : String) : utf8 s = s.toList.flatMap String.utf8EncodeChar := by
  have hlist : s.toByteArray = s.toList.utf8Encode := by
    rw [← String.toByteArray_ofList, String.ofList_toList]
  change s.toByteArray.data.toList = _
  rw [hlist, List.utf8Encode, data_toByteArray]

theorem ascii_mem_utf8EncodeChar (h : b ∈ String.utf8EncodeChar c) (hb : b.toNat < 128) :
    c.toNat = b.toNat := by
  have hbyte : ∀ n : Nat, 128 ≤ n → n < 256 → b ≠ UInt8.ofNat n := by
    intro n hle hlt heq
    rw [heq, UInt8.toNat_ofNat', Nat.mod_eq_of_lt hlt] at hb
    omega
  unfold String.utf8EncodeChar at h
  simp only at h
  split at h
  · rename_i hle
    rw [mem_singleton.1 h, UInt8.toNat_ofNat', Nat.mod_eq_of_lt (by omega)]
    rfl
  · split at h
    · simp only [mem_cons, not_mem_nil, or_false] at h
      rcases h with h | h
      · exact absurd h (hbyte _ (by omega) (by omega))
      · exact absurd h (hbyte _ (by omega) (by omega))
    · split at h
      · simp only [mem_cons, not_mem_nil, or_false] at h
        rcases h with h | h | h
        · exact absurd h (hbyte _ (by omega) (by omega))
        · exact absurd h (hbyte _ (by omega) (by omega))
        · exact absurd h (hbyte _ (by omega) (by omega))
      · simp only [mem_cons, not_mem_nil, or_false] at h
        rcases h with h | h | h | h
        · exact absurd h (hbyte _ (by omega) (by omega))
        · exact absurd h (hbyte _ (by omega) (by omega))
        · exact absurd h (hbyte _ (by omega) (by omega))
        · exact absurd h (hbyte _ (by omega) (by omega))

theorem ascii_mem_utf8 (h : b ∈ utf8 s) (hb : b.toNat < 128) :
    ∃ c ∈ s.toList, c.toNat = b.toNat := by
  rw [utf8_eq_flatMap] at h
  obtain ⟨c, hc, hbyte⟩ := mem_flatMap.1 h
  exact ⟨c, hc, ascii_mem_utf8EncodeChar hbyte hb⟩

theorem zero_mem_utf8 (h : 0 ∈ utf8 s) : Char.ofNat 0 ∈ s.toList := by
  obtain ⟨c, hc, hnat⟩ := ascii_mem_utf8 h (by decide)
  have hnull : c = Char.ofNat 0 := Char.toNat_inj.1 hnat
  exact hnull ▸ hc

theorem validateName_no_zero (h : validateName name = .ok ()) : 0 ∉ utf8 name := by
  intro hzero
  have hnull := zero_mem_utf8 hzero
  unfold validateName at h
  split_ifs at h with hempty hdots hslash hcontrol hlong
  apply hcontrol
  rw [any_eq_true]
  exact ⟨Char.ofNat 0, hnull, by decide⟩

theorem validateName_no_slashByte (h : validateName name = .ok ()) : 47 ∉ utf8 name := by
  intro hslash
  obtain ⟨c, hc, hnat⟩ := ascii_mem_utf8 hslash (by decide)
  have heq : c = '/' := Char.toNat_inj.1 hnat
  exact validateName_no_slash h (heq ▸ hc)

theorem validSegment_no_null {segment : List Char} (h : validSegment segment = true) :
    Char.ofNat 0 ∉ segment := by
  intro hnull
  unfold validSegment at h
  simp only [Bool.and_eq_true] at h
  have hall := all_eq_true.1 h.1.1.2 (Char.ofNat 0) hnull
  exact absurd hall (by decide)

theorem spoolId_no_zero (spoolId : SpoolId) : 0 ∉ utf8 spoolId.text := by
  intro hzero
  have hnull := zero_mem_utf8 hzero
  have hcanonical := spoolId.canonical
  unfold canonicalSpoolId at hcanonical
  have hjoin : ['/'].intercalate (spoolId.text.toList.splitOn '/') = spoolId.text.toList :=
    intercalate_splitOn _
  split at hcanonical
  · rename_i spoolNamespace name hsplit
    rw [Bool.and_eq_true] at hcanonical
    rw [hsplit] at hjoin
    have htext : spoolId.text.toList = spoolNamespace ++ ('/' :: name) := by
      rw [← hjoin]
      simp [List.intercalate]
    rw [htext, mem_append, mem_cons] at hnull
    rcases hnull with hnull | hnull | hnull
    · exact validSegment_no_null hcanonical.1 hnull
    · exact absurd hnull (by decide)
    · exact validSegment_no_null hcanonical.2 hnull
  · cases hcanonical

end Heddle
