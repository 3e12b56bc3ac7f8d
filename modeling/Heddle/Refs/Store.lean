import Heddle.Object.Tree
import Heddle.Lib.Fold

namespace Heddle.Refs
open Heddle.Lib

inductive RefKey where
  | thread (name : String)
  | marker (name : String)
  | remoteThread (remote thread : String)
  deriving DecidableEq

def RefKey.describe : RefKey → String
  | .thread name => "thread " ++ name
  | .marker name => "marker " ++ name
  | .remoteThread remote name => "remote thread " ++ remote ++ "/" ++ name

inductive Head where
  | attached (thread : String)
  | detached (state : StateId)
  deriving DecidableEq

inductive RefText where
  | state (id : StateId)
  | attached (thread : String)
  | garbled (text : String)
  deriving DecidableEq

def Head.toText : Head → RefText
  | .attached thread => .attached thread
  | .detached state => .state state

inductive RefPath where
  | head
  | entry (key : RefKey)
  deriving DecidableEq

structure PackedRefs where
  threads : AList (fun _ : String => StateId) := ∅
  markers : AList (fun _ : String => StateId) := ∅
  deriving DecidableEq

def PackedRefs.get (packed : PackedRefs) : RefKey → Option StateId
  | .thread name => packed.threads.lookup name
  | .marker name => packed.markers.lookup name
  | .remoteThread _ _ => none

def PackedRefs.set (packed : PackedRefs) (key : RefKey) (id : StateId) : PackedRefs :=
  match key with
  | .thread name => { packed with threads := packed.threads.insert name id }
  | .marker name => { packed with markers := packed.markers.insert name id }
  | .remoteThread _ _ => packed

def PackedRefs.remove (packed : PackedRefs) : RefKey → PackedRefs
  | .thread name => { packed with threads := packed.threads.erase name }
  | .marker name => { packed with markers := packed.markers.erase name }
  | .remoteThread _ _ => packed

def PackedRefs.isEmpty (packed : PackedRefs) : Bool :=
  packed.threads.keys.isEmpty && packed.markers.keys.isEmpty

/-- Packed refs hold threads and markers only. -/
def RefKey.packable : RefKey → Bool
  | .remoteThread _ _ => false
  | _ => true

section
variable (packed : PackedRefs)

theorem PackedRefs.get_remove_self (key : RefKey) :
    (packed.remove key).get key = none := by
  cases key with
  | thread name => exact AList.lookup_erase name packed.threads
  | marker name => exact AList.lookup_erase name packed.markers
  | remoteThread remote thread => rfl

theorem PackedRefs.get_remove_ne (h : key ≠ key') :
    (packed.remove key').get key = packed.get key := by
  cases key' with
  | thread name' =>
    cases key with
    | thread name =>
      apply AList.lookup_erase_ne
      intro hname
      exact h (congrArg _ hname)
    | marker name => rfl
    | remoteThread remote thread => rfl
  | marker name' =>
    cases key with
    | thread name => rfl
    | marker name =>
      apply AList.lookup_erase_ne
      intro hname
      exact h (congrArg _ hname)
    | remoteThread remote thread => rfl
  | remoteThread remote' thread' => rfl

theorem PackedRefs.get_set_self (hkey : key.packable) (id : StateId) :
    (packed.set key id).get key = some id := by
  cases key with
  | thread name => exact AList.lookup_insert packed.threads
  | marker name => exact AList.lookup_insert packed.markers
  | remoteThread remote thread => cases hkey

theorem PackedRefs.get_set_ne (h : key ≠ key') (id : StateId) :
    (packed.set key' id).get key = packed.get key := by
  cases key' with
  | thread name' =>
    cases key with
    | thread name =>
      apply AList.lookup_insert_ne
      intro hname
      exact h (congrArg _ hname)
    | marker name => rfl
    | remoteThread remote thread => rfl
  | marker name' =>
    cases key with
    | thread name => rfl
    | marker name =>
      apply AList.lookup_insert_ne
      intro hname
      exact h (congrArg _ hname)
    | remoteThread remote thread => rfl
  | remoteThread remote' thread' => rfl

theorem PackedRefs.get_not_packable (hkey : key.packable = false) :
    packed.get key = none := by
  cases key with
  | thread name => cases hkey
  | marker name => cases hkey
  | remoteThread remote thread => rfl

end

inductive RefSummarySource where
  | loose
  | packed
  | looseAndPacked
  deriving DecidableEq

structure RefSummaryEntry where
  name : String
  stateId : StateId
  source : RefSummarySource
  deriving DecidableEq

structure RemoteThreadSummaryEntry where
  name : String
  stateId : StateId
  deriving DecidableEq

structure RemoteSummaryEntry where
  name : String
  threads : List RemoteThreadSummaryEntry
  deriving DecidableEq

structure RefSummaryIndex where
  threads : List RefSummaryEntry
  markers : List RefSummaryEntry
  remotes : List RemoteSummaryEntry
  deriving DecidableEq

/-- The files of one repository's refs. A key of `entries` is an entry directory that exists; its
value is the directory's `value` file, when there is one. -/
structure RefStore where
  head : Option RefText := none
  entries : AList (fun _ : RefKey => Option RefText) := ∅
  packed : Option PackedRefs := none
  summary : Option RefSummaryIndex := none
  deriving DecidableEq

namespace RefStore

def loose (store : RefStore) (key : RefKey) : Option RefText := (store.entries.lookup key).join

def fileAt (store : RefStore) : RefPath → Option RefText
  | .head => store.head
  | .entry key => store.loose key

def setFile (store : RefStore) (path : RefPath) (text : Option RefText) : RefStore :=
  match path with
  | .head => { store with head := text }
  | .entry key => { store with entries := store.entries.insert key text }

def createEntry (store : RefStore) : RefPath → RefStore
  | .head => store
  | .entry key =>
    if key ∈ store.entries then store
    else { store with entries := store.entries.insert key none }

def packedRefs (store : RefStore) : PackedRefs := store.packed.getD {}

section
variable (store : RefStore)

@[simp] theorem fileAt_setFile_self (path : RefPath) (text : Option RefText) :
    (store.setFile path text).fileAt path = text := by
  cases path with
  | head => rfl
  | entry key =>
    change ((store.entries.insert key text).lookup key).join = text
    rw [AList.lookup_insert]
    rfl

theorem fileAt_setFile_ne (h : path ≠ path') (text : Option RefText) :
    (store.setFile path' text).fileAt path = store.fileAt path := by
  cases path' with
  | head =>
    cases path with
    | head => exact absurd rfl h
    | entry key => rfl
  | entry key' =>
    cases path with
    | head => rfl
    | entry key =>
      change ((store.entries.insert key' text).lookup key).join = _
      rw [AList.lookup_insert_ne]
      · rfl
      · intro hkey
        exact h (congrArg _ hkey)

@[simp] theorem packed_setFile (path : RefPath) (text : Option RefText) :
    (store.setFile path text).packed = store.packed := by
  cases path <;> rfl

@[simp] theorem summary_setFile (path : RefPath) (text : Option RefText) :
    (store.setFile path text).summary = store.summary := by
  cases path <;> rfl

@[simp] theorem fileAt_createEntry (path path' : RefPath) :
    (store.createEntry path').fileAt path = store.fileAt path := by
  cases path' with
  | head => rfl
  | entry key' =>
    by_cases hmem : key' ∈ store.entries
    · rw [createEntry, if_pos hmem]
    · rw [createEntry, if_neg hmem]
      cases path with
      | head => rfl
      | entry key =>
        change ((store.entries.insert key' none).lookup key).join = (store.entries.lookup key).join
        by_cases hkey : key = key'
        · subst hkey
          rw [AList.lookup_insert, AList.lookup_eq_none.2 hmem]
          rfl
        · rw [AList.lookup_insert_ne hkey]

@[simp] theorem packed_createEntry (path : RefPath) :
    (store.createEntry path).packed = store.packed := by
  cases path with
  | head => rfl
  | entry key =>
    by_cases hmem : key ∈ store.entries
    · rw [createEntry, if_pos hmem]
    · rw [createEntry, if_neg hmem]

@[simp] theorem summary_createEntry (path : RefPath) :
    (store.createEntry path).summary = store.summary := by
  cases path with
  | head => rfl
  | entry key =>
    by_cases hmem : key ∈ store.entries
    · rw [createEntry, if_pos hmem]
    · rw [createEntry, if_neg hmem]

end

end RefStore

/-- What the manager takes from packages outside the repository: Git's rules for ref names and the
text of a state id. -/
structure RefNames where
  requireUserRefName : String → Bool
  fromGitBranch : String → Bool
  fromGitTag : String → Bool
  toStringFull : StateId → String

inductive RefError where
  | invalidRefName (message : String)
  | invalidObject (message : String)
  | conflict (message : String)
  | io
  deriving DecidableEq

def plainNames : RefNames where
  requireUserRefName := fun _ => true
  fromGitBranch := fun _ => true
  fromGitTag := fun _ => true
  toStringFull := fun id => "hc-" ++ String.join (id.bytes.toList.map toString)

def numberedState (n : UInt8) : StateId := ⟨Vector.replicate 32 n⟩

section Read
variable (names : RefNames)

def requireName (accepts : String → Bool) (name : String) : Except RefError Unit :=
  if accepts name then .ok () else .error (.invalidRefName name)

def refPath (key : RefKey) : Except RefError RefPath :=
  match key with
  | .thread name => do
    requireName names.requireUserRefName name
    requireName names.fromGitBranch name
    return .entry key
  | .marker name => do
    requireName names.requireUserRefName name
    requireName names.fromGitTag name
    return .entry key
  | .remoteThread remote thread => do
    requireName names.requireUserRefName thread
    requireName names.fromGitBranch thread
    requireName names.requireUserRefName remote
    return .entry key

def RefText.text : RefText → String
  | .state id => names.toStringFull id
  | .attached thread => "ref: " ++ thread
  | .garbled text => text

def readStateIdAt (store : RefStore) (key : RefKey) : Except RefError (Option StateId) :=
  match store.loose key with
  | none => .ok none
  | some (.state id) => .ok (some id)
  | some text => .error (.invalidObject ("invalid " ++ key.describe ++ ": " ++ text.text names))

/-- `raw_get_thread`, `raw_get_marker` and `raw_get_remote_thread`: the loose file, then the packed
refs. -/
def rawGet (store : RefStore) (key : RefKey) : Except RefError (Option StateId) := do
  let _ ← refPath names key
  match ← readStateIdAt names store key with
  | some id => return some id
  | none => return store.packedRefs.get key

structure HeadState where
  head : Head
  existsOnDisk : Bool
  raw : Option RefText
  deriving DecidableEq

/-- HEAD is read back only when it names a branch that Git accepts and a user may have. -/
def parseHeadContents : RefText → Except RefError Head
  | .attached thread =>
    if names.fromGitBranch thread ∧ names.requireUserRefName thread then .ok (.attached thread)
    else .error (.invalidObject ("invalid HEAD: ref: " ++ thread))
  | .state id => .ok (.detached id)
  | .garbled text => .error (.invalidObject ("invalid HEAD: " ++ text))

def readHeadState (store : RefStore) : Except RefError HeadState :=
  match store.head with
  | none => .ok ⟨.attached "main", false, none⟩
  | some contents => do
    let head ← parseHeadContents names contents
    return ⟨head, true, some contents⟩

variable {names}

theorem refPath_ok (h : refPath names key = .ok path) : path = .entry key := by
  cases key with
  | thread name =>
    obtain ⟨_, _, h⟩ := bind_eq_ok.1 h
    obtain ⟨_, _, h⟩ := bind_eq_ok.1 h
    exact (Except.ok.inj h).symm
  | marker name =>
    obtain ⟨_, _, h⟩ := bind_eq_ok.1 h
    obtain ⟨_, _, h⟩ := bind_eq_ok.1 h
    exact (Except.ok.inj h).symm
  | remoteThread remote thread =>
    obtain ⟨_, _, h⟩ := bind_eq_ok.1 h
    obtain ⟨_, _, h⟩ := bind_eq_ok.1 h
    obtain ⟨_, _, h⟩ := bind_eq_ok.1 h
    exact (Except.ok.inj h).symm

end Read

end Heddle.Refs
