import Heddle.Object.GitOrder

namespace Heddle
open Heddle.Lib
open List hiding Vector cons count format le_refl nil

section Import
variable (heddleForGit : GitObjectId → MappedKind → Except HeddleError (Option H))

/-- The target an imported entry takes from the identity map; a gitlink keeps its own id. -/
def MapsTo (oid : GitObjectId) : TreeEntryTarget H → Prop
  | .tree hash => heddleForGit oid .tree = .ok (some hash)
  | .blob hash _ => heddleForGit oid .blob = .ok (some hash)
  | .symlink hash => heddleForGit oid .blob = .ok (some hash)
  | .gitlink target => target = oid
  | .spoollink _ _ => False

/-- What the native entry of a child is. -/
structure Imports (child : GitTreeEntryRef) (e : TreeEntry H) : Prop where
  name : fromUtf8 child.name = some e.name
  valid : validateName e.name = .ok ()
  kind : child.mode.entryType = some e.entryType
  executable : e.entryType = .blob → child.mode.isExecutable = e.isExecutable
  mode : e.gitMode = if RawGitMode.canonical e.entryType e.isExecutable = some child.mode then none
    else some child.mode
  target : MapsTo heddleForGit child.oid e.target

end Import

namespace RawGitMode

theorem canonical_describes (h : canonical kind executable = some mode) :
    mode.entryType = some kind ∧ (kind = .blob → mode.isExecutable = executable) := by
  cases kind <;> cases executable <;> cases h <;> exact ⟨by decide, by decide⟩

end RawGitMode

namespace TreeEntry

theorem checkRawGitMode_ok_iff {e : TreeEntry H} {mode : RawGitMode} :
    e.checkRawGitMode mode = .ok () ↔
      mode.entryType = some e.entryType ∧
        (e.entryType = .blob → mode.isExecutable = e.isExecutable) ∧
        RawGitMode.canonical e.entryType e.isExecutable ≠ some mode := by
  unfold checkRawGitMode
  split
  · rename_i h
    simp only [reduceCtorEq, false_iff, not_and]
    intro hkind hexecutable
    rcases h with h | h
    · exact absurd hkind h
    · exact absurd (hexecutable h.1) h.2
  · rename_i h
    rw [not_or, not_not, not_and, not_ne_iff] at h
    split
    · rename_i hcanonical
      simp only [reduceCtorEq, false_iff]
      intro hall
      exact hall.2.2 hcanonical
    · rename_i hcanonical
      simp only [true_iff]
      exact ⟨h.1, h.2, hcanonical⟩

theorem withRawGitMode_ok_iff {e e' : TreeEntry H} {mode : RawGitMode} :
    e.withRawGitMode mode = .ok e' ↔
      mode.entryType = some e.entryType ∧
        (e.entryType = .blob → mode.isExecutable = e.isExecutable) ∧
        e' = { e with gitMode :=
          if RawGitMode.canonical e.entryType e.isExecutable = some mode then none else some mode } := by
  unfold withRawGitMode
  by_cases hcanonical : RawGitMode.canonical e.entryType e.isExecutable = some mode
  · have hdescribes := RawGitMode.canonical_describes hcanonical
    rw [if_pos hcanonical, if_pos hcanonical]
    simp only [pure_eq_ok, Except.ok.injEq, hdescribes.1, true_and]
    constructor
    · intro h
      exact ⟨hdescribes.2, h.symm⟩
    · intro h
      exact h.2.symm
  · rw [if_neg hcanonical, if_neg hcanonical]
    simp only [bind_eq_ok, pure_eq_ok, Except.ok.injEq]
    constructor
    · intro h
      obtain ⟨_, hcheck, rfl⟩ := h
      obtain ⟨hkind, hexecutable, _⟩ := checkRawGitMode_ok_iff.1 hcheck
      exact ⟨hkind, hexecutable, rfl⟩
    · intro h
      obtain ⟨hkind, hexecutable, rfl⟩ := h
      exact ⟨(), checkRawGitMode_ok_iff.2 ⟨hkind, hexecutable, hcanonical⟩, rfl⟩

theorem withChecked_ok_iff {name : String} {target : TreeEntryTarget H} {e : TreeEntry H} :
    withChecked name target = .ok e ↔
      validateName name = .ok () ∧ e = { name := name, target := target } := by
  constructor
  · exact withChecked_ok
  · intro h
    obtain ⟨hname, rfl⟩ := h
    rw [withChecked, hname]

end TreeEntry

section Spec
variable {heddleForGit : GitObjectId → MappedKind → Except HeddleError (Option H)} {gitSha : String}

theorem blob_executable (hash : H) (executable : Bool) :
    decide ((TreeEntryTarget.blob hash executable).mode = .executable) = executable := by
  cases executable <;> rfl

theorem nativeEntry_ok_iff :
    nativeEntry heddleForGit gitSha child name = .ok entry ↔
      ∃ target : TreeEntryTarget H, child.mode.entryType = some target.entryType ∧
        (target.entryType = .blob → child.mode.isExecutable = decide (target.mode = .executable)) ∧
        MapsTo heddleForGit child.oid target ∧ entry = TreeEntry.withChecked name target := by
  unfold nativeEntry
  split
  all_goals rename_i hkind
  · simp only [bind_eq_ok, orElseErr_eq_ok, pure_eq_ok, Except.ok.injEq]
    constructor
    · intro h
      obtain ⟨_, hrow, hash, rfl, rfl⟩ := h
      exact ⟨.tree hash, hkind, fun h => (by cases h), hrow, rfl⟩
    · intro h
      obtain ⟨target, htarget, _, hmaps, rfl⟩ := h
      cases target with
      | tree hash => exact ⟨_, hmaps, hash, rfl, rfl⟩
      | _ => rw [hkind] at htarget; cases htarget
  · simp only [bind_eq_ok, orElseErr_eq_ok, pure_eq_ok, Except.ok.injEq]
    constructor
    · intro h
      obtain ⟨_, hrow, hash, rfl, rfl⟩ := h
      exact ⟨.blob hash child.mode.isExecutable, hkind, fun _ => (blob_executable _ _).symm, hrow,
        rfl⟩
    · intro h
      obtain ⟨target, htarget, hexecutable, hmaps, rfl⟩ := h
      cases target with
      | blob hash executable =>
        have heq := hexecutable rfl
        rw [blob_executable] at heq
        exact ⟨_, hmaps, hash, rfl, by rw [heq]; rfl⟩
      | _ => rw [hkind] at htarget; cases htarget
  · simp only [bind_eq_ok, orElseErr_eq_ok, pure_eq_ok, Except.ok.injEq]
    constructor
    · intro h
      obtain ⟨_, hrow, hash, rfl, rfl⟩ := h
      exact ⟨.symlink hash, hkind, fun h => (by cases h), hrow, rfl⟩
    · intro h
      obtain ⟨target, htarget, _, hmaps, rfl⟩ := h
      cases target with
      | symlink hash => exact ⟨_, hmaps, hash, rfl, rfl⟩
      | _ => rw [hkind] at htarget; cases htarget
  · rw [Except.ok.injEq]
    constructor
    · intro h
      exact ⟨.gitlink child.oid, hkind, fun h => (by cases h), rfl, h.symm⟩
    · intro h
      obtain ⟨target, htarget, _, hmaps, rfl⟩ := h
      cases target with
      | gitlink oid => rw [show oid = child.oid from hmaps]; rfl
      | _ => rw [hkind] at htarget; cases htarget
  · simp only [reduceCtorEq, false_iff]
    intro h
    obtain ⟨target, htarget, _, hmaps, _⟩ := h
    cases target with
    | spoollink => exact hmaps
    | _ => rw [hkind] at htarget; cases htarget
  · simp only [reduceCtorEq, false_iff]
    intro h
    obtain ⟨target, htarget, _⟩ := h
    rw [hkind] at htarget
    cases htarget

theorem importEntry_ok_iff :
    importEntry heddleForGit gitSha child = .ok e ↔ Imports heddleForGit child e := by
  simp only [importEntry, bind_eq_ok, orElseErr_eq_ok, mapErr_eq_ok, nativeEntry_ok_iff]
  constructor
  · intro h
    obtain ⟨name, hname, _, ⟨target, _, _, hmaps, rfl⟩, e', hchecked, hmode⟩ := h
    obtain ⟨hvalid, rfl⟩ := TreeEntry.withChecked_ok_iff.1 hchecked
    obtain ⟨hkind, hexecutable, rfl⟩ := TreeEntry.withRawGitMode_ok_iff.1 hmode
    exact ⟨hname, hvalid, hkind, hexecutable, rfl, hmaps⟩
  · intro h
    cases e with
    | mk name target gitMode =>
      refine ⟨name, h.name, _, ⟨target, h.kind, h.executable, h.target, rfl⟩, ⟨name, target, none⟩,
        TreeEntry.withChecked_ok_iff.2 ⟨h.valid, rfl⟩, ?_⟩
      apply TreeEntry.withRawGitMode_ok_iff.2
      refine ⟨h.kind, h.executable, ?_⟩
      have hmode := h.mode
      simp only at hmode
      rw [hmode]
      rfl

end Spec

def gitSpellings : List Bytes :=
  [utf8 "40000", utf8 "100644", utf8 "100755", utf8 "120000", utf8 "160000"]

namespace GitTreeEntryRef

def isTree (child : GitTreeEntryRef) : Bool := child.mode.entryType = some .tree

def CanonicalSpelling (child : GitTreeEntryRef) : Prop := child.mode.writeDigits ∈ gitSpellings

end GitTreeEntryRef

/-- Strictly ascending names, where a tree's name ends in a slash. -/
def CanonicalOrder (children : List GitTreeEntryRef) : Prop :=
  children.Pairwise fun a b =>
    compare (gitSortName a.isTree a.name) (gitSortName b.isTree b.name) = .lt

theorem parse_gitSpellings (debugLossy : Bytes → String) (h : digits ∈ gitSpellings) :
    ∃ mode kind, RawGitMode.parse debugLossy digits = .ok mode ∧ mode.entryType = some kind ∧
      RawGitMode.canonical kind mode.isExecutable = some mode := by
  simp only [gitSpellings, mem_cons, not_mem_nil, or_false] at h
  rcases h with rfl | rfl | rfl | rfl | rfl
  · exact ⟨⟨0o040000, 0, by decide⟩, .tree, rfl, by decide, by decide⟩
  · exact ⟨⟨0o100644, 0, by decide⟩, .blob, rfl, by decide, by decide⟩
  · exact ⟨⟨0o100755, 0, by decide⟩, .blob, rfl, by decide, by decide⟩
  · exact ⟨⟨0o120000, 0, by decide⟩, .symlink, rfl, by decide, by decide⟩
  · exact ⟨⟨0o160000, 0, by decide⟩, .gitlink, rfl, by decide, by decide⟩

theorem RawGitMode.canonical_spelling (h : canonical kind executable = some mode) :
    mode.writeDigits ∈ gitSpellings := by
  cases kind <;> cases executable <;> cases h <;> decide

namespace Imports
variable {heddleForGit : GitObjectId → MappedKind → Except HeddleError (Option H)}
  {child : GitTreeEntryRef} {e : TreeEntry H}

section
variable (h : Imports heddleForGit child e)
include h

theorem utf8_name : utf8 e.name = child.name :=
  utf8_of_fromUtf8 h.name

theorem written : e.writtenGitMode = some child.mode := by
  rw [TreeEntry.writtenGitMode, h.mode]
  split
  · rename_i hcanonical
    rw [hcanonical]
    rfl
  · rfl

theorem validate : e.validate = .ok () := by
  have hmode := h.mode
  unfold TreeEntry.validate
  rw [h.valid]
  split at hmode
  · rw [hmode]
  · rename_i hcanonical
    rw [hmode]
    exact TreeEntry.checkRawGitMode_ok_iff.2 ⟨h.kind, h.executable, hcanonical⟩

theorem sortName :
    e.sortName = gitSortName child.isTree child.name := by
  have htree : child.isTree = e.isTree := by
    rw [GitTreeEntryRef.isTree, h.kind, TreeEntry.isTree]
    simp only [Option.some.injEq]
  rw [TreeEntry.sortName, h.utf8_name, htree]

theorem gitMode_eq_none_iff
    (hparse : RawGitMode.parse debugLossy child.mode.writeDigits = .ok child.mode) :
    e.gitMode = none ↔ child.CanonicalSpelling := by
  rw [h.mode]
  split
  · rename_i hcanonical
    exact ⟨fun _ => RawGitMode.canonical_spelling hcanonical, fun _ => rfl⟩
  · rename_i hcanonical
    simp only [reduceCtorEq, false_iff]
    intro hspelling
    obtain ⟨mode, kind, hmode, hkind, hcanon⟩ := parse_gitSpellings debugLossy hspelling
    rw [hparse] at hmode
    obtain rfl := Except.ok.inj hmode
    apply hcanonical
    rw [h.kind] at hkind
    obtain rfl := Option.some.inj hkind
    by_cases hblob : e.entryType = .blob
    · rw [← h.executable hblob]
      exact hcanon
    · rw [← hcanon]
      cases hentry : e.entryType with
      | blob => exact absurd hentry hblob
      | _ => rfl

theorem exported {exported : MappedKind → H → Except SerializeError GitObjectId}
    (hrows : ∀ oid kind hash, heddleForGit oid kind = .ok (some hash) →
      exported kind hash = .ok oid) : exportEntry exported e = .ok child.oid := by
  have htarget := h.target
  unfold exportEntry
  cases htype : e.target with
  | tree hash => rw [htype] at htarget; exact hrows _ _ _ htarget
  | blob hash executable => rw [htype] at htarget; exact hrows _ _ _ htarget
  | symlink hash => rw [htype] at htarget; exact hrows _ _ _ htarget
  | gitlink target => rw [htype] at htarget; exact congrArg Except.ok htarget
  | spoollink spoolId stateId => rw [htype] at htarget; exact absurd htarget id

end

end Imports

section RoundTrip
variable {heddleForGit : GitObjectId → MappedKind → Except HeddleError (Option H)}
  {children : List GitTreeEntryRef} {entries : List (TreeEntry H)}

/-- What a native entry can hold: a valid name and a target the identity map knows. -/
structure Representable (heddleForGit : GitObjectId → MappedKind → Except HeddleError (Option H))
    (child : GitTreeEntryRef) : Prop where
  name : ∃ name, fromUtf8 child.name = some name ∧ validateName name = .ok ()
  target : ∃ target : TreeEntryTarget H, child.mode.entryType = some target.entryType ∧
    MapsTo heddleForGit child.oid target

/-- A Git tree that a native tree can hold: no name twice, and positions that fit. -/
structure RepresentableTree
    (heddleForGit : GitObjectId → MappedKind → Except HeddleError (Option H))
    (children : List GitTreeEntryRef) : Prop where
  entries : ∀ child ∈ children, Representable heddleForGit child
  names : (children.map GitTreeEntryRef.name).Nodup
  count : children.length ≤ 2 ^ 32

theorem imports_of_target (hname : fromUtf8 child.name = some name)
    (hvalid : validateName name = .ok ()) (hkind : child.mode.entryType = some target.entryType)
    (hexecutable : target.entryType = .blob →
      child.mode.isExecutable = decide (target.mode = .executable))
    (htarget : MapsTo heddleForGit child.oid target) :
    ∃ e : TreeEntry H, Imports heddleForGit child e :=
  ⟨⟨name, target, if RawGitMode.canonical target.entryType (decide (target.mode = .executable)) =
    some child.mode then none else some child.mode⟩, hname, hvalid, hkind, hexecutable, rfl, htarget⟩

theorem exists_imports_iff :
    (∃ e : TreeEntry H, Imports heddleForGit child e) ↔ Representable heddleForGit child := by
  constructor
  · intro h
    obtain ⟨e, he⟩ := h
    exact ⟨⟨e.name, he.name, he.valid⟩, e.target, he.kind, he.target⟩
  · intro h
    obtain ⟨⟨name, hname, hvalid⟩, target, hkind, htarget⟩ := h
    cases target with
    | blob hash _ =>
      have hmapped : MapsTo heddleForGit child.oid (.blob hash child.mode.isExecutable) := htarget
      have hblob : child.mode.entryType =
          some (TreeEntryTarget.blob hash child.mode.isExecutable).entryType := hkind
      exact imports_of_target hname hvalid hblob (fun _ => (blob_executable _ _).symm) hmapped
    | _ => exact imports_of_target hname hvalid hkind (fun h => (nomatch h)) htarget

section
variable (h : List.Forall₂ (Imports heddleForGit) children entries)
include h

theorem imports_names :
    children.map GitTreeEntryRef.name = entries.map fun e => utf8 e.name := by
  induction h with
  | nil => rfl
  | cons hchild _ ih => rw [map_cons, map_cons, ih, hchild.utf8_name]

theorem imports_nodup :
    (entries.map TreeEntry.name).Nodup ↔ (children.map GitTreeEntryRef.name).Nodup := by
  have hmap : (entries.map fun e => utf8 e.name) = (entries.map TreeEntry.name).map utf8 := by
    rw [map_map]
    rfl
  rw [imports_names h, hmap, nodup_map_iff utf8_injective]

theorem imports_validate :
    ∀ e ∈ entries, e.validate = .ok () := by
  induction h with
  | nil => exact fun _ he => absurd he not_mem_nil
  | cons hchild _ ih => exact forall_mem_cons.2 ⟨hchild.validate, ih⟩

theorem imports_sortsBefore :
    entries.Pairwise Tree.SortsBefore ↔ CanonicalOrder children := by
  have hnames : entries.map TreeEntry.sortName =
      children.map fun child => gitSortName child.isTree child.name := by
    induction h with
    | nil => rfl
    | cons hchild _ ih => rw [map_cons, map_cons, ih, hchild.sortName]
  have hentries := pairwise_map (f := TreeEntry.sortName (H := H)) (l := entries)
    (R := fun a b => compare a b = .lt)
  rw [hnames, pairwise_map] at hentries
  exact hentries.symm

theorem imports_gitMode (hparse : ∀ child ∈ children,
      RawGitMode.parse debugLossy child.mode.writeDigits = .ok child.mode) :
    (∀ e ∈ entries, e.gitMode = none) ↔ ∀ child ∈ children, child.CanonicalSpelling := by
  induction h with
  | nil => simp only [not_mem_nil, false_imp_iff, implies_true]
  | cons hchild _ ih =>
    obtain ⟨hhead, htail⟩ := forall_mem_cons.1 hparse
    rw [forall_mem_cons, forall_mem_cons, hchild.gitMode_eq_none_iff hhead, ih htail]

theorem serializeEntries_imports (hformat : ∀ child ∈ children, child.oid.format = format)
    (hrows : ∀ oid kind hash, heddleForGit oid kind = .ok (some hash) →
      exported kind hash = .ok oid) :
    serializeEntries format (exportEntry exported) entries =
      .ok (children.flatMap GitTreeEntryRef.encode) := by
  induction h with
  | nil => rfl
  | @cons child e children entries hchild _ ih =>
    obtain ⟨hhead, htail⟩ := forall_mem_cons.1 hformat
    rw [serializeEntries, hchild.written]
    refine bind_eq_ok.2 ⟨_, hchild.exported hrows, ?_⟩
    refine bind_eq_ok.2 ⟨(), refuse_eq_ok.2 (fun hne => hne hhead), ?_⟩
    refine bind_eq_ok.2 ⟨_, ih htail, ?_⟩
    rw [hchild.utf8_name, pure_eq_ok, flatMap_cons, GitTreeEntryRef.encode,
      append_assoc, cons_append, append_assoc, cons_append]

theorem ofGitEntries_hasGitLayout (hparse : ∀ child ∈ children,
      RawGitMode.parse debugLossy child.mode.writeDigits = .ok child.mode) :
    (Tree.ofGitEntries entries).hasGitLayout = false ↔
      CanonicalOrder children ∧ ∀ child ∈ children, child.CanonicalSpelling := by
  have horder := Tree.inCanonicalOrder_iff (imports_validate h)
  have hperm := Tree.ofGitEntries_perm entries
  have hmodes : (∀ e ∈ (Tree.ofGitEntries entries).entries, e.gitMode = none) ↔
      ∀ e ∈ entries, e.gitMode = none :=
    ⟨fun hall e he => hall e (hperm.mem_iff.2 he), fun hall e he => hall e (hperm.mem_iff.1 he)⟩
  rw [Tree.hasGitLayout_iff, hmodes, imports_gitMode h hparse, ← imports_sortsBefore h, ← horder]
  apply and_congr_left'
  unfold Tree.ofGitEntries
  cases hcanonical : Tree.inCanonicalOrder entries with
  | true => exact ⟨fun _ => rfl, fun _ => rfl⟩
  | false =>
    simp only [Bool.false_eq_true, if_false, iff_false]
    intro hnil
    have hlength := (perm_insertionSort (fun a b => Tree.nameLe a.1 b.1)
      (Tree.numbered entries)).length_eq
    rw [map_eq_nil_iff.1 hnil] at hlength
    have hentries := Tree.numbered_entries entries
    rw [length_eq_zero_iff.1 hlength.symm] at hentries
    rw [← hentries] at hcanonical
    cases hcanonical

end

variable (gitSha : String)

/-- A Git tree's body comes back byte for byte from the native tree that was built of it, and the
native tree records a layout exactly when Git itself would have written another body. -/
theorem gitTree_roundTrip {debugLossy : Bytes → String} {format : GitObjectFormat}
    {exported : MappedKind → H → Except SerializeError GitObjectId}
    (hrows : ∀ oid kind hash, heddleForGit oid kind = .ok (some hash) →
      exported kind hash = .ok oid)
    (hparse : parseGitTree debugLossy format body = .ok children) :
    ((∃ t : Tree H, importGitTree heddleForGit gitSha debugLossy format body = .ok t) ↔
      RepresentableTree heddleForGit children) ∧
    ∀ t : Tree H, importGitTree heddleForGit gitSha debugLossy format body = .ok t →
      serializeTree t format (exportEntry exported) = .ok body ∧
      (t.hasGitLayout = true ↔
        ¬(CanonicalOrder children ∧ ∀ child ∈ children, child.CanonicalSpelling)) := by
  obtain ⟨hbody, hchildren⟩ := parseGitTreeFrom_ok (le_refl _) hparse
  have himport (t : Tree H) : importGitTree heddleForGit gitSha debugLossy format body = .ok t ↔
      ∃ entries, List.Forall₂ (Imports heddleForGit) children entries ∧
        children.length ≤ 2 ^ 32 ∧ (children.map GitTreeEntryRef.name).Nodup ∧
        t = Tree.ofGitEntries entries := by
    simp only [importGitTree, bind_eq_ok, mapErr_eq_ok, hparse, Except.ok.injEq,
      exists_eq_left', mapM_ok_iff, importEntry_ok_iff]
    apply exists_congr
    intro entries
    apply and_congr_right
    intro hall
    rw [Tree.fromGitEntries_ok_iff (imports_validate hall), imports_nodup hall, hall.length_eq]
  have hexists := exists_forall₂_iff (Imports heddleForGit) children
  constructor
  · constructor
    · intro h
      obtain ⟨t, ht⟩ := h
      obtain ⟨entries, hall, hcount, hnames, _⟩ := (himport t).1 ht
      have hentries := hexists.1 ⟨entries, hall⟩
      exact ⟨fun child hchild => exists_imports_iff.1 (hentries child hchild), hnames, hcount⟩
    · intro h
      obtain ⟨entries, hall⟩ := hexists.2 fun child hchild =>
        exists_imports_iff.2 (h.entries child hchild)
      exact ⟨_, (himport _).2 ⟨entries, hall, h.count, h.names, rfl⟩⟩
  · intro t ht
    obtain ⟨entries, hall, hcount, _, rfl⟩ := (himport t).1 ht
    have horder := Tree.gitOrderedEntries_ofGitEntries (imports_validate hall)
      (hall.length_eq ▸ hcount)
    have hlayout := ofGitEntries_hasGitLayout hall fun child hchild => (hchildren child hchild).2
    constructor
    · rw [serializeTree, horder, hbody]
      exact serializeEntries_imports hall (fun child hchild => (hchildren child hchild).1) hrows
    · rw [← hlayout, Bool.not_eq_false]

end RoundTrip

section Padded

theorem groupWritable_ne : (0o100664 : UInt32) ≠ 0 := by decide

theorem directory_ne : (0o040000 : UInt32) ≠ 0 := by decide

def paddedChildren : List GitTreeEntryRef :=
  [⟨⟨0o100664, 0, groupWritable_ne⟩, utf8 "b", .sha1 (Vector.replicate 20 1)⟩,
    ⟨⟨0o040000, 1, directory_ne⟩, utf8 "a", .sha1 (Vector.replicate 20 2)⟩]

def quoteAscii (bytes : Bytes) : String :=
  (String.ofList (bytes.map fun b => Char.ofNat b.toNat)).quote

def paddedRows (oid : GitObjectId) (kind : MappedKind) :
    Except HeddleError (Option ContentHash) :=
  if oid = .sha1 (Vector.replicate 20 1) ∧ kind = .blob then .ok (some ⟨Vector.replicate 32 1⟩)
  else if oid = .sha1 (Vector.replicate 20 2) ∧ kind = .tree then
    .ok (some ⟨Vector.replicate 32 2⟩)
  else .ok none

def paddedExport (kind : MappedKind) (hash : ContentHash) : Except SerializeError GitObjectId :=
  if hash = ⟨Vector.replicate 32 1⟩ ∧ kind = .blob then .ok (.sha1 (Vector.replicate 20 1))
  else if hash = ⟨Vector.replicate 32 2⟩ ∧ kind = .tree then .ok (.sha1 (Vector.replicate 20 2))
  else .error (.invalidObject "missing exported tree entry")

theorem paddedExport_rows (oid : GitObjectId) (kind : MappedKind) (hash : ContentHash)
    (h : paddedRows oid kind = .ok (some hash)) : paddedExport kind hash = .ok oid := by
  unfold paddedRows at h
  split at h
  · rename_i hrow
    cases h
    rw [paddedExport, if_pos ⟨rfl, hrow.2⟩, hrow.1]
  · split at h
    · rename_i hrow
      cases h
      rw [paddedExport, if_neg (by rw [hrow.2]; decide), if_pos ⟨rfl, hrow.2⟩, hrow.1]
    · cases h

theorem gitTree_roundTrip_padded :
    ((∃ t : Tree ContentHash, importGitTree paddedRows "tree" quoteAscii .sha1
        (paddedChildren.flatMap GitTreeEntryRef.encode) = .ok t) ↔
      RepresentableTree paddedRows paddedChildren) ∧
    ∀ t : Tree ContentHash, importGitTree paddedRows "tree" quoteAscii .sha1
        (paddedChildren.flatMap GitTreeEntryRef.encode) = .ok t →
      serializeTree t .sha1 (exportEntry paddedExport) =
        .ok (paddedChildren.flatMap GitTreeEntryRef.encode) ∧
      (t.hasGitLayout = true ↔ ¬(CanonicalOrder paddedChildren ∧
        ∀ child ∈ paddedChildren, child.CanonicalSpelling)) :=
  gitTree_roundTrip "tree" paddedExport_rows rfl

end Padded

end Heddle
