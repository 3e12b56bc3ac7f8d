import Heddle.Lib.SortedMap
import Heddle.Object.FlatPreimage
import Heddle.Object.LeanEncode
import Heddle.Object.RedactedCodec

namespace Heddle
open Heddle.Lib Option
open List hiding Vector

namespace Tree

def dropGitLayout (t : Tree H) : Tree H :=
  { t with entries := t.entries.map TreeEntry.dropRawGitMode, sourcePositions := [] }

def get (t : Tree H) (name : String) : Option (TreeEntry H) :=
  (binarySearchBy TreeEntry.name name t.entries).toOption.map Prod.snd

/-- An entry of the same name goes together with its salt. -/
def insertSalted (t : Tree H) (entry : TreeEntry H) (salt : Vector UInt8 32) : Tree H :=
  let rest := match t.entries.findIdx? (·.name = entry.name) with
    | some existing => (t.entries.eraseIdx existing, t.salts.eraseIdx existing)
    | none => (t.entries, t.salts)
  let pos := rest.1.findIdx (entry.name < ·.name)
  { t with entries := rest.1.insertIdx pos entry, salts := rest.2.insertIdx pos salt }

/-- `salt` is what the random source gives, for the entry of a salted tree. -/
def insert (t : Tree H) (entry : TreeEntry H) (salt : Vector UInt8 32) : Tree H :=
  let t := t.dropGitLayout
  let entry := entry.dropRawGitMode
  match t.scheme with
  | .v3Flat =>
    let entries := t.entries.filter (·.name ≠ entry.name)
    { t with entries := entries.insertIdx (entries.findIdx (entry.name < ·.name)) entry }
  | .v4Salted => t.insertSalted entry salt

def remove (t : Tree H) (name : String) : Option (TreeEntry H) × Tree H :=
  match t.entries.findIdx? (·.name = name) with
  | none => (none, t)
  | some pos =>
    let t := t.dropGitLayout
    let salts := if t.scheme = .v4Salted then t.salts.eraseIdx pos else t.salts
    (t.entries[pos]?, { t with entries := t.entries.eraseIdx pos, salts := salts })

end Tree

inductive TreeEdit (H : Type) where
  | insert (entry : TreeEntry H) (salt : Vector UInt8 32)
  | remove (name : String)

namespace TreeEdit

def name : TreeEdit H → String
  | .insert entry _ => entry.name
  | .remove name => name

def kept : TreeEdit H → Option (TreeEntry H × Vector UInt8 32)
  | .insert entry salt => some (entry.dropRawGitMode, salt)
  | .remove _ => none

/-- Only valid entries can be built. -/
def Valid : TreeEdit H → Prop
  | .insert entry _ => entry.validate = .ok ()
  | .remove _ => True

instance : (edit : TreeEdit H) → Decidable edit.Valid
  | .insert entry _ => inferInstanceAs (Decidable (entry.validate = .ok ()))
  | .remove _ => .isTrue trivial

/-- All but the removal of a name that the tree does not have. -/
def Effective (t : Tree H) : TreeEdit H → Prop
  | .insert _ _ => True
  | .remove name => t.get name ≠ none

def update (edit : TreeEdit H) (f : TreeEntry H × Vector UInt8 32 → β) (m : String → Option β) :
    String → Option β :=
  Function.update m edit.name (edit.kept.map f)

end TreeEdit

def Tree.edit (t : Tree H) : TreeEdit H → Tree H
  | .insert entry salt => t.insert entry salt
  | .remove name => (t.remove name).2

def Tree.edits (t : Tree H) (edits : List (TreeEdit H)) : Tree H := edits.foldl Tree.edit t

def Tree.AnyEffective (t : Tree H) : List (TreeEdit H) → Prop
  | [] => False
  | edit :: edits => edit.Effective t ∨ (t.edit edit).AnyEffective edits

abbrev rowName (row : TreeEntry H × Vector UInt8 32) : String := row.1.name

def Tree.saltOf (t : Tree H) (name : String) : Option (Vector UInt8 32) :=
  (lookupBy rowName name t.salted).map Prod.snd

section Step
variable {t : Tree ContentHash} {edit : TreeEdit ContentHash}

structure Edited (t : Tree ContentHash) (edit : TreeEdit ContentHash) (t' : Tree ContentHash) :
    Prop where
  scheme : t'.scheme = t.scheme
  positions : t'.sourcePositions = []
  entries : t'.entries =
    putBy TreeEntry.name edit.name (edit.kept.map Prod.fst) t.dropGitLayout.entries
  salts : match t.scheme with
    | .v3Flat => t'.salts = []
    | .v4Salted => t'.salts = (putBy rowName edit.name edit.kept t.salted).map Prod.snd

theorem dropGitLayout_sorted (h : t.validate = .ok ()) :
    SortedBy TreeEntry.name t.dropGitLayout.entries :=
  sortedBy_map (fun _ => rfl) (Tree.validate_entries h).2

theorem Tree.get_eq_lookupBy {t : Tree H} (h : SortedBy TreeEntry.name t.entries) (name : String) :
    t.get name = lookupBy TreeEntry.name name t.entries := by
  unfold Tree.get
  cases hsearch : binarySearchBy TreeEntry.name name t.entries with
  | ok found => exact (binarySearchBy_ok h hsearch).2.1.symm
  | error index => exact (binarySearchBy_error h hsearch).1.symm

theorem dropGitLayout_of_salted (h : t.validate = .ok ()) (hscheme : t.scheme = .v4Salted) :
    t.dropGitLayout = t := by
  have hentries := salted_dropRawGitMode h hscheme
  have hpositions := salted_positions h hscheme
  unfold Tree.dropGitLayout
  rw [hentries, ← hpositions]

theorem insertSalted_rows (t : Tree H) (hs : SortedBy rowName rows)
    (row : TreeEntry H × Vector UInt8 32) :
    ({ t with entries := rows.map Prod.fst, salts := rows.map Prod.snd } : Tree H).insertSalted
        row.1 row.2 =
      { t with
        entries := (putBy rowName row.1.name (some row) rows).map Prod.fst
        salts := (putBy rowName row.1.name (some row) rows).map Prod.snd } := by
  have hrest : (match (rows.map Prod.fst).findIdx? (·.name = row.1.name) with
      | some existing => ((rows.map Prod.fst).eraseIdx existing, (rows.map Prod.snd).eraseIdx existing)
      | none => (rows.map Prod.fst, rows.map Prod.snd)) =
      ((putBy rowName row.1.name none rows).map Prod.fst,
        (putBy rowName row.1.name none rows).map Prod.snd) := by
    rw [← eraseIdx_findIdx? hs, findIdx?_map]
    change (match rows.findIdx? (rowName · = row.1.name) with | some _ => _ | none => _) = _
    cases rows.findIdx? (rowName · = row.1.name) with
    | none => rfl
    | some existing => simp only [elim_some, eraseIdx_map]
  unfold Tree.insertSalted
  simp only [hrest, findIdx_map, ← map_insertIdx]
  have hinsert := insertIdx_putBy_none hs row.1.name row
  rw [← hinsert]
  rfl

theorem Edited.of_rows (h : t.validate = .ok ()) (hscheme : t.scheme = .v4Salted)
    (ht' : t' = { t with
      entries := (putBy rowName edit.name edit.kept t.salted).map Prod.fst
      salts := (putBy rowName edit.name edit.kept t.salted).map Prod.snd }) : Edited t edit t' := by
  have hpositions : t.sourcePositions = [] := salted_positions h hscheme
  subst ht'
  refine ⟨rfl, hpositions, ?_, by rw [hscheme]⟩
  rw [dropGitLayout_of_salted h hscheme]
  refine (putBy_map Prod.fst _ _ _).trans ?_
  rw [(salted_map_fst h hscheme).1]

theorem insert_edited (h : t.validate = .ok ()) (entry : TreeEntry ContentHash)
    (salt : Vector UInt8 32) : Edited t (.insert entry salt) (t.insert entry salt) := by
  unfold Tree.insert
  cases hscheme : t.scheme with
  | v3Flat =>
    have hkeep : t.dropGitLayout.scheme = .v3Flat := hscheme
    have hs := dropGitLayout_sorted h
    have hsalts := Tree.validate_salts h
    rw [hscheme] at hsalts
    simp only [hkeep, filter_key_ne hs, insertIdx_putBy_none hs]
    exact ⟨hscheme.symm, rfl, rfl, by rw [hscheme]; exact hsalts⟩
  | v4Salted =>
    simp only [dropGitLayout_of_salted h hscheme, hscheme]
    apply Edited.of_rows h hscheme
    have hrows := insertSalted_rows t (Tree.salted_names h hscheme) (entry.dropRawGitMode, salt)
    obtain ⟨hentries, hsalts⟩ := salted_map_fst h hscheme
    rw [hentries, hsalts] at hrows
    exact hrows

theorem Tree.get_eq_scan {t : Tree H} (h : SortedBy TreeEntry.name t.entries) (name : String) :
    t.get name = (t.entries.findIdx? (·.name = name)).bind (t.entries[·]?) := by
  unfold Tree.get
  rw [findIdx?_eq_search h]
  cases hsearch : binarySearchBy TreeEntry.name name t.entries with
  | ok found => exact (binarySearchBy_getElem? hsearch).symm
  | error index => rfl

theorem remove_absent (h : t.validate = .ok ()) (hget : t.get name = none) :
    t.remove name = (none, t) := by
  rw [Tree.get_eq_scan (Tree.validate_entries h).2] at hget
  unfold Tree.remove
  cases hfind : t.entries.findIdx? (·.name = name) with
  | none => rfl
  | some pos =>
    rw [hfind, bind_some, getElem?_eq_none_iff] at hget
    exact absurd (findIdx?_eq_some_iff_getElem.1 hfind).1 (Nat.not_lt.2 hget)

/-- Taking out an absent name leaves the tree, and its Git layout, as they are. -/
theorem remove_cases (h : t.validate = .ok ()) (name : String) :
    (t.remove name).1 = (t.get name).map TreeEntry.dropRawGitMode ∧
      (t.get name = none ∧ (t.remove name).2 = t ∨ Edited t (.remove name) (t.remove name).2) := by
  have hsorted := (Tree.validate_entries h).2
  have herase := eraseIdx_findIdx? hsorted name
  unfold Tree.remove
  rw [Tree.get_eq_scan hsorted]
  cases hfind : t.entries.findIdx? (·.name = name) with
  | none => exact ⟨rfl, .inl ⟨rfl, rfl⟩⟩
  | some pos =>
    rw [hfind] at herase
    refine ⟨getElem?_map, .inr ?_⟩
    cases hscheme : t.scheme with
    | v3Flat =>
      have hsalts := Tree.validate_salts h
      rw [hscheme] at hsalts
      have hkeep : t.dropGitLayout.scheme = .v3Flat := hscheme
      have hentries : t.dropGitLayout.entries.eraseIdx pos =
          putBy TreeEntry.name name none t.dropGitLayout.entries := by
        refine (eraseIdx_map _ _ _).trans ?_
        rw [show t.entries.eraseIdx pos = _ from herase]
        exact putBy_map_of TreeEntry.dropRawGitMode_name name none t.entries
      simp only [hkeep, reduceCtorEq, if_false]
      exact ⟨hscheme.symm, rfl, hentries, by rw [hscheme]; exact hsalts⟩
    | v4Salted =>
      obtain ⟨hentries, hsalts⟩ := salted_map_fst h hscheme
      have hrows := eraseIdx_findIdx? (Tree.salted_names h hscheme) name
      rw [← hentries, findIdx?_map] at hfind
      rw [show t.salted.findIdx? (rowName · = name) = some pos from hfind, elim_some] at hrows
      apply Edited.of_rows h hscheme
      have hnone : putBy rowName name none t.salted = t.salted.eraseIdx pos := hrows.symm
      simp only [dropGitLayout_of_salted h hscheme, hscheme, TreeEdit.name, TreeEdit.kept, hnone,
        ← eraseIdx_map, hentries, hsalts, if_true]

theorem edit_cases (h : t.validate = .ok ()) (edit : TreeEdit ContentHash) :
    t.get edit.name = none ∧ edit.kept = none ∧ t.edit edit = t ∨ Edited t edit (t.edit edit) := by
  cases edit with
  | insert entry salt => exact .inr (insert_edited h entry salt)
  | remove name => exact (remove_cases h name).2.imp (fun hkeep => ⟨hkeep.1, rfl, hkeep.2⟩) id

theorem edit_idle (h : t.validate = .ok ()) (hidle : ¬edit.Effective t) : t.edit edit = t := by
  cases edit with
  | insert entry salt => exact absurd trivial hidle
  | remove name => exact congrArg Prod.snd (remove_absent h (not_not.1 hidle))

theorem kept_key (edit : TreeEdit H) : ∀ row ∈ edit.kept, rowName row = edit.name := by
  intro row hrow
  cases edit with
  | insert entry salt =>
    cases hrow
    rfl
  | remove name => cases hrow

namespace Edited
variable (h : t.validate = .ok ()) (he : Edited t edit t')
include h he

theorem sorted : SortedBy TreeEntry.name t'.entries := by
  rw [he.entries]
  apply putBy_sorted (dropGitLayout_sorted h)
  intro e hmem
  obtain ⟨row, hrow, rfl⟩ := mem_map.1 hmem
  exact kept_key edit row hrow

omit h in
theorem gitMode (hmem : e ∈ t'.entries) : e.gitMode = none := by
  rw [he.entries] at hmem
  rcases mem_putBy.1 hmem with hkept | ⟨hold, _⟩
  · obtain ⟨row, hrow, rfl⟩ := mem_map.1 hkept
    cases edit with
    | insert entry salt =>
      cases hrow
      rfl
    | remove name => cases hrow
  · obtain ⟨old, _, rfl⟩ := mem_map.1 hold
    rfl

theorem salted (hscheme : t.scheme = .v4Salted) :
    t'.entries = (putBy rowName edit.name edit.kept t.salted).map Prod.fst ∧
      t'.salts = (putBy rowName edit.name edit.kept t.salted).map Prod.snd := by
  have hsalts := he.salts
  rw [hscheme] at hsalts
  refine ⟨?_, hsalts⟩
  rw [he.entries, dropGitLayout_of_salted h hscheme]
  refine Eq.symm ((putBy_map Prod.fst _ _ _).trans ?_)
  rw [(salted_map_fst h hscheme).1]

theorem validateEntry (hedit : edit.Valid) (hmem : e ∈ t'.entries) : e.validate = .ok () := by
  apply TreeEntry.validate_of_name (he.gitMode hmem)
  rw [he.entries] at hmem
  rcases mem_putBy.1 hmem with hkept | ⟨hold, _⟩
  · obtain ⟨row, hrow, rfl⟩ := mem_map.1 hkept
    cases edit with
    | insert entry salt =>
      cases hrow
      have hname : validateName entry.name = .ok () := TreeEntry.validate_name hedit
      exact hname
    | remove name => cases hrow
  · obtain ⟨old, hin, rfl⟩ := mem_map.1 hold
    have hname := TreeEntry.validate_name ((Tree.validate_entries h).1 old hin)
    exact hname

theorem validateScheme : t'.validateScheme = .ok () := by
  unfold Tree.validateScheme
  rw [he.scheme]
  cases hscheme : t.scheme with
  | v3Flat =>
    have hsalts := he.salts
    rw [hscheme] at hsalts
    simp only [hsalts, isEmpty_nil, if_true]
  | v4Salted =>
    obtain ⟨hentries, hsalts⟩ := he.salted h hscheme
    have hlen : t'.salts.length = t'.entries.length := by
      rw [hentries, hsalts, length_map, length_map]
    have hmodes : ¬t'.entries.any (fun e => e.gitMode.isSome) = true := by
      intro hany
      obtain ⟨e, hmem, hsome⟩ := any_eq_true.1 hany
      rw [he.gitMode hmem] at hsome
      cases hsome
    simp only [hlen, ne_eq, not_true, if_false, if_neg hmodes]

theorem validate (hedit : edit.Valid) : t'.validate = .ok () := by
  have hentries : Tree.validateEntries none t'.entries = .ok () := by
    apply (Tree.validateEntries_ok_iff _ _).2
    exact ⟨fun _ => he.validateEntry h hedit, nofun, he.sorted h⟩
  have hpositions : t'.validateSourcePositions = .ok () := by
    unfold Tree.validateSourcePositions
    rw [he.positions]
    rfl
  unfold Tree.validate
  simp only [he.validateScheme h, hentries, hpositions]

theorem get (name : String) : t'.get name = if name = edit.name then edit.kept.map Prod.fst
    else (t.get name).map TreeEntry.dropRawGitMode := by
  rw [Tree.get_eq_lookupBy (he.sorted h), he.entries, lookupBy_putBy (dropGitLayout_sorted h),
    Tree.get_eq_lookupBy (Tree.validate_entries h).2]
  · unfold Tree.dropGitLayout
    rw [lookupBy_map TreeEntry.dropRawGitMode_name]
  · intro e hmem
    obtain ⟨row, hrow, rfl⟩ := mem_map.1 hmem
    exact kept_key edit row hrow

theorem saltOf (hscheme : t.scheme = .v4Salted) :
    t'.saltOf = edit.update Prod.snd t.saltOf := by
  obtain ⟨hentries, hsalts⟩ := he.salted h hscheme
  have hrows : t'.salted = putBy rowName edit.name edit.kept t.salted :=
    (zip_of_prod hentries.symm hsalts.symm).symm
  funext name
  unfold Tree.saltOf TreeEdit.update
  rw [hrows, lookupBy_putBy (Tree.salted_names h hscheme) (kept_key edit), Function.update_apply]
  split <;> rfl

end Edited

/-- Up to the raw modes, the entries after the edits are those of a finite map after them, and so
are the salts. -/
structure Tracks (t : Tree ContentHash) (edits : List (TreeEdit ContentHash))
    (t' : Tree ContentHash) : Prop where
  validate : t'.validate = .ok ()
  scheme : t'.scheme = t.scheme
  /-- An effective edit drops every raw mode and the positions. -/
  effective : t.AnyEffective edits → t'.sourcePositions = [] ∧ ∀ e ∈ t'.entries, e.gitMode = none
  idle : ¬t.AnyEffective edits → t' = t
  entries : (fun name => (t'.get name).map TreeEntry.dropRawGitMode) =
    edits.foldl (fun m edit => edit.update Prod.fst m)
      fun name => (t.get name).map TreeEntry.dropRawGitMode
  salts : t.scheme = .v4Salted →
    t'.saltOf = edits.foldl (fun m edit => edit.update Prod.snd m) t.saltOf
  removed : ∀ name, (t'.remove name).1 = (t'.get name).map TreeEntry.dropRawGitMode
  absent : ∀ name, t'.get name = none → t'.remove name = (none, t')

theorem update_absent {m : String → Option β} (f : TreeEntry H × Vector UInt8 32 → β)
    {edit : TreeEdit H} (hkept : edit.kept = none) (hm : m edit.name = none) :
    edit.update f m = m := by
  unfold TreeEdit.update
  rw [hkept, map_none, ← hm, Function.update_eq_self]

theorem saltOf_absent (h : t.validate = .ok ()) (hscheme : t.scheme = .v4Salted)
    (hget : t.get name = none) : t.saltOf name = none := by
  rw [Tree.get_eq_lookupBy (Tree.validate_entries h).2, ← (salted_map_fst h hscheme).1, lookupBy,
    find?_map, map_eq_none_iff] at hget
  exact map_eq_none_iff.2 hget

theorem edit_tracks (h : t.validate = .ok ()) (hedit : edit.Valid) :
    Tracks t [edit] (t.edit edit) := by
  have hidle : ¬t.AnyEffective [edit] → t.edit edit = t := fun h' => edit_idle h (not_or.1 h').1
  rcases edit_cases h edit with ⟨hget, hkept, hkeep⟩ | he
  · rw [hkeep] at hidle ⊢
    refine ⟨h, rfl, ?_, hidle, ?_, ?_, fun name => (remove_cases h name).1,
      fun name => remove_absent h⟩
    · rintro (heff | hrest)
      · cases edit with
        | insert => cases hkept
        | remove name => exact absurd hget heff
      · exact hrest.elim
    · apply (update_absent Prod.fst hkept _).symm
      rw [hget]
      rfl
    · intro hscheme
      exact (update_absent Prod.snd hkept (saltOf_absent h hscheme hget)).symm
  · have hvalid := he.validate h hedit
    refine ⟨hvalid, he.scheme, fun _ => ⟨he.positions, fun _ => he.gitMode⟩, hidle, ?_, he.saltOf h,
      fun name => (remove_cases hvalid name).1, fun name => remove_absent hvalid⟩
    funext name
    have hkept : (edit.kept.map Prod.fst).map TreeEntry.dropRawGitMode = edit.kept.map Prod.fst := by
      cases edit <;> rfl
    rw [he.get h, foldl_cons, foldl_nil, TreeEdit.update, Function.update_apply]
    split
    · exact hkept
    · rw [Option.map_map]
      rfl

theorem edits_tracks (edits : List (TreeEdit ContentHash)) (t : Tree ContentHash)
    (h : t.validate = .ok ()) (hedits : ∀ edit ∈ edits, edit.Valid) :
    Tracks t edits (t.edits edits) := by
  induction edits generalizing t with
  | nil =>
    exact ⟨h, rfl, False.elim, fun _ => rfl, rfl, fun _ => rfl, fun name => (remove_cases h name).1,
      fun name => remove_absent h⟩
  | cons edit edits ih =>
    have hstep := edit_tracks h (hedits edit mem_cons_self)
    have hrun := ih (t.edit edit) hstep.validate fun e he => hedits e (mem_cons_of_mem _ he)
    refine ⟨hrun.validate, hrun.scheme.trans hstep.scheme, ?_, ?_, ?_, ?_, hrun.removed,
      hrun.absent⟩
    · intro heff
      by_cases hrest : (t.edit edit).AnyEffective edits
      · exact hrun.effective hrest
      · have hsame : t.edits (edit :: edits) = t.edit edit := hrun.idle hrest
        rw [hsame]
        exact hstep.effective (heff.imp_right fun h => absurd h hrest)
    · intro hnone
      obtain ⟨hfirst, hrest⟩ := not_or.1 hnone
      exact (hrun.idle hrest).trans (edit_idle h hfirst)
    · refine hrun.entries.trans ?_
      rw [hstep.entries]
      rfl
    · intro hscheme
      refine (hrun.salts (hstep.scheme.trans hscheme)).trans ?_
      rw [hstep.salts hscheme]
      rfl

def plainB : TreeEntry ContentHash where
  name := "b"
  target := .blob PartialTree.zeroHash false

def saltedB : Tree ContentHash where
  entries := [plainB]
  scheme := .v4Salted
  salts := [Vector.replicate 32 1]

/-- A name put over, one added and one taken out that is not there. -/
theorem edits_tracks_saltedB :
    let edits := [.insert plainB (Vector.replicate 32 2), .remove "z",
      .insert groupWritable (Vector.replicate 32 3)]
    Tracks saltedB edits (saltedB.edits edits) :=
  edits_tracks _ saltedB (by decide +kernel) (by decide +kernel)

/-- An edit next to an entry drops its raw mode, so it is not the entry a map would have kept. -/
theorem insert_drops_raw_mode : gitLayoutTree.validate = .ok () ∧
    (gitLayoutTree.edits [.insert plainB (Vector.replicate 32 0)]).get "a" ≠
      [TreeEdit.insert plainB (Vector.replicate 32 0)].foldl
        (fun m edit => edit.update Prod.fst m) gitLayoutTree.get "a" := by
  refine ⟨by decide +kernel, ?_⟩
  decide +kernel

end Step
end Heddle
