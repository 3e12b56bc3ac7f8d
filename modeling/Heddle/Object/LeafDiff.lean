import Heddle.Object.TreeDiffWalk
import Mathlib.Data.List.Basic

namespace Heddle
open Heddle.Lib List Option

section PathText

def PathName (name : String) : Prop := name ≠ "" ∧ '/' ∉ name.toList

theorem childPath_toList (h : pathPrefix ≠ "") (name : String) :
    (childPath pathPrefix name).toList = pathPrefix.toList ++ '/' :: name.toList := by
  rw [childPath, if_neg (by simpa using h), String.toList_append, String.toList_append,
    append_assoc]
  rfl

theorem childPath_ne_empty (h : name ≠ "") (pathPrefix : String) :
    childPath pathPrefix name ≠ "" := by
  unfold childPath
  split
  · exact h
  · intro heq
    have hlen := congrArg (fun s => s.toList.length) heq
    simp only [String.toList_append, length_append] at hlen
    exact absurd hlen (by simp)

theorem pathText_toList ( hprefix : pathPrefix ≠ "") (hnames : ∀ n ∈ names, n ≠ "") :
    (pathText pathPrefix names).toList = ['/'].intercalate (pathPrefix.toList :: names.map String.toList) := by
  induction names generalizing pathPrefix with
  | nil => exact (intercalate_singleton).symm
  | cons name names ih =>
    obtain ⟨hname, hnames⟩ := forall_mem_cons.1 hnames
    change (pathText (childPath pathPrefix name) names).toList = _
    rw [ih (childPath_ne_empty hname pathPrefix) hnames, childPath_toList hprefix, map_cons,
      intercalate_cons_cons]
    cases names with
    | nil => rw [map_nil, intercalate_singleton, intercalate_singleton, append_assoc]; rfl
    | cons next names =>
      rw [map_cons, intercalate_cons_cons, intercalate_cons_cons]
      simp only [append_assoc, cons_append, nil_append]

theorem splitOn_pathText (hnames : ∀ n ∈ name :: names, PathName n) :
    (pathText "" (name :: names)).toList.splitOn '/' = (name :: names).map String.toList := by
  obtain ⟨hname, hrest⟩ := forall_mem_cons.1 hnames
  have htext : (pathText name names).toList =
      ['/'].intercalate ((name :: names).map String.toList) :=
    pathText_toList hname.1 fun n hn => (hrest n hn).1
  change (pathText name names).toList.splitOn '/' = _
  rw [htext]
  apply splitOn_intercalate
  · intro l hl
    obtain ⟨n, hn, rfl⟩ := mem_map.1 hl
    exact (hnames n hn).2
  · exact cons_ne_nil _ _

theorem pathText_ne_empty (hname : name ≠ "") (hnames : ∀ n ∈ names, n ≠ "") :
    pathText "" (name :: names) ≠ "" := by
  intro h
  have htext : (pathText name names).toList =
      ['/'].intercalate (name.toList :: names.map String.toList) := pathText_toList hname hnames
  have hempty : (pathText name names).toList = [] := by
    rw [show pathText name names = "" from h]
    rfl
  rw [hempty] at htext
  cases names with
  | nil =>
    rw [map_nil, intercalate_singleton] at htext
    exact hname (String.toList_inj.1 htext.symm)
  | cons next names =>
    rw [map_cons, intercalate_cons_cons] at htext
    exact absurd (congrArg List.length htext) (by simp)

theorem pathText_inj (hp : ∀ n ∈ p, PathName n) (hq : ∀ n ∈ q, PathName n)
    (h : pathText "" p = pathText "" q) : p = q := by
  cases p with
  | nil =>
    cases q with
    | nil => rfl
    | cons name names =>
      obtain ⟨hname, hnames⟩ := forall_mem_cons.1 hq
      exact absurd h.symm (pathText_ne_empty hname.1 fun n hn => (hnames n hn).1)
  | cons name names =>
    cases q with
    | nil =>
      obtain ⟨hname, hnames⟩ := forall_mem_cons.1 hp
      exact absurd h (pathText_ne_empty hname.1 fun n hn => (hnames n hn).1)
    | cons name' names' =>
      have hsplit := congrArg (fun s => s.toList.splitOn '/') h
      simp only [splitOn_pathText hp, splitOn_pathText hq] at hsplit
      exact map_injective_iff.2 (fun _ _ h => String.toList_inj.1 h) hsplit

end PathText

section Reports
variable {getTree : H → Option (Tree H)}

def PresentTarget (getTree : H → Option (Tree H)) (target : Option (TreeEntryTarget H)) : Prop :=
  ∀ hash, target.bind subtreeOf = some hash → Present getTree hash

theorem PresentTarget.cases (h : PresentTarget getTree target) :
    (∃ leaf, target = some leaf ∧ subtreeOf leaf = none) ∨
      ∃ entries, entriesBelow getTree target = some entries ∧
        (∀ e ∈ entries, e.validate = .ok ()) ∧
        ∀ name, PresentTarget getTree (targetOf entries name) := by
  cases target with
  | none => exact .inr ⟨[], rfl, fun e he => absurd he not_mem_nil, fun name hash h => by cases h⟩
  | some target =>
    cases target with
    | tree hash =>
      cases h hash rfl with
      | @intro tree _ hget hvalid hsub =>
        refine .inr ⟨tree.entries, ?_, (Tree.validate_entries hvalid).1, fun name sub hs => ?_⟩
        · rw [entriesBelow, hget]
          rfl
        · obtain ⟨target, htarget, hs⟩ := bind_eq_some_iff.1 hs
          obtain ⟨e, he, _, rfl⟩ := exists_of_targetOf htarget
          exact hsub e he sub ((treeHash_eq e).trans hs)
    | blob hash executable => exact .inl ⟨_, rfl, rfl⟩
    | symlink hash => exact .inl ⟨_, rfl, rfl⟩
    | gitlink target => exact .inl ⟨_, rfl, rfl⟩
    | spoollink spoolId stateId => exact .inl ⟨_, rfl, rfl⟩

section
variable (h : entriesBelow getTree target = some entries) (name : String) (names : List String)
include h

theorem leafAt_cons :
    leafAt getTree target (name :: names) = leafAt getTree (targetOf entries name) names := by
  rw [leafAt, entryAt, h]
  rfl

theorem entryAt_cons :
    entryAt getTree target (name :: names) = entryAt getTree (targetOf entries name) names := by
  rw [entryAt, h]
  rfl

end

theorem leafAt_below_leaf (h : subtreeOf leaf = none) (name : String) (names : List String) :
    leafAt getTree (some leaf) (name :: names) = none := by
  rw [leafAt, entryAt, entriesBelow_leaf h]
  rfl

theorem entryAt_none (names : List String) : entryAt getTree none names = none := by
  induction names with
  | nil => rfl
  | cons name names ih => exact ih

theorem leafAt_none (names : List String) : leafAt getTree none names = none := by
  rw [leafAt, entryAt_none]
  rfl

section
variable (hf : entriesBelow getTree f = some fs) (ht : entriesBelow getTree t = some ts)
include hf ht

theorem leafChange_cons : LeafChange getTree f t (name :: names) kind ↔
      LeafChange getTree (targetOf fs name) (targetOf ts name) names kind := by
  cases kind <;> simp only [LeafChange, leafAt_cons hf, leafAt_cons ht]

theorem kindChange_cons : KindChange getTree f t (name :: names) ↔
      KindChange getTree (targetOf fs name) (targetOf ts name) names := by
  simp only [KindChange, entryAt_cons hf, entryAt_cons ht]

theorem entryChange_cons : EntryChange getTree f t (name :: names) kind ↔
      EntryChange getTree (targetOf fs name) (targetOf ts name) names kind := by
  constructor
  · rintro ⟨fs', ts', hf', ht', h⟩
    rw [hf, some.injEq] at hf'
    rw [ht, some.injEq] at ht'
    subst hf' ht'
    exact h
  · exact fun h => ⟨fs, ts, hf, ht, h⟩

end

theorem leafAt_nil_of_leaf (h : subtreeOf target = none) :
    leafAt getTree (some target) [] = some target := by
  rw [leafAt, entryAt, filter_some, h, isNone_none, if_pos rfl]

theorem leafAt_nil_of_tree (h : (subtreeOf target).isSome) :
    leafAt getTree (some target) [] = none := by
  obtain ⟨hash, hhash⟩ := isSome_iff_exists.1 h
  rw [leafAt, entryAt, filter_some, hhash, isNone_some, if_neg Bool.false_ne_true]

theorem entryChange_nil_iff (h : ¬ KindChange getTree f t []) :
    EntryChange getTree f t [] kind ↔ LeafChange getTree f t [] kind := by
  have hkind : ∀ x y, f = some x → t = some y → (subtreeOf x).isSome = (subtreeOf y).isSome := by
    intro x y hx hy
    by_contra hne
    exact h ⟨x, y, hx, hy, hne⟩
  cases f with
  | none =>
    cases t with
    | none => cases kind <;> simp [EntryChange, LeafChange, leafAt_none]
    | some y =>
      cases hy : subtreeOf y with
      | none => cases kind <;> simp [EntryChange, LeafChange, leafAt_none, leafAt_nil_of_leaf hy,
          reportKind, hy]
      | some hash => cases kind <;> simp [EntryChange, LeafChange, leafAt_none, reportKind, hy,
          leafAt_nil_of_tree (isSome_iff_exists.2 ⟨hash, hy⟩)]
  | some x =>
    cases t with
    | none =>
      cases hx : subtreeOf x with
      | none => cases kind <;> simp [EntryChange, LeafChange, leafAt_none, leafAt_nil_of_leaf hx,
          reportKind, hx]
      | some hash => cases kind <;> simp [EntryChange, LeafChange, leafAt_none, reportKind, hx,
          leafAt_nil_of_tree (isSome_iff_exists.2 ⟨hash, hx⟩)]
    | some y =>
      have hxy := hkind x y rfl rfl
      cases hx : subtreeOf x with
      | none =>
        have hy : subtreeOf y = none := by simpa [hx] using hxy.symm
        cases kind <;> simp [EntryChange, LeafChange, leafAt_nil_of_leaf hx, leafAt_nil_of_leaf hy,
          reportKind, hx]
      | some hash =>
        have hy : (subtreeOf y).isSome := by simpa [hx] using hxy.symm
        cases kind <;> simp [EntryChange, LeafChange, reportKind, hx, hy, leafAt_nil_of_tree hy,
          leafAt_nil_of_tree (isSome_iff_exists.2 ⟨hash, hx⟩)]

theorem entryChange_iff_leafChange (hf : PresentTarget getTree f) (ht : PresentTarget getTree t)
    (h : ∀ names, ¬ KindChange getTree f t names) :
    EntryChange getTree f t names kind ↔ LeafChange getTree f t names kind := by
  induction names generalizing f t with
  | nil => exact entryChange_nil_iff (h [])
  | cons name names ih =>
    rcases hf.cases with ⟨x, rfl, hx⟩ | ⟨fs, hfs, _, hf'⟩
    · have hleft : ¬ EntryChange getTree (some x) t (name :: names) kind := by
        rintro ⟨fs, ts, hfs, _, _⟩
        rw [entriesBelow_leaf hx] at hfs
        cases hfs
      have hright : leafAt getTree t (name :: names) = none := by
        rcases ht.cases with ⟨y, rfl, hy⟩ | ⟨ts, hts, _, _⟩
        · exact leafAt_below_leaf hy name names
        · cases t with
          | none => exact leafAt_none _
          | some y =>
            have hy : (subtreeOf y).isSome := by
              by_contra hnone
              rw [entriesBelow_leaf (by simpa using hnone)] at hts
              cases hts
            exact absurd ⟨x, y, rfl, rfl, by rw [hx, hy]; exact Bool.false_ne_true⟩ (h [])
      constructor
      · exact fun hl => absurd hl hleft
      · intro hl
        cases kind <;> simp [LeafChange, leafAt_below_leaf hx, hright] at hl
    · rcases ht.cases with ⟨y, rfl, hy⟩ | ⟨ts, hts, _, ht'⟩
      · have hright : ¬ EntryChange getTree f (some y) (name :: names) kind := by
          rintro ⟨fs, ts, _, hts, _⟩
          rw [entriesBelow_leaf hy] at hts
          cases hts
        have hleft : leafAt getTree f (name :: names) = none := by
          cases f with
          | none => exact leafAt_none _
          | some x =>
            have hx : (subtreeOf x).isSome := by
              by_contra hnone
              rw [entriesBelow_leaf (by simpa using hnone)] at hfs
              cases hfs
            exact absurd ⟨x, y, rfl, rfl, by rw [hx, hy]; exact Bool.false_ne_true.symm⟩ (h [])
        constructor
        · exact fun hl => absurd hl hright
        · intro hl
          cases kind <;> simp [LeafChange, leafAt_below_leaf hy, hleft] at hl
      · rw [entryChange_cons hfs hts, leafChange_cons hfs hts]
        exact ih (hf' name) (ht' name) fun names hk => h (name :: names) ((kindChange_cons hfs hts).2 hk)

theorem EntryChange.modified (h : EntryChange getTree f t names kind)
    (hf : entryAt getTree f names = some x) (ht : entryAt getTree t names = some y) :
    kind = .modified := by
  induction names generalizing f t with
  | nil =>
    cases hf
    cases ht
    obtain ⟨_, h⟩ := h
    rw [reportKind] at h
    split at h
    · cases h
    · exact (some.inj h).symm
  | cons name names ih =>
    obtain ⟨fs, ts, hfs, hts, h⟩ := h
    rw [entryAt_cons hfs] at hf
    rw [entryAt_cons hts] at ht
    exact ih h hf ht

theorem leafAt_of_entryAt (h : entryAt getTree target names = some x) :
    leafAt getTree target names = if (subtreeOf x).isNone then some x else none := by
  rw [leafAt, h, filter_some]

theorem KindChange.leafChange (h : KindChange getTree f t names) :
    ∃ kind, kind ≠ .modified ∧ LeafChange getTree f t names kind := by
  obtain ⟨x, y, hx, hy, hne⟩ := h
  have hfx := leafAt_of_entryAt hx
  have hty := leafAt_of_entryAt hy
  cases hxt : subtreeOf x with
  | none =>
    cases hyt : subtreeOf y with
    | none => rw [hxt, hyt] at hne; exact absurd rfl hne
    | some hash =>
      rw [hxt, isNone_none, if_pos rfl] at hfx
      rw [hyt, isNone_some, if_neg Bool.false_ne_true] at hty
      exact ⟨.deleted, DiffKind.noConfusion, by rw [hfx]; rfl, hty⟩
  | some hash =>
    cases hyt : subtreeOf y with
    | none =>
      rw [hxt, isNone_some, if_neg Bool.false_ne_true] at hfx
      rw [hyt, isNone_none, if_pos rfl] at hty
      exact ⟨.added, DiffKind.noConfusion, hfx, by rw [hty]; rfl⟩
    | some hash' => rw [hxt, hyt] at hne; exact absurd rfl hne

theorem kindChange_nil_of_leaf (hleaf : subtreeOf leaf = none) (htree : (subtreeOf tree).isSome) :
    KindChange getTree (some leaf) (some tree) [] ∧
      KindChange getTree (some tree) (some leaf) [] := by
  have hne : (subtreeOf leaf).isSome ≠ (subtreeOf tree).isSome := by
    rw [hleaf, htree]
    exact Bool.false_ne_true
  exact ⟨⟨leaf, tree, rfl, rfl, hne⟩, ⟨tree, leaf, rfl, rfl, hne.symm⟩⟩

theorem not_kindChange_nil_of_below (hf : entriesBelow getTree f = some fs)
    (ht : entriesBelow getTree t = some ts) : ¬ KindChange getTree f t [] := by
  rintro ⟨x, y, hx, hy, hne⟩
  obtain rfl : f = some x := hx
  obtain rfl : t = some y := hy
  have hdirectory : ∀ {z : TreeEntryTarget H} {zs}, entriesBelow getTree (some z) = some zs →
      (subtreeOf z).isSome := by
    intro z zs hz
    by_contra hnone
    rw [entriesBelow_leaf (by simpa using hnone)] at hz
    cases hz
  exact hne ((hdirectory hf).trans (hdirectory ht).symm)

theorem leafAt_cons_isSome (h : (leafAt getTree target (name :: names)).isSome) :
    ∃ tree, target = some tree ∧ (subtreeOf tree).isSome := by
  cases target with
  | none =>
    rw [leafAt_none] at h
    cases h
  | some tree =>
    refine ⟨tree, rfl, ?_⟩
    by_contra hnone
    rw [leafAt_below_leaf (by simpa using hnone)] at h
    cases h

theorem exists_entryChange_iff (hf : PresentTarget getTree f) (ht : PresentTarget getTree t) :
    (∃ kind, EntryChange getTree f t names kind) ↔ (∃ kind, LeafChange getTree f t names kind) ∧
      ∀ above below, names = above ++ below → below ≠ [] → ¬ KindChange getTree f t above := by
  induction names generalizing f t with
  | nil =>
    have hvacuous : ∀ above below : List String, [] = above ++ below → below ≠ [] →
        ¬ KindChange getTree f t above :=
      fun above below heq hne => absurd (append_eq_nil_iff.1 heq.symm).2 hne
    refine Iff.trans ?_ (and_iff_left hvacuous).symm
    by_cases hkind : KindChange getTree f t []
    · obtain ⟨kind, _, hleaf⟩ := hkind.leafChange
      obtain ⟨x, y, hx, hy, hne⟩ := hkind
      obtain rfl : f = some x := hx
      obtain rfl : t = some y := hy
      refine ⟨fun _ => ⟨kind, hleaf⟩, fun _ => ⟨.modified, ?_, ?_⟩⟩
      · rintro heq
        exact hne (by rw [some.inj heq])
      · rw [reportKind]
        split
        · rename_i hboth
          exact absurd (hboth.1.trans hboth.2.symm) hne
        · rfl
    · exact exists_congr fun kind => entryChange_nil_iff hkind
  | cons name names ih =>
    have hroot : ∀ {f t : Option (TreeEntryTarget H)}, KindChange getTree f t [] →
        ¬ ∀ above below, name :: names = above ++ below → below ≠ [] → ¬ KindChange getTree f t above :=
      fun hkind h => h [] (name :: names) rfl (cons_ne_nil _ _) hkind
    rcases hf.cases with ⟨x, rfl, hx⟩ | ⟨fs, hfs, _, hf'⟩
    · constructor
      · rintro ⟨kind, fs, ts, hfs, _⟩
        rw [entriesBelow_leaf hx] at hfs
        cases hfs
      · rintro ⟨⟨kind, hleaf⟩, habove⟩
        have hsome : (leafAt getTree t (name :: names)).isSome := by
          have hnone : leafAt getTree _ (name :: names) = none := leafAt_below_leaf hx name names
          cases kind with
          | added => exact hleaf.2
          | deleted => rw [LeafChange, hnone] at hleaf; cases hleaf.1
          | modified =>
            obtain ⟨_, _, h, _⟩ := hleaf
            rw [hnone] at h
            cases h
          | unchanged => exact hleaf.elim
        obtain ⟨tree, rfl, htree⟩ := leafAt_cons_isSome hsome
        exact absurd habove (hroot (kindChange_nil_of_leaf hx htree).1)
    · rcases ht.cases with ⟨y, rfl, hy⟩ | ⟨ts, hts, _, ht'⟩
      · constructor
        · rintro ⟨kind, fs, ts, _, hts, _⟩
          rw [entriesBelow_leaf hy] at hts
          cases hts
        · rintro ⟨⟨kind, hleaf⟩, habove⟩
          have hsome : (leafAt getTree f (name :: names)).isSome := by
            have hnone : leafAt getTree _ (name :: names) = none := leafAt_below_leaf hy name names
            cases kind with
            | added => rw [LeafChange, hnone] at hleaf; cases hleaf.2
            | deleted => exact hleaf.1
            | modified =>
              obtain ⟨_, _, _, h, _⟩ := hleaf
              rw [hnone] at h
              cases h
            | unchanged => exact hleaf.elim
          obtain ⟨tree, rfl, htree⟩ := leafAt_cons_isSome hsome
          exact absurd habove (hroot (kindChange_nil_of_leaf hy htree).2)
      · simp only [entryChange_cons hfs hts, leafChange_cons hfs hts]
        rw [ih (hf' name) (ht' name)]
        refine and_congr_right fun _ => ⟨fun h above below heq hne => ?_, fun h above below heq hne => ?_⟩
        · cases above with
          | nil => exact not_kindChange_nil_of_below hfs hts
          | cons head above =>
            obtain ⟨rfl, hrest⟩ := List.cons.inj heq
            rw [kindChange_cons hfs hts]
            exact h above below hrest hne
        · rw [← kindChange_cons hfs hts]
          exact h (name :: above) below (congrArg (name :: ·) heq) hne

theorem entryAt_names (h : entryAt getTree target names = some x)
    (htarget : PresentTarget getTree target) : ∀ name ∈ names, PathName name := by
  induction names generalizing target with
  | nil => exact fun name hn => absurd hn not_mem_nil
  | cons name names ih =>
    rcases htarget.cases with ⟨leaf, rfl, hleaf⟩ | ⟨entries, hentries, hvalid, hbelow⟩
    · rw [entryAt, entriesBelow_leaf hleaf] at h
      cases h
    · rw [entryAt_cons hentries] at h
      apply forall_mem_cons.2 ⟨_, ih h (hbelow name)⟩
      have hne : targetOf entries name ≠ none := by
        intro hnone
        rw [hnone, entryAt_none] at h
        cases h
      obtain ⟨found, hfound⟩ := ne_none_iff_exists'.1 hne
      obtain ⟨e, he, rfl, _⟩ := exists_of_targetOf hfound
      exact ⟨TreeEntry.name_ne_empty (hvalid e he),
        validateName_no_slash (TreeEntry.validate_name (hvalid e he))⟩

theorem EntryChange.entry (h : EntryChange getTree f t names kind) :
    (∃ x, entryAt getTree f names = some x) ∨ ∃ y, entryAt getTree t names = some y := by
  induction names generalizing f t with
  | nil =>
    cases f with
    | some x => exact .inl ⟨x, rfl⟩
    | none =>
      cases t with
      | some y => exact .inr ⟨y, rfl⟩
      | none => exact absurd rfl h.1
  | cons name names ih =>
    obtain ⟨fs, ts, hfs, hts, h⟩ := h
    rw [entryAt_cons hfs, entryAt_cons hts]
    exact ih h

theorem EntryChange.pathNames (h : EntryChange getTree f t names kind) (hf : PresentTarget getTree f)
    (ht : PresentTarget getTree t) : ∀ name ∈ names, PathName name := by
  rcases h.entry with ⟨x, hx⟩ | ⟨y, hy⟩
  · exact entryAt_names hx hf
  · exact entryAt_names hy ht

end Reports

section Visit

def recordChange (seen : List FileChange) (change : FileChange) : List FileChange × Option B :=
  (seen ++ [change], none)

theorem feed_record (seen changes : List FileChange) :
    feed (recordChange (B := B)) seen changes = (seen ++ changes, none) := by
  induction changes generalizing seen with
  | nil => rw [feed, append_nil]
  | cons change changes ih =>
    rw [feed, recordChange]
    exact (ih (seen ++ [change])).trans (by rw [append_assoc]; rfl)

variable {getTree : H → Option (Tree H)} {fromHash : Option H} {toHash : H}

theorem presentTarget_tree (h : ∀ hash ∈ fromHash, Present getTree hash) :
    PresentTarget getTree (fromHash.map .tree) := by
  intro hash hh
  cases fromHash with
  | none => cases hh
  | some found =>
    obtain rfl := some.inj hh
    exact h found rfl

theorem exists_depth (hfrom : ∀ hash ∈ fromHash, Present getTree hash)
    (hto : Present getTree toHash) : ∃ depth,
      (∀ sub, (fromHash.map TreeEntryTarget.tree).bind subtreeOf = some sub →
        PresentTo getTree depth sub) ∧ PresentTo getTree depth toHash := by
  obtain ⟨n, hn⟩ := hto.depth
  have hm : ∃ m, ∀ sub, (fromHash.map TreeEntryTarget.tree).bind subtreeOf = some sub →
      PresentTo getTree m sub := by
    cases fromHash with
    | none => exact ⟨0, fun sub h => by cases h⟩
    | some hash =>
      obtain ⟨m, hm⟩ := (hfrom hash rfl).depth
      refine ⟨m, fun sub h => ?_⟩
      obtain rfl := some.inj h
      exact hm
  obtain ⟨m, hm⟩ := hm
  exact ⟨max m n, fun sub h => (hm sub h).mono (Nat.le_max_left m n),
    hn.mono (Nat.le_max_right m n)⟩

variable [DecidableEq H]

structure Visited (getTree : H → Option (Tree H)) (fromHash : Option H) (toHash : H)
    (paths : List (List String × DiffKind)) : Prop where
  sorted : paths.Pairwise fun a b => a.1 < b.1
  mem : ∀ names kind, (names, kind) ∈ paths ↔
    EntryChange getTree (fromHash.map .tree) (some (.tree toHash)) names kind
  returns : ∀ (V B : Type) (visitor : V → FileChange → V × Option B) (start : V),
    Returns (fun fuel => diffTreesVisit getTree visitor fuel fromHash toHash start)
      (.ok (feed visitor start (paths.map pathChange)))

theorem diffTreesVisit_visited (hfrom : ∀ hash ∈ fromHash, Present getTree hash)
    (hto : Present getTree toHash) : ∃ paths, Visited getTree fromHash toHash paths := by
  obtain ⟨depth, hf, hdepth⟩ := exists_depth hfrom hto
  have ht : ∀ sub, (some (TreeEntryTarget.tree toHash)).bind subtreeOf = some sub →
      PresentTo getTree depth sub := by
    intro sub hs
    obtain rfl := some.inj hs
    exact hdepth
  have hfdir : ∀ x, fromHash.map TreeEntryTarget.tree = some x → (subtreeOf x).isSome := by
    intro x hx
    obtain ⟨hash, _, rfl⟩ := map_eq_some_iff.1 hx
    rfl
  have htdir : ∀ x, some (TreeEntryTarget.tree toHash) = some x → (subtreeOf x).isSome := by
    intro x hx
    cases hx
    rfl
  have hbind : (fromHash.map TreeEntryTarget.tree).bind subtreeOf = fromHash := by
    cases fromHash <;> rfl
  obtain ⟨fs, hreadf, hfs, hsidef⟩ := Side.below (fun sub hs => (hf sub hs).succ) hfdir
  obtain ⟨ts, hreadt, hts, hsidet⟩ := Side.below (fun sub hs => (ht sub hs).succ) htdir
  obtain ⟨paths, hdesc, hwalk⟩ := frame_walked getTree depth fs ts hsidef hsidet
  have hmem : ∀ names kind, (names, kind) ∈ paths ↔
      EntryChange getTree (fromHash.map .tree) (some (.tree toHash)) names kind := by
    intro names kind
    rw [hdesc.mem]
    cases names with
    | nil =>
      constructor
      · rintro ⟨name, below, heq, _⟩
        cases heq
      · rintro ⟨_, h⟩
        cases fromHash <;> cases h
    | cons name names =>
      rw [entryChange_cons hfs hts]
      constructor
      · rintro ⟨name', below, heq, h⟩
        cases heq
        exact h
      · exact fun h => ⟨name, names, rfl, h⟩
  refine ⟨paths, hdesc.sorted, hmem, fun V B visitor start => ?_⟩
  rw [hbind] at hreadf
  have hreadt' : requireEntries getTree (some toHash) = .ok ts := hreadt
  unfold diffTreesVisit
  simp only [hreadf, hreadt']
  by_cases hsame : fromHash = some toHash
  · have hnil : paths = [] := by
      apply eq_nil_iff_forall_not_mem.2
      rintro ⟨names, kind⟩ h
      rw [hmem, hsame] at h
      exact entryChange_self _ h
    simp only [if_pos hsame, hnil]
    exact returns_some _
  · simp only [if_neg hsame]
    have hall := hwalk "" [] [] .nil
    rw [append_nil] at hall
    exact hall.returns visitor start

theorem Visited.leafDiff_iff (h : Visited getTree fromHash toHash paths)
    (hfrom : ∀ hash ∈ fromHash, Present getTree hash) (hto : Present getTree toHash) :
    IsLeafDiff getTree (fromHash.map .tree) (some (.tree toHash)) (paths.map pathChange) ↔
      ∀ names, ¬ KindChange getTree (fromHash.map .tree) (some (.tree toHash)) names := by
  have hf := presentTarget_tree hfrom
  have ht : PresentTarget getTree (some (.tree toHash)) := by
    intro hash hh
    obtain rfl := some.inj hh
    exact hto
  constructor
  · rintro ⟨others, heq, _, hmem⟩ names hkind
    obtain ⟨kind, hne, hleaf⟩ := hkind.leafChange
    obtain ⟨x, y, hx, hy, _⟩ := hkind
    have hin := mem_map_of_mem (f := pathChange) ((hmem names kind).2 hleaf)
    rw [← heq] at hin
    obtain ⟨⟨names', kind'⟩, hin', htext⟩ := mem_map.1 hin
    have hentry := (h.mem names' kind').1 hin'
    obtain ⟨hpath, rfl⟩ := FileChange.mk.inj htext
    obtain rfl := pathText_inj (hentry.pathNames hf ht) (entryAt_names hx hf) hpath
    exact hne (hentry.modified hx hy)
  · intro hkind
    exact ⟨paths, rfl, h.sorted, fun names kind =>
      (h.mem names kind).trans (entryChange_iff_leafChange hf ht hkind)⟩

/-- Both walks show their visitors one sequence, up to the change at which a visitor breaks. It is
the difference of the leaf maps exactly when no path is a leaf on one side and a directory on the
other. -/
theorem diffTreesVisit_leafDiff_iff (hfrom : ∀ hash ∈ fromHash, Present getTree hash)
    (hto : Present getTree toHash) : ∃ changes : List FileChange,
      (∀ (V B : Type) (visitor : V → FileChange → V × Option B) (start : V),
        Returns (fun fuel => diffTreesVisit getTree visitor fuel fromHash toHash start)
          (.ok (feed visitor start changes)) ∧
        Returns (fun fuel => diffTreesVisitAsync getTree visitor fuel fromHash toHash start)
          (.ok (feed visitor start changes))) ∧
      (IsLeafDiff getTree (fromHash.map .tree) (some (.tree toHash)) changes ↔
        ∀ names, ¬ KindChange getTree (fromHash.map .tree) (some (.tree toHash)) names) := by
  obtain ⟨paths, hvisited⟩ := diffTreesVisit_visited hfrom hto
  refine ⟨paths.map pathChange, fun V B visitor start => ?_, hvisited.leafDiff_iff hfrom hto⟩
  have hreturns := hvisited.returns V B visitor start
  exact ⟨hreturns, hreturns⟩

def oneEntry (name : String) (target : TreeEntryTarget Nat) : Tree Nat :=
  { entries := [{ name := name, target := target }] }

def smallTrees : Nat → Option (Tree Nat)
  | 1 => some (oneEntry "a" (.blob 10 false))
  | 2 => some (oneEntry "a" (.blob 11 false))
  | 3 => some (oneEntry "a" (.tree 4))
  | 4 => some (oneEntry "x" (.blob 12 false))
  | _ => none

theorem smallTrees_present (h : root = 1 ∨ root = 2 ∨ root = 3) :
    Present smallTrees root := by
  have hone : ∀ {name : String} {target : TreeEntryTarget Nat} {root : Nat},
      smallTrees root = some (oneEntry name target) → (oneEntry name target).validate = .ok () →
      (∀ sub, subtreeOf target = some sub → Present smallTrees sub) → Present smallTrees root := by
    intro name target root hget hvalid hsub
    refine .intro hget hvalid fun e he sub hs => hsub sub ?_
    rw [mem_singleton.1 he, treeHash_eq] at hs
    exact hs
  have hfour : Present smallTrees 4 := hone rfl (by decide) fun sub h => by cases h
  rcases h with rfl | rfl | rfl
  · exact hone rfl (by decide) fun sub h => by cases h
  · exact hone rfl (by decide) fun sub h => by cases h
  · refine hone rfl (by decide) fun sub h => ?_
    obtain rfl := some.inj h
    exact hfour

theorem diffTreesVisit_leafDiff_iff_edit : ∃ changes : List FileChange,
    (∀ (V B : Type) (visitor : V → FileChange → V × Option B) (start : V),
      Returns (fun fuel => diffTreesVisit smallTrees visitor fuel (some 1) 2 start)
        (.ok (feed visitor start changes)) ∧
      Returns (fun fuel => diffTreesVisitAsync smallTrees visitor fuel (some 1) 2 start)
        (.ok (feed visitor start changes))) ∧
    (IsLeafDiff smallTrees (some (.tree 1)) (some (.tree 2)) changes ↔
      ∀ names, ¬ KindChange smallTrees (some (.tree 1)) (some (.tree 2)) names) := by
  apply diffTreesVisit_leafDiff_iff
  · intro hash hh
    obtain rfl := some.inj hh
    exact smallTrees_present (by omega)
  · exact smallTrees_present (by omega)

/-- The walk over the file `a` and the directory `a` does not show the difference of their leaves:
it reports a modification of `a` and nothing of `a/x`. -/
theorem diffTreesVisit_misses : ¬ ∃ changes : List FileChange,
    (∀ (V B : Type) (visitor : V → FileChange → V × Option B) (start : V),
      Returns (fun fuel => diffTreesVisit smallTrees visitor fuel (some 1) 3 start)
        (.ok (feed visitor start changes))) ∧
    IsLeafDiff smallTrees (some (.tree 1)) (some (.tree 3)) changes := by
  rintro ⟨changes, hreturns, hdiff⟩
  have hfrom : ∀ hash ∈ some 1, Present smallTrees hash := by
    intro hash hh
    obtain rfl := some.inj hh
    exact smallTrees_present (by omega)
  have hto : Present smallTrees 3 := smallTrees_present (by omega)
  obtain ⟨paths, hvisited⟩ := diffTreesVisit_visited hfrom hto
  have hrecord := (hreturns _ Unit recordChange []).unique (hvisited.returns _ Unit recordChange [])
  rw [Except.ok.injEq, feed_record, feed_record, Prod.mk.injEq, nil_append,
    nil_append] at hrecord
  rw [hrecord.1] at hdiff
  have hkind : KindChange smallTrees (some (.tree 1)) (some (.tree 3)) ["a"] :=
    ⟨.blob 10 false, .tree 4, rfl, rfl, Bool.false_ne_true⟩
  exact (hvisited.leafDiff_iff hfrom hto).1 hdiff ["a"] hkind

end Visit

end Heddle
