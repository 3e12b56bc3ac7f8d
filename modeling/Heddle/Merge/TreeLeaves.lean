import Heddle.Merge.Flat

namespace Heddle.Merge
open Heddle.Lib List

section Paths

theorem joinPath_ne_empty (h : name ≠ "") (parent : String) : joinPath parent name ≠ "" := by
  unfold joinPath
  split
  · exact h
  · intro heq
    have hlen := congrArg (fun s => s.toList.length) heq
    rw [join_toList, length_append, length_cons] at hlen
    exact absurd hlen (by simp)

theorem joinPath_of_ne_empty (h : parent ≠ "") (name : String) :
    joinPath parent name = parent ++ "/" ++ name := by
  rw [joinPath, if_neg (by simpa using h)]

theorem joinPath_join (h : name ≠ "") (parent rest : String) :
    joinPath (joinPath parent name) rest = joinPath parent (name ++ "/" ++ rest) := by
  rw [joinPath_of_ne_empty (joinPath_ne_empty h parent)]
  unfold joinPath
  split
  · rfl
  · simp only [String.append_assoc]

theorem joinPath_injective (parent : String) : Function.Injective (joinPath parent) := by
  intro a b h
  unfold joinPath at h
  split at h
  · exact h
  · have hlist := congrArg String.toList h
    rw [join_toList, join_toList, append_cancel_left_eq, List.cons.injEq] at hlist
    exact String.toList_inj.1 hlist.2

def firstName (path : String) : String := (splitOnce path).elim path Prod.fst

theorem firstName_name (h : '/' ∉ name.toList) : firstName name = name := by
  rw [firstName, splitOnce_eq_none.2 h]
  rfl

theorem firstName_join (h : '/' ∉ name.toList) (rest : String) :
    firstName (name ++ "/" ++ rest) = name := by
  rw [firstName, splitOnce_join h]
  rfl

end Paths

section Leaves
variable (env : MergeEnv H)

def entryLeaf (entry : TreeEntry H) : Option (FlatLeaf H) :=
  match entry.target with
  | .blob hash executable => some (.blob hash executable)
  | .symlink hash => some (.symlink hash)
  | .gitlink target => some (.gitlink env target)
  | .spoollink spoolId stateId => some (.spoollink env spoolId stateId)
  | .tree _ => none

/-- The leaves below a stored tree, by their paths from it. -/
inductive HasLeaf : Tree H → String → FlatLeaf H → Prop
  | entry : e ∈ tree.entries → entryLeaf env e = some leaf → HasLeaf tree e.name leaf
  | nested {hash : H} : e ∈ tree.entries → e.target = .tree hash →
      env.getTree hash = .ok (some subtree) → HasLeaf subtree rest leaf →
      HasLeaf tree (e.name ++ "/" ++ rest) leaf

def EntryHasLeaf (entry : TreeEntry H) (path : String) (leaf : FlatLeaf H) : Prop :=
  (path = entry.name ∧ entryLeaf env entry = some leaf) ∨
    ∃ hash subtree rest, entry.target = .tree hash ∧ env.getTree hash = .ok (some subtree) ∧
      path = entry.name ++ "/" ++ rest ∧ HasLeaf env subtree rest leaf

theorem hasLeaf_iff : HasLeaf env tree path leaf ↔ ∃ e ∈ tree.entries, EntryHasLeaf env e path leaf := by
  constructor
  · intro h
    cases h with
    | entry he hleaf => exact ⟨_, he, .inl ⟨rfl, hleaf⟩⟩
    | nested he ht hget hrest => exact ⟨_, he, .inr ⟨_, _, _, ht, hget, rfl, hrest⟩⟩
  · rintro ⟨e, he, ⟨rfl, hleaf⟩ | ⟨hash, subtree, rest, ht, hget, rfl, hrest⟩⟩
    · exact .entry he hleaf
    · exact .nested he ht hget hrest

def StoredTreesValid : Prop :=
  ∀ hash tree, env.getTree hash = .ok (some tree) → tree.validate = .ok ()

variable {env}

theorem EntryHasLeaf.firstName (h : EntryHasLeaf env e path leaf) (hname : '/' ∉ e.name.toList) :
    firstName path = e.name := by
  rcases h with ⟨rfl, _⟩ | ⟨_, _, rest, _, _, rfl, _⟩
  · exact firstName_name hname
  · exact firstName_join hname rest

theorem requireTree_ok {hash : H} (h : requireTree env hash = .ok tree) :
    env.getTree hash = .ok (some tree) := by
  unfold requireTree at h
  obtain ⟨found, hget, h⟩ := bind_eq_ok.1 h
  cases found with
  | none => cases h
  | some tree' =>
    cases h
    exact hget

theorem lookup_extend (result added : FlatTree H) (path : String) :
    (extend result added).lookup path = (added.lookup path).or (result.lookup path) := by
  rw [← lastSome_entries added path]
  exact lookup_foldl_insert (fun entry => entry.1) (fun entry => entry.2) result added.entries path

theorem flattenEntry_lookup
    (hsub : ∀ hash subtree parent flat path leaf, env.getTree hash = .ok (some subtree) →
      flattenSubtree subtree parent = .ok flat →
      (flat.lookup path = some leaf ↔
        ∃ rest, path = joinPath parent rest ∧ HasLeaf env subtree rest leaf))
    (hname : validateName entry.name = .ok ())
    (hfree : ∀ rest, firstName rest = entry.name → result.lookup (joinPath parent rest) = none)
    (h : flattenEntry env flattenSubtree parent result entry = .ok result') :
    result'.lookup path = some leaf ↔
      (∃ rest, path = joinPath parent rest ∧ EntryHasLeaf env entry rest leaf) ∨
        result.lookup path = some leaf := by
  have hslash := validateName_no_slash hname
  have hinsert : ∀ leaf', entryLeaf env entry = some leaf' →
      flattenEntry env flattenSubtree parent result entry =
        .ok (result.insert (joinPath parent entry.name) leaf') →
      (result'.lookup path = some leaf ↔
        (∃ rest, path = joinPath parent rest ∧ EntryHasLeaf env entry rest leaf) ∨
          result.lookup path = some leaf) := by
    intro leaf' hleaf heq
    rw [h] at heq
    cases heq
    have hkind : ∀ rest leaf, EntryHasLeaf env entry rest leaf ↔
        rest = entry.name ∧ leaf' = leaf := by
      intro rest leaf
      constructor
      · rintro (⟨hrest, hl⟩ | ⟨hash, _, _, ht, _⟩)
        · exact ⟨hrest, Option.some.inj (hleaf.symm.trans hl)⟩
        · rw [entryLeaf, ht] at hleaf
          cases hleaf
      · rintro ⟨rfl, rfl⟩
        exact .inl ⟨rfl, hleaf⟩
    simp only [hkind]
    by_cases hp : path = joinPath parent entry.name
    · subst hp
      rw [AList.lookup_insert, hfree entry.name (firstName_name hslash), Option.some.injEq]
      constructor
      · rintro rfl
        exact .inl ⟨_, rfl, rfl, rfl⟩
      · rintro (⟨_, _, _, rfl⟩ | hnone)
        · rfl
        · cases hnone
    · rw [AList.lookup_insert_ne hp]
      constructor
      · exact .inr
      · rintro (⟨rest, rfl, rfl, _⟩ | hlookup)
        · exact absurd rfl hp
        · exact hlookup
  cases ht : entry.target with
  | blob hash executable =>
    exact hinsert _ (by rw [entryLeaf, ht]) (by rw [flattenEntry, ht])
  | symlink hash => exact hinsert _ (by rw [entryLeaf, ht]) (by rw [flattenEntry, ht])
  | gitlink target => exact hinsert _ (by rw [entryLeaf, ht]) (by rw [flattenEntry, ht])
  | spoollink spoolId stateId =>
    exact hinsert _ (by rw [entryLeaf, ht]) (by rw [flattenEntry, ht])
  | tree hash =>
    rw [flattenEntry, ht] at h
    obtain ⟨subtree, hget, h⟩ := bind_eq_ok.1 h
    obtain ⟨flat, hflat, h⟩ := bind_eq_ok.1 h
    cases h
    have hget' := requireTree_ok hget
    have hleaves : ∀ leaf, flat.lookup path = some leaf ↔
        ∃ rest, path = joinPath parent rest ∧ EntryHasLeaf env entry rest leaf := by
      intro leaf
      rw [hsub hash subtree _ flat path leaf hget' hflat]
      constructor
      · rintro ⟨rest, rfl, hrest⟩
        exact ⟨_, joinPath_join (validateName_ne_empty hname) parent rest,
          .inr ⟨hash, subtree, rest, ht, hget', rfl, hrest⟩⟩
      · rintro ⟨_, rfl, ⟨_, hl⟩ | ⟨hash', subtree', rest, ht', hget'', rfl, hrest⟩⟩
        · rw [entryLeaf, ht] at hl
          cases hl
        · obtain rfl : hash = hash' := TreeEntryTarget.tree.inj (ht.symm.trans ht')
          obtain rfl : subtree = subtree' :=
            Option.some.inj (Except.ok.inj (hget'.symm.trans hget''))
          exact ⟨rest, (joinPath_join (validateName_ne_empty hname) parent rest).symm, hrest⟩
    rw [lookup_extend, Option.or_eq_some_iff, hleaves]
    constructor
    · rintro (hl | ⟨_, hl⟩)
      · exact .inl hl
      · exact .inr hl
    · rintro (hl | hl)
      · exact .inl hl
      · refine .inr ⟨?_, hl⟩
        by_contra hne
        obtain ⟨leaf', hleaf'⟩ := Option.ne_none_iff_exists'.1 hne
        obtain ⟨rest, rfl, hrest⟩ := (hleaves leaf').1 hleaf'
        rw [hfree rest (hrest.firstName hslash)] at hl
        cases hl

theorem flattenEntries_lookup
    (hsub : ∀ hash subtree parent flat path leaf, env.getTree hash = .ok (some subtree) →
      flattenSubtree subtree parent = .ok flat →
      (flat.lookup path = some leaf ↔
        ∃ rest, path = joinPath parent rest ∧ HasLeaf env subtree rest leaf))
    {entries : List (TreeEntry H)} (hnames : ∀ e ∈ entries, validateName e.name = .ok ())
    (hnodup : (entries.map TreeEntry.name).Nodup)
    (hfree : ∀ e ∈ entries, ∀ rest, firstName rest = e.name →
      result.lookup (joinPath parent rest) = none)
    (h : entries.foldlM (flattenEntry env flattenSubtree parent) result = .ok flat) :
    flat.lookup path = some leaf ↔
      (∃ e ∈ entries, ∃ rest, path = joinPath parent rest ∧ EntryHasLeaf env e rest leaf) ∨
        result.lookup path = some leaf := by
  induction entries generalizing result with
  | nil =>
    cases h
    simp only [not_mem_nil, false_and, exists_false, false_or]
  | cons entry entries ih =>
    rw [foldlM_cons, bind_eq_ok] at h
    obtain ⟨mid, hstep, h⟩ := h
    obtain ⟨hname, hnames⟩ := forall_mem_cons.1 hnames
    obtain ⟨hentry, hfree⟩ := forall_mem_cons.1 hfree
    rw [map_cons, nodup_cons] at hnodup
    have hmid : ∀ path leaf, mid.lookup path = some leaf ↔
        (∃ rest, path = joinPath parent rest ∧ EntryHasLeaf env entry rest leaf) ∨
          result.lookup path = some leaf :=
      fun path leaf => flattenEntry_lookup hsub hname hentry hstep
    rw [ih hnames hnodup.2 (fun e he rest hrest => ?_) h, hmid, exists_mem_cons_iff]
    · constructor
      · rintro (hl | hl | hl)
        · exact .inl (.inr hl)
        · exact .inl (.inl hl)
        · exact .inr hl
      · rintro ((hl | hl) | hl)
        · exact .inr (.inl hl)
        · exact .inl hl
        · exact .inr (.inr hl)
    · by_contra hne
      obtain ⟨leaf', hleaf'⟩ := Option.ne_none_iff_exists'.1 hne
      rcases (hmid _ _).1 hleaf' with ⟨rest', hjoin, hl⟩ | hl
      · obtain rfl := joinPath_injective parent hjoin
        have hsame := (hl.firstName (validateName_no_slash hname)).symm.trans hrest
        exact hnodup.1 (hsame ▸ mem_map_of_mem he)
      · rw [hfree e he rest hrest] at hl
        cases hl

theorem flattenTree_lookup (hstore : StoredTreesValid env) (hvalid : tree.validate = .ok ())
    (h : flattenTree env fuel tree parent = .ok flat) :
    flat.lookup path = some leaf ↔
      ∃ rest, path = joinPath parent rest ∧ HasLeaf env tree rest leaf := by
  induction fuel generalizing tree parent flat path leaf with
  | zero => cases h
  | succ fuel ih =>
    rw [flattenTree] at h
    have hentries := (Tree.validate_entries hvalid).1
    rw [flattenEntries_lookup
      (fun hash subtree parent flat path leaf hget hflat => ih (hstore hash subtree hget) hflat)
      (fun e he => TreeEntry.validate_name (hentries e he)) (Tree.validate_nodup hvalid)
      (fun _ _ _ _ => AList.lookup_empty _) h, AList.lookup_empty]
    simp only [reduceCtorEq, or_false, hasLeaf_iff]
    constructor
    · rintro ⟨e, he, rest, rfl, hl⟩
      exact ⟨rest, rfl, e, he, hl⟩
    · rintro ⟨rest, rfl, e, he, hl⟩
      exact ⟨e, he, rest, rfl, hl⟩

theorem flattenTree_root_lookup (hstore : StoredTreesValid env) (hvalid : tree.validate = .ok ())
    (h : flattenTree env fuel tree "" = .ok flat) :
    flat.lookup path = some leaf ↔ HasLeaf env tree path leaf := by
  rw [flattenTree_lookup hstore hvalid h]
  constructor
  · rintro ⟨rest, rfl, hl⟩
    exact hl
  · exact fun hl => ⟨path, rfl, hl⟩

end Leaves

end Heddle.Merge
