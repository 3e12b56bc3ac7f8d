import Heddle.Merge.WithRenames

namespace Heddle.Merge
open Heddle.Lib List

section Parts

theorem placeLeaf_topFiles (parts : NestedParts H) (path : String) (leaf : FlatLeaf H) :
    (placeLeaf parts path leaf).topFiles =
      parts.topFiles ++ if '/' ∈ path.toList then [] else [(path, leaf)] := by
  unfold placeLeaf
  cases hs : splitOnce path with
  | none => rw [if_neg (splitOnce_eq_none.1 hs)]
  | some split =>
    obtain ⟨rfl, _⟩ := splitOnce_eq_some hs
    rw [if_pos (by rw [join_toList]; exact mem_append_right _ mem_cons_self),
      append_nil]

def NestedParts.leafAt (parts : NestedParts H) (directory rest : String) : Option (FlatLeaf H) :=
  (parts.subdirs.lookup directory).bind (·.lookup rest)

theorem placeLeaf_leafAt (parts : NestedParts H) (path : String) (leaf : FlatLeaf H)
    (hd : '/' ∉ directory.toList) :
    (placeLeaf parts path leaf).leafAt directory rest =
      if path = directory ++ "/" ++ rest then some leaf else parts.leafAt directory rest := by
  unfold placeLeaf NestedParts.leafAt
  cases hs : splitOnce path with
  | none =>
    rw [if_neg]
    rintro rfl
    rw [splitOnce_join hd] at hs
    cases hs
  | some split =>
    obtain ⟨directory', rest'⟩ := split
    dsimp only
    by_cases hdir : directory = directory'
    · subst hdir
      rw [AList.lookup_insert, Option.bind_some]
      by_cases hrest : rest = rest'
      · subst hrest
        rw [AList.lookup_insert, if_pos (splitOnce_eq_some hs).1]
      · rw [AList.lookup_insert_ne hrest, if_neg]
        · cases parts.subdirs.lookup directory with
          | none => exact AList.lookup_empty rest
          | some sub => rfl
        · rintro rfl
          rw [splitOnce_join hd] at hs
          cases hs
          exact hrest rfl
    · rw [AList.lookup_insert_ne hdir, if_neg]
      rintro rfl
      rw [splitOnce_join hd] at hs
      cases hs
      exact hdir rfl

theorem nestedParts_topFiles (flat : FlatTree H) :
    (nestedParts flat).topFiles =
      flat.entries.flatMap (fun entry => if '/' ∈ entry.1.toList then [] else [(entry.1, entry.2)]) := by
  have hfold : ∀ (entries : List (Sigma fun _ : String => FlatLeaf H)) (parts : NestedParts H),
      (entries.foldl (fun parts entry => placeLeaf parts entry.1 entry.2) parts).topFiles =
        parts.topFiles ++ entries.flatMap
          (fun entry => if '/' ∈ entry.1.toList then [] else [(entry.1, entry.2)]) := by
    intro entries
    induction entries with
    | nil => exact fun parts => (append_nil _).symm
    | cons entry entries ih =>
      intro parts
      rw [foldl_cons, ih, placeLeaf_topFiles, flatMap_cons, append_assoc]
  rw [nestedParts, hfold]
  rfl

theorem nestedParts_leafAt (flat : FlatTree H) (hd : '/' ∉ directory.toList) (rest : String) :
    (nestedParts flat).leafAt directory rest = flat.lookup (directory ++ "/" ++ rest) := by
  have hfold : ∀ (entries : List (Sigma fun _ : String => FlatLeaf H)) (parts : NestedParts H),
      (entries.foldl (fun parts entry => placeLeaf parts entry.1 entry.2) parts).leafAt directory
          rest =
        (lastSome (fun entry => if entry.1 = directory ++ "/" ++ rest then some entry.2 else none)
          entries).or (parts.leafAt directory rest) := by
    intro entries
    induction entries with
    | nil => exact fun parts => rfl
    | cons entry entries ih =>
      intro parts
      rw [foldl_cons, ih, placeLeaf_leafAt _ _ _ hd, lastSome_cons, Option.or_assoc]
      congr 1
      split <;> rfl
  have hnone : ({} : NestedParts H).leafAt directory rest = none := rfl
  rw [nestedParts, hfold, hnone, Option.or_none, lastSome_entries]

def NestedParts.Proper (parts : NestedParts H) : Prop :=
  ∀ directory sub, parts.subdirs.lookup directory = some sub →
    '/' ∉ directory.toList ∧ ∃ rest leaf, sub.lookup rest = some leaf

theorem nestedParts_proper (flat : FlatTree H) : (nestedParts flat).Proper := by
  unfold nestedParts
  have hstart : ({} : NestedParts H).Proper := by
    intro directory sub h
    cases h
  generalize ({} : NestedParts H) = parts at hstart
  generalize flat.entries = entries
  induction entries generalizing parts with
  | nil => exact hstart
  | cons entry entries ih =>
    refine ih _ fun directory sub h => ?_
    change (placeLeaf parts entry.1 entry.2).subdirs.lookup directory = some sub at h
    unfold placeLeaf at h
    cases hs : splitOnce entry.1 with
    | none =>
      rw [hs] at h
      exact hstart directory sub h
    | some split =>
      rw [hs] at h
      dsimp only at h
      by_cases hdir : directory = split.1
      · rw [hdir, AList.lookup_insert, Option.some.injEq] at h
        subst h
        exact ⟨hdir ▸ (splitOnce_eq_some hs).2, split.2, entry.2, AList.lookup_insert _⟩
      · rw [AList.lookup_insert_ne hdir] at h
        exact hstart directory sub h

theorem lookup_subdir (h : (nestedParts flat).subdirs.lookup directory = some sub) (rest : String) :
    sub.lookup rest = flat.lookup (directory ++ "/" ++ rest) := by
  rw [← nestedParts_leafAt flat (nestedParts_proper flat directory sub h).1, NestedParts.leafAt, h]
  rfl

theorem mem_subdirs (hd : '/' ∉ directory.toList) :
    directory ∈ (nestedParts flat).subdirs ↔ ∃ rest, directory ++ "/" ++ rest ∈ flat := by
  constructor
  · intro h
    obtain ⟨sub, hsub⟩ := Option.isSome_iff_exists.1 (AList.lookup_isSome.2 h)
    obtain ⟨_, rest, leaf, hleaf⟩ := nestedParts_proper flat directory sub hsub
    refine ⟨rest, AList.lookup_isSome.1 ?_⟩
    rw [← lookup_subdir hsub, hleaf]
    rfl
  · rintro ⟨rest, h⟩
    by_contra hnot
    have hleaf := nestedParts_leafAt flat hd rest
    rw [NestedParts.leafAt, AList.lookup_eq_none.2 hnot] at hleaf
    exact AList.lookup_eq_none.1 hleaf.symm h

def topNames (flat : FlatTree H) : List String := flat.keys.filter (fun path => '/' ∉ path.toList)

theorem topFiles_names (flat : FlatTree H) :
    (nestedParts flat).topFiles.map Prod.fst = topNames flat := by
  rw [nestedParts_topFiles, topNames, AList.keys, keys]
  induction flat.entries with
  | nil => rfl
  | cons entry entries ih =>
    rw [flatMap_cons, map_append, ih, map_cons, filter_cons]
    by_cases hslash : '/' ∈ entry.1.toList
    · rw [if_pos hslash, if_neg (by simpa using hslash)]
      rfl
    · rw [if_neg hslash, if_pos (by simpa using hslash)]
      rfl

theorem mem_topFiles :
    (path, leaf) ∈ (nestedParts flat).topFiles → flat.lookup path = some leaf := by
  rw [nestedParts_topFiles, mem_flatMap]
  rintro ⟨entry, hentry, h⟩
  split at h
  · exact absurd h not_mem_nil
  · obtain ⟨rfl, rfl⟩ := Prod.mk.inj (mem_singleton.1 h)
    exact AList.mem_lookup_iff.2 hentry

end Parts

section Depth

theorem length_le_maxPathLength (h : path ∈ flat) :
    path.toList.length ≤ maxPathLength flat := by
  rw [AList.mem_keys] at h
  unfold maxPathLength
  generalize flat.keys = keys at h ⊢
  induction keys with
  | nil => exact absurd h not_mem_nil
  | cons key keys ih =>
    rw [map_cons, foldr_cons]
    rcases mem_cons.1 h with rfl | h
    · exact le_max_left _ _
    · exact (ih h).trans (le_max_right _ _)

theorem maxPathLength_lt (hpos : 0 < n) (h : ∀ path ∈ flat, path.toList.length < n) :
    maxPathLength flat < n := by
  have hkeys : ∀ path ∈ flat.keys, path.toList.length < n :=
    fun path hp => h path (AList.mem_keys.2 hp)
  unfold maxPathLength
  generalize flat.keys = keys at hkeys ⊢
  induction keys with
  | nil => exact hpos
  | cons key keys ih =>
    obtain ⟨hkey, hrest⟩ := forall_mem_cons.1 hkeys
    rw [map_cons, foldr_cons]
    exact max_lt hkey (ih hrest)

theorem maxPathLength_subdir (h : (nestedParts flat).subdirs.lookup directory = some sub) :
    maxPathLength sub < maxPathLength flat := by
  have hlt : ∀ path ∈ sub, path.toList.length < maxPathLength flat := by
    intro path hp
    have hmem : directory ++ "/" ++ path ∈ flat := by
      rw [← AList.lookup_isSome, ← lookup_subdir h]
      exact AList.lookup_isSome.2 hp
    have hle := length_le_maxPathLength hmem
    rw [join_toList, length_append, length_cons] at hle
    omega
  obtain ⟨_, rest, leaf, hleaf⟩ := nestedParts_proper flat directory sub h
  have hrest : rest ∈ sub := by
    rw [← AList.lookup_isSome, hleaf]
    rfl
  exact maxPathLength_lt (Nat.zero_lt_of_lt (hlt rest hrest)) hlt

variable (env : MergeEnv H)

theorem assembleTree_congr
    (h : ∀ directory sub, parts.subdirs.lookup directory = some sub → build sub = build' sub) :
    assembleTree env build parts = assembleTree env build' parts := by
  unfold assembleTree
  congr 1
  funext files
  congr 1
  refine mapM_congr fun entry hentry => ?_
  rw [h entry.1 entry.2 (AList.mem_lookup_iff.2 hentry)]

theorem buildNestedLoop_fuel (flat : FlatTree H) (hfuel : maxPathLength flat < fuel)
    (hfuel' : maxPathLength flat < fuel') :
    buildNestedLoop env fuel flat = buildNestedLoop env fuel' flat := by
  induction fuel generalizing flat fuel' with
  | zero => exact absurd hfuel (Nat.not_lt_zero _)
  | succ fuel ih =>
    cases fuel' with
    | zero => exact absurd hfuel' (Nat.not_lt_zero _)
    | succ fuel' =>
      refine assembleTree_congr env fun directory sub h => ?_
      have hlt := maxPathLength_subdir h
      exact ih sub (by omega) (by omega)

/-- The rebuild never runs out of fuel: a level is assembled from the rebuilds of its
subdirectories. -/
theorem buildNestedTree_eq (flat : FlatTree H) :
    buildNestedTree env flat = assembleTree env (buildNestedTree env) (nestedParts flat) := by
  rw [buildNestedTree, buildNestedLoop]
  refine assembleTree_congr env fun directory sub h => ?_
  exact buildNestedLoop_fuel env sub (maxPathLength_subdir h) (Nat.lt_succ_self _)

end Depth

section Validity
variable {env : MergeEnv H}

theorem entryOr_ok (h : entryOr entry = .ok e) :
    entry = .ok e := by
  cases entry with
  | error err => cases h
  | ok e' => exact congrArg Except.ok (Except.ok.inj h)

theorem entryOr_withChecked (h : entryOr (TreeEntry.withChecked name target) = .ok e) :
    e.name = name ∧ validateName name = .ok () := by
  obtain ⟨hname, rfl⟩ := TreeEntry.withChecked_ok (entryOr_ok h)
  exact ⟨rfl, hname⟩

theorem leafToTreeEntry_ok (h : leafToTreeEntry name leaf = .ok e) :
    e.name = name ∧ validateName name = .ok () := by
  unfold leafToTreeEntry at h
  split at h
  · exact entryOr_withChecked h
  · exact entryOr_withChecked h
  · split at h
    · exact entryOr_withChecked h
    · cases h
  · split at h
    · exact entryOr_withChecked h
    · cases h
  · cases h

theorem assembleTree_ok (h : assembleTree env build parts = .ok tree) :
    ∃ entries, tree = Tree.fromEntries entries ∧
      entries.map TreeEntry.name = parts.topFiles.map Prod.fst ++ parts.subdirs.keys ∧
      ∀ e ∈ entries, validateName e.name = .ok () := by
  unfold assembleTree at h
  obtain ⟨files, hfiles, h⟩ := bind_eq_ok.1 h
  obtain ⟨directories, hdirectories, h⟩ := bind_eq_ok.1 h
  cases h
  have hfile := (mapM_ok_iff.1 hfiles).imp fun _ _ hf => leafToTreeEntry_ok hf
  have hdirectory : List.Forall₂ (fun (x : Sigma fun _ : String => FlatTree H) (y : TreeEntry H) =>
      y.name = x.1 ∧ validateName x.1 = .ok ()) parts.subdirs.entries directories := by
    refine (mapM_ok_iff.1 hdirectories).imp fun x y hx => ?_
    obtain ⟨_, _, hx⟩ := bind_eq_ok.1 hx
    obtain ⟨_, _, hx⟩ := bind_eq_ok.1 hx
    exact entryOr_withChecked hx
  have hnames : ∀ {α : Type} {xs : List α} {ys : List (TreeEntry H)} {name : α → String},
      List.Forall₂ (fun x y => y.name = name x ∧ validateName (name x) = .ok ()) xs ys →
        ys.map TreeEntry.name = xs.map name ∧ ∀ e ∈ ys, validateName e.name = .ok () := by
    intro α xs ys name hall
    induction hall with
    | nil => exact ⟨rfl, fun _ he => absurd he not_mem_nil⟩
    | cons hxy _ ih =>
      refine ⟨?_, forall_mem_cons.2 ⟨hxy.1 ▸ hxy.2, ih.2⟩⟩
      rw [map_cons, map_cons, hxy.1, ih.1]
  obtain ⟨hfileNames, hfileValid⟩ := hnames hfile
  obtain ⟨hdirNames, hdirValid⟩ := hnames hdirectory
  refine ⟨_, rfl, ?_, fun e he => ?_⟩
  · rw [map_append, hfileNames, hdirNames]
    rfl
  · rcases mem_append.1 he with he | he
    · exact hfileValid e he
    · exact hdirValid e he

def LevelFree (flat : FlatTree H) : Prop :=
  ∀ name rest, '/' ∉ name.toList → name ∈ flat → name ++ "/" ++ rest ∉ flat

theorem level_nodup_iff (flat : FlatTree H) :
    ((nestedParts flat).topFiles.map Prod.fst ++ (nestedParts flat).subdirs.keys).Nodup ↔
      LevelFree flat := by
  rw [topFiles_names, nodup_append']
  have htop : ∀ name, name ∈ topNames flat ↔ name ∈ flat ∧ '/' ∉ name.toList := by
    intro name
    rw [topNames, mem_filter, decide_eq_true_eq, AList.mem_keys]
  constructor
  · rintro ⟨_, _, hdisjoint⟩ name rest hslash hname hbelow
    refine hdisjoint ((htop name).2 ⟨hname, hslash⟩) (AList.mem_keys.1 ?_)
    exact (mem_subdirs hslash).2 ⟨rest, hbelow⟩
  · intro hfree
    refine ⟨flat.keys_nodup.filter _, (nestedParts flat).subdirs.keys_nodup, ?_⟩
    intro name hname hdirectory
    obtain ⟨hmem, hslash⟩ := (htop name).1 hname
    obtain ⟨rest, hrest⟩ := (mem_subdirs hslash).1 (AList.mem_keys.2 hdirectory)
    exact hfree name rest hslash hmem hrest

theorem buildNestedTree_validate_iff (h : buildNestedTree env flat = .ok tree) :
    tree.validate = .ok () ↔ LevelFree flat := by
  rw [buildNestedTree_eq] at h
  obtain ⟨entries, rfl, hnames, hvalid⟩ := assembleTree_ok h
  rw [Tree.fromEntries_validate_iff, hnames, level_nodup_iff]
  exact ⟨fun h => h.2, fun h => ⟨hvalid, h⟩⟩

/-- The trees that the rebuild of a leaf map makes: the root, and those of its subdirectories. -/
inductive Rebuilt (env : MergeEnv H) : FlatTree H → Tree H → Prop
  | root : buildNestedTree env flat = .ok tree → Rebuilt env flat tree
  | sub : (nestedParts flat).subdirs.lookup directory = some sub → Rebuilt env sub tree →
      Rebuilt env flat tree

def PrefixFree (flat : FlatTree H) : Prop :=
  ∀ path rest, path ∈ flat → path ++ "/" ++ rest ∉ flat

theorem PrefixFree.level (h : PrefixFree flat) : LevelFree flat :=
  fun name rest _ hname => h name rest hname

theorem mem_subdir (h : (nestedParts flat).subdirs.lookup directory = some sub) (rest : String) :
    rest ∈ sub ↔ directory ++ "/" ++ rest ∈ flat := by
  rw [← AList.lookup_isSome, ← AList.lookup_isSome, lookup_subdir h]

theorem PrefixFree.subdir (h : PrefixFree flat)
    (hsub : (nestedParts flat).subdirs.lookup directory = some sub) : PrefixFree sub := by
  intro path rest hpath hbelow
  rw [mem_subdir hsub] at hpath hbelow
  have hassoc : directory ++ "/" ++ (path ++ "/" ++ rest) =
      directory ++ "/" ++ path ++ "/" ++ rest := by
    simp only [String.append_assoc]
  exact h _ rest hpath (hassoc ▸ hbelow)

theorem prefixFree_of_levels (hlevel : LevelFree flat)
    (hsub : ∀ directory sub, (nestedParts flat).subdirs.lookup directory = some sub →
      PrefixFree sub) : PrefixFree flat := by
  intro path rest hpath hbelow
  cases hs : splitOnce path with
  | none => exact hlevel path rest (splitOnce_eq_none.1 hs) hpath hbelow
  | some split =>
    obtain ⟨rfl, hslash⟩ := splitOnce_eq_some hs
    have hmem : split.1 ∈ (nestedParts flat).subdirs := (mem_subdirs hslash).2 ⟨_, hpath⟩
    obtain ⟨sub, hlookup⟩ := Option.isSome_iff_exists.1 (AList.lookup_isSome.2 hmem)
    refine hsub _ sub hlookup split.2 rest ((mem_subdir hlookup _).2 hpath) ?_
    have hassoc : split.1 ++ "/" ++ split.2 ++ "/" ++ rest =
        split.1 ++ "/" ++ (split.2 ++ "/" ++ rest) := by
      simp only [String.append_assoc]
    exact (mem_subdir hlookup _).2 (hassoc ▸ hbelow)

theorem Rebuilt.valid (h : Rebuilt env flat tree) (hfree : PrefixFree flat) :
    tree.validate = .ok () := by
  induction h with
  | root hbuild => exact (buildNestedTree_validate_iff hbuild).2 hfree.level
  | sub hsub _ ih => exact ih (hfree.subdir hsub)

end Validity

section Rebuild
variable {env : MergeEnv H}

inductive ValidPath : String → Prop
  | name : validateName name = .ok () → ValidPath name
  | join : validateName directory = .ok () → ValidPath rest → ValidPath (directory ++ "/" ++ rest)

def Writable (leaf : FlatLeaf H) : Prop :=
  ∀ name, validateName name = .ok () → ∃ e, leafToTreeEntry name leaf = .ok e

def Placeable (flat : FlatTree H) : Prop :=
  ∀ path leaf, flat.lookup path = some leaf → ValidPath path ∧ Writable leaf

def StoresValidTrees (env : MergeEnv H) : Prop :=
  ∀ tree, tree.validate = .ok () → ∃ hash, env.putTree tree = .ok hash

theorem ValidPath.no_slash (h : ValidPath path) (hslash : '/' ∉ path.toList) :
    validateName path = .ok () := by
  cases h with
  | name hname => exact hname
  | join _ _ =>
    rw [join_toList] at hslash
    exact absurd (mem_append_right _ mem_cons_self) hslash

theorem ValidPath.split (h : ValidPath path) (hs : splitOnce path = some (directory, rest)) :
    validateName directory = .ok () ∧ ValidPath rest := by
  cases h with
  | name hname =>
    rw [splitOnce_eq_none.2 (validateName_no_slash hname)] at hs
    cases hs
  | join hdirectory hrest =>
    rw [splitOnce_join (validateName_no_slash hdirectory)] at hs
    cases hs
    exact ⟨hdirectory, hrest⟩

theorem entryOr_withChecked_of_name (h : validateName name = .ok ()) :
    entryOr (TreeEntry.withChecked name target) = .ok { name, target } := by
  rw [TreeEntry.withChecked, h]
  rfl

theorem writable_content (h : leaf.entryType = .blob ∨ leaf.entryType = .symlink) :
    Writable leaf := by
  intro name hname
  unfold leafToTreeEntry
  rcases h with h | h
  · exact ⟨_, by rw [h]; exact entryOr_withChecked_of_name hname⟩
  · exact ⟨_, by rw [h]; exact entryOr_withChecked_of_name hname⟩

theorem LeafOf.writable (h : LeafOf env leaf) : Writable leaf := by
  cases h with
  | blob hash executable => exact writable_content (.inl rfl)
  | symlink hash => exact writable_content (.inr rfl)
  | gitlink target => exact fun name hname => ⟨_, entryOr_withChecked_of_name hname⟩
  | spoollink spoolId stateId => exact fun name hname => ⟨_, entryOr_withChecked_of_name hname⟩

theorem Placeable.subdir (h : Placeable flat)
    (hsub : (nestedParts flat).subdirs.lookup directory = some sub) :
    Placeable sub ∧ validateName directory = .ok () := by
  obtain ⟨hslash, rest, leaf, hleaf⟩ := nestedParts_proper flat directory sub hsub
  have hbelow : ∀ rest leaf, sub.lookup rest = some leaf →
      validateName directory = .ok () ∧ ValidPath rest ∧ Writable leaf := by
    intro rest leaf hl
    rw [lookup_subdir hsub] at hl
    obtain ⟨hpath, hwritable⟩ := h _ _ hl
    obtain ⟨hdirectory, hrest⟩ := hpath.split (splitOnce_join hslash rest)
    exact ⟨hdirectory, hrest, hwritable⟩
  exact ⟨fun rest leaf hl => (hbelow rest leaf hl).2, (hbelow rest leaf hleaf).1⟩

theorem buildNestedTree_ok (hput : StoresValidTrees env) (h : Placeable flat)
    (hsub : ∀ directory sub, (nestedParts flat).subdirs.lookup directory = some sub →
      ∃ tree, buildNestedTree env sub = .ok tree ∧ tree.validate = .ok ()) :
    ∃ tree, buildNestedTree env flat = .ok tree := by
  rw [buildNestedTree_eq, assembleTree]
  have hfiles : ∀ file ∈ (nestedParts flat).topFiles, ∃ e, leafToTreeEntry file.1 file.2 = .ok e := by
    intro file hfile
    obtain ⟨hpath, hwritable⟩ := h _ _ (mem_topFiles hfile)
    have hname : file.1 ∈ topNames flat := by
      rw [← topFiles_names]
      exact mem_map_of_mem hfile
    rw [topNames, mem_filter, decide_eq_true_eq] at hname
    exact hwritable _ (hpath.no_slash hname.2)
  obtain ⟨files, hfiles⟩ := exists_mapM_ok hfiles
  have hdirectories : ∀ entry ∈ (nestedParts flat).subdirs.entries,
      ∃ e, (do
        let subtree ← buildNestedTree env entry.2
        let hash ← env.putTree subtree
        entryOr (TreeEntry.directory entry.1 hash)) = .ok e := by
    intro entry hentry
    have hlookup := AList.mem_lookup_iff.2 hentry
    obtain ⟨tree, htree, hvalid⟩ := hsub entry.1 entry.2 hlookup
    obtain ⟨hash, hhash⟩ := hput tree hvalid
    refine ⟨{ name := entry.1, target := .tree hash }, ?_⟩
    refine bind_eq_ok.2 ⟨tree, htree, bind_eq_ok.2 ⟨hash, hhash, ?_⟩⟩
    exact entryOr_withChecked_of_name (h.subdir hlookup).2
  obtain ⟨directories, hdirectories⟩ := exists_mapM_ok hdirectories
  rw [hfiles]
  refine ⟨_, bind_eq_ok.2 ⟨files, rfl, bind_eq_ok.2 ⟨directories, hdirectories, rfl⟩⟩⟩

/-- The induction over the levels of a leaf map, from the deepest up. -/
theorem levelInduction {P : FlatTree H → Prop}
    (step : ∀ flat, (∀ directory sub,
      (nestedParts flat).subdirs.lookup directory = some sub → P sub) → P flat)
    (flat : FlatTree H) : P flat := by
  induction hn : maxPathLength flat using Nat.strong_induction_on generalizing flat with
  | _ n ih =>
    refine step flat fun directory sub hsub => ?_
    exact ih (maxPathLength sub) (hn ▸ maxPathLength_subdir hsub) sub rfl

theorem buildNestedTree_ok_of_prefixFree (hput : StoresValidTrees env) (h : Placeable flat)
    (hfree : PrefixFree flat) :
    ∃ tree, buildNestedTree env flat = .ok tree ∧ tree.validate = .ok () := by
  induction flat using levelInduction with
  | step flat ih =>
    obtain ⟨tree, htree⟩ := buildNestedTree_ok hput h fun directory sub hsub =>
      ih directory sub hsub (h.subdir hsub).1 (hfree.subdir hsub)
    exact ⟨tree, htree, (buildNestedTree_validate_iff htree).2 hfree.level⟩

theorem prefixFree_of_rebuilt (hput : StoresValidTrees env) (h : Placeable flat)
    (hvalid : ∀ tree, Rebuilt env flat tree → tree.validate = .ok ()) : PrefixFree flat := by
  induction flat using levelInduction with
  | step flat ih =>
    have hsub : ∀ directory sub, (nestedParts flat).subdirs.lookup directory = some sub →
        PrefixFree sub := fun directory sub hsub =>
      ih directory sub hsub (h.subdir hsub).1 fun tree htree => hvalid tree (.sub hsub htree)
    obtain ⟨tree, htree⟩ := buildNestedTree_ok hput h fun directory sub hs =>
      buildNestedTree_ok_of_prefixFree hput (h.subdir hs).1 (hsub directory sub hs)
    exact prefixFree_of_levels ((buildNestedTree_validate_iff htree).1 (hvalid tree (.root htree)))
      hsub

end Rebuild

end Heddle.Merge
