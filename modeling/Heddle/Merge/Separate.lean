import Heddle.Merge.TreeValidity

namespace Heddle.Merge
open Heddle.Lib List Option

section SeparateChanges
variable [DecidableEq H] {env : MergeEnv H}

/-- The same name and target, or no entry on either side. -/
def Alike (x y : Option (TreeEntry H)) : Prop :=
  x.map TreeEntry.dropRawGitMode = y.map TreeEntry.dropRawGitMode

instance (x y : Option (TreeEntry H)) : Decidable (Alike x y) := inferInstanceAs (Decidable (_ = _))

def HoldsSubtree (env : MergeEnv H) (entry : Option (TreeEntry H)) (subtree : Tree H) : Prop :=
  ∃ e ∈ entry, ∃ hash, e.target = .tree hash ∧ env.getTree hash = .ok (some subtree)

/-- Both sides do not change one name, unless they agree on it or change the tree below it at
separate places. -/
def Separate (env : MergeEnv H) : Nat → Tree H → Tree H → Tree H → Prop
  | 0, _, _, _ => False
  | fuel + 1, baseTree, ourTree, theirTree => ∀ name,
    let base := (entryMap baseTree).lookup name
    let our := (entryMap ourTree).lookup name
    let their := (entryMap theirTree).lookup name
    Alike our base ∨ Alike their base ∨ Alike our their ∨
      ∃ baseSubtree ourSubtree theirSubtree, HoldsSubtree env base baseSubtree ∧
        HoldsSubtree env our ourSubtree ∧ HoldsSubtree env their theirSubtree ∧
        Separate env fuel baseSubtree ourSubtree theirSubtree

/-- The store gives back each tree that the merge puts into it: what it makes of three subtrees,
when no two of them are alike. -/
def KeepsTrees (env : MergeEnv H) (order : IterationOrder) :
    Nat → Tree H → Tree H → Tree H → String → Prop
  | 0, _, _, _, _ => True
  | fuel + 1, baseTree, ourTree, theirTree, parent => ∀ name baseSubtree ourSubtree theirSubtree,
    let base := (entryMap baseTree).lookup name
    let our := (entryMap ourTree).lookup name
    let their := (entryMap theirTree).lookup name
    ¬ Alike our base → ¬ Alike their base → ¬ Alike our their →
    HoldsSubtree env base baseSubtree → HoldsSubtree env our ourSubtree →
    HoldsSubtree env their theirSubtree →
    KeepsTrees env order fuel baseSubtree ourSubtree theirSubtree (joinPath parent name) ∧
      ∀ tree, threeWayMergeRecursive env order fuel baseSubtree ourSubtree theirSubtree
          (joinPath parent name) = .ok (tree, []) →
        ∃ hash, env.putTree tree = .ok hash ∧ env.getTree hash = .ok (some tree)

/-- What both sides have, and what one side has that the base has not. -/
def ThreeWay (base our their : Prop) : Prop := (our ∧ their) ∨ (our ∧ ¬ base) ∨ (their ∧ ¬ base)

def LeafIn (env : MergeEnv H) (entries : List (TreeEntry H)) (path : String) (leaf : FlatLeaf H) :
    Prop :=
  ∃ e ∈ entries, EntryHasLeaf env e path leaf

theorem sameMeaning_iff {a b : TreeEntry H} :
    a.sameMeaning b = true ↔ Alike (some a) (some b) := by
  rw [Alike, Option.map_some, Option.map_some, Option.some.injEq, TreeEntry.sameMeaning,
    Bool.and_eq_true, decide_eq_true_eq, decide_eq_true_eq]
  cases a
  cases b
  simp only [TreeEntry.dropRawGitMode, TreeEntry.mk.injEq, and_true]

omit [DecidableEq H] in
theorem leafIn_map_dropRawGitMode :
    LeafIn env (es.map TreeEntry.dropRawGitMode) path leaf ↔ LeafIn env es path leaf := by
  constructor
  · rintro ⟨_, hmem, hleaf⟩
    obtain ⟨e, he, rfl⟩ := mem_map.1 hmem
    exact ⟨e, he, hleaf⟩
  · rintro ⟨e, he, hleaf⟩
    exact ⟨e.dropRawGitMode, mem_map_of_mem he, hleaf⟩

omit [DecidableEq H] in
theorem Alike.leafIn {x y : Option (TreeEntry H)} (h : Alike x y) :
    LeafIn env x.toList path leaf ↔ LeafIn env y.toList path leaf := by
  have hdrop : ∀ x : Option (TreeEntry H), LeafIn env x.toList path leaf ↔
      LeafIn env (x.map TreeEntry.dropRawGitMode).toList path leaf := by
    intro x
    rw [Option.toList_map, leafIn_map_dropRawGitMode]
  rw [hdrop x, hdrop y, h]

/-- What the merge of one name must push, when nothing conflicts. -/
def PushesThreeWay (env : MergeEnv H) (base our their : Option (TreeEntry H))
    (merged : Except Failure (Pushed H)) : Prop :=
  ∃ entries, merged = .ok (entries, []) ∧ ∀ path leaf, LeafIn env entries path leaf ↔
    ThreeWay (LeafIn env base.toList path leaf) (LeafIn env our.toList path leaf)
      (LeafIn env their.toList path leaf)

theorem mergeEntry_of_alike {base our their : Option (TreeEntry H)}
    (h : Alike our base ∨ Alike their base ∨ Alike our their) :
    mergeEntry env recurse base our their conflictPath =
      .ok ((if Alike our their then our else if Alike our base then their else our).toList, []) := by
  have hnone : ∀ e : TreeEntry H, ¬ Alike none (some e) := fun e h => by cases h
  have hsome : ∀ e : TreeEntry H, ¬ Alike (some e) none := fun e h => by cases h
  have hrefl : Alike (none : Option (TreeEntry H)) none := rfl
  cases base <;> cases our <;> cases their <;>
    simp_all [mergeEntry, mergeDeleteChangedEntry, mergeAddedEntries, mergeChangedEntries,
      sameMeaning_iff]
  split_ifs with hsides hour htheir
  · rfl
  · rfl
  · rfl
  · exact absurd h (not_or.2 ⟨hour, not_or.2 ⟨htheir, hsides⟩⟩)

theorem mergeEntry_alike {base our their : Option (TreeEntry H)}
    (h : Alike our base ∨ Alike their base ∨ Alike our their) :
    PushesThreeWay env base our their (mergeEntry env recurse base our their conflictPath) := by
  refine ⟨_, mergeEntry_of_alike h, fun path leaf => ?_⟩
  unfold ThreeWay
  by_cases hsides : Alike our their
  · rw [if_pos hsides, hsides.leafIn]
    tauto
  · rw [if_neg hsides]
    by_cases hour : Alike our base
    · rw [if_pos hour, hour.leafIn]
      tauto
    · have htheir : Alike their base := (h.resolve_left hour).resolve_right hsides
      rw [if_neg hour, htheir.leafIn]
      tauto

omit [DecidableEq H] in
theorem entryHasLeaf_tree {e : TreeEntry H} {hash : H} (ht : e.target = .tree hash)
    (hget : env.getTree hash = .ok (some subtree)) : EntryHasLeaf env e path leaf ↔
      ∃ rest, path = e.name ++ "/" ++ rest ∧ HasLeaf env subtree rest leaf := by
  constructor
  · rintro (⟨_, hleaf⟩ | ⟨hash', subtree', rest, ht', hget', hpath, hleaf⟩)
    · rw [entryLeaf, ht] at hleaf
      cases hleaf
    · cases ht.symm.trans ht'
      cases hget.symm.trans hget'
      exact ⟨rest, hpath, hleaf⟩
  · rintro ⟨rest, hpath, hleaf⟩
    exact .inr ⟨hash, subtree, rest, ht, hget, hpath, hleaf⟩

omit [DecidableEq H] in
theorem requireSubtree_of_get {hash : H} (h : env.getTree hash = .ok (some tree)) :
    requireSubtree env hash label = .ok tree := by
  unfold requireSubtree
  rw [h]
  rfl

theorem join_inj (hname : validateName name = .ok ()) :
    name ++ "/" ++ rest = name ++ "/" ++ rest' ↔ rest = rest' := by
  refine ⟨fun heq => ?_, fun heq => heq ▸ rfl⟩
  have hsplit := splitOnce_join (validateName_no_slash hname) rest
  rw [heq, splitOnce_join (validateName_no_slash hname)] at hsplit
  cases hsplit
  rfl

theorem mergeEntry_directories {base our their : Option (TreeEntry H)} {subtree : Tree H}
    (name : String)
    (hdiffers : ¬ (Alike our base ∨ Alike their base ∨ Alike our their))
    (hkept : ∃ hash, env.putTree subtree = .ok hash ∧ env.getTree hash = .ok (some subtree))
    (hnames : ∀ e, base = some e ∨ our = some e ∨ their = some e →
      e.name = name ∧ validateName name = .ok ())
    (hbase : HoldsSubtree env base baseSubtree) (hour : HoldsSubtree env our ourSubtree)
    (htheir : HoldsSubtree env their theirSubtree)
    (hrun : recurse baseSubtree ourSubtree theirSubtree conflictPath = .ok (subtree, []))
    (hleaves : ∀ path leaf, HasLeaf env subtree path leaf ↔ ThreeWay
      (HasLeaf env baseSubtree path leaf) (HasLeaf env ourSubtree path leaf)
      (HasLeaf env theirSubtree path leaf)) :
    PushesThreeWay env base our their (mergeEntry env recurse base our their conflictPath) := by
  obtain ⟨b, rfl, baseHash, hbaseTree, hbaseGet⟩ := hbase
  obtain ⟨o, rfl, ourHash, hourTree, hourGet⟩ := hour
  obtain ⟨t, rfl, theirHash, htheirTree, htheirGet⟩ := htheir
  obtain ⟨hour, hthen⟩ := not_or.1 hdiffers
  obtain ⟨htheir, hsides⟩ := not_or.1 hthen
  obtain ⟨hash, hput, hget⟩ := hkept
  have hmode : mergeModeContentOrthogonalChange b o t = none := by
    unfold mergeModeContentOrthogonalChange
    rw [if_pos]
    left
    rw [TreeEntry.isBlob, TreeEntry.entryType, hbaseTree]
    exact Bool.false_ne_true
  obtain ⟨hoName, hname⟩ := hnames o (.inr (.inl rfl))
  refine ⟨[{ name := name, target := .tree hash }], ?_, ?_⟩
  · simp only [mergeEntry, mergeChangedEntries, sameMeaning_iff, if_neg hsides, if_neg hour,
      if_neg htheir, hmode, hbaseTree, hourTree, htheirTree, requireSubtree_of_get hbaseGet,
      mergeSubtrees, requireSubtree_of_get hourGet, requireSubtree_of_get htheirGet, hrun,
      hput, bind, Except.bind, TreeEntry.directory, hoName, entryOr_withChecked_of_name hname]
    rfl
  · intro path leaf
    have hbelow : ∀ {e : TreeEntry H} {hash : H} {tree : Tree H}, e.name = name →
        e.target = .tree hash → env.getTree hash = .ok (some tree) →
        (LeafIn env [e] path leaf ↔
          ∃ rest, path = name ++ "/" ++ rest ∧ HasLeaf env tree rest leaf) := by
      rintro e hash tree rfl ht hget
      simp only [LeafIn, mem_singleton, exists_eq_left]
      exact entryHasLeaf_tree ht hget
    rw [hbelow rfl rfl hget, Option.toList_some, Option.toList_some, Option.toList_some,
      hbelow (hnames b (.inl rfl)).1 hbaseTree hbaseGet, hbelow hoName hourTree hourGet,
      hbelow (hnames t (.inr (.inr rfl))).1 htheirTree htheirGet]
    by_cases hpath : ∃ rest, path = name ++ "/" ++ rest
    · obtain ⟨rest, rfl⟩ := hpath
      simp only [join_inj hname, exists_eq_left']
      exact hleaves rest leaf
    · have hnone : ∀ tree, ¬ ∃ rest, path = name ++ "/" ++ rest ∧ HasLeaf env tree rest leaf :=
        fun _ h => hpath (h.imp fun _ => And.left)
      simp only [hnone, ThreeWay, false_and, or_false]

omit [DecidableEq H] in
theorem leafIn_lookup (hvalid : tree.validate = .ok ())
    (h : LeafIn env ((entryMap tree).lookup name).toList path leaf) :
    firstName path = name ∧ name ∈ (entryMap tree).keys := by
  obtain ⟨e, he, hleaf⟩ := h
  rw [Option.mem_toList] at he
  obtain ⟨rfl, hname⟩ := entryMap_valid hvalid he
  refine ⟨hleaf.firstName (validateName_no_slash hname), ?_⟩
  exact AList.mem_keys.1 (AList.lookup_isSome.1 (he ▸ rfl))

omit [DecidableEq H] in
theorem hasLeaf_iff_lookup (hvalid : tree.validate = .ok ()) : HasLeaf env tree path leaf ↔
    LeafIn env ((entryMap tree).lookup (firstName path)).toList path leaf := by
  have hnodup := Tree.validate_nodup hvalid
  rw [hasLeaf_iff]
  constructor
  · rintro ⟨e, he, hleaf⟩
    have hname := TreeEntry.validate_name ((Tree.validate_entries hvalid).1 e he)
    rw [hleaf.firstName (validateName_no_slash hname)]
    exact ⟨e, Option.mem_toList.2 ((entryMap_lookup hnodup).2 ⟨he, rfl⟩), hleaf⟩
  · rintro ⟨e, he, hleaf⟩
    exact ⟨e, ((entryMap_lookup hnodup).1 (Option.mem_toList.1 he)).1, hleaf⟩

omit [DecidableEq H] in
/-- A leaf that a merge of one name keeps stands below that name, and the merge visits it. -/
theorem ThreeWay.visited (baseTree : Tree H) (hour : ourTree.validate = .ok ())
    (htheir : theirTree.validate = .ok ())
    (h : ThreeWay base (LeafIn env ((entryMap ourTree).lookup name).toList path leaf)
      (LeafIn env ((entryMap theirTree).lookup name).toList path leaf)) :
    firstName path = name ∧ name ∈ allNames baseTree ourTree theirTree := by
  simp only [allNames, mem_dedup, mem_append]
  rcases h with ⟨ho, _⟩ | ⟨ho, _⟩ | ⟨ht, _⟩
  · exact (leafIn_lookup hour ho).imp id fun hname => .inl (.inr hname)
  · exact (leafIn_lookup hour ho).imp id fun hname => .inl (.inr hname)
  · exact (leafIn_lookup htheir ht).imp id .inr

/-- Separate changes merge without a conflict, and leaf by leaf. -/
theorem threeWayMergeRecursive_separate (hstore : StoredTreesValid env)
    (order : IterationOrder) (fuel : Nat) (baseTree ourTree theirTree : Tree H) (parent : String)
    (hkeeps : KeepsTrees env order fuel baseTree ourTree theirTree parent)
    (hbase : baseTree.validate = .ok ()) (hour : ourTree.validate = .ok ())
    (htheir : theirTree.validate = .ok ())
    (hseparate : Separate env fuel baseTree ourTree theirTree) :
    ∃ tree, threeWayMergeRecursive env order fuel baseTree ourTree theirTree parent =
        .ok (tree, []) ∧ ∀ path leaf, HasLeaf env tree path leaf ↔ ThreeWay
      (HasLeaf env baseTree path leaf) (HasLeaf env ourTree path leaf)
      (HasLeaf env theirTree path leaf) := by
  induction fuel generalizing baseTree ourTree theirTree parent with
  | zero => cases hseparate
  | succ fuel ih =>
    have hpush : ∀ name, PushesThreeWay env ((entryMap baseTree).lookup name)
        ((entryMap ourTree).lookup name) ((entryMap theirTree).lookup name)
        (mergeEntry env (threeWayMergeRecursive env order fuel) ((entryMap baseTree).lookup name)
          ((entryMap ourTree).lookup name) ((entryMap theirTree).lookup name)
          (joinPath parent name)) := by
      intro name
      by_cases halike : Alike ((entryMap ourTree).lookup name) ((entryMap baseTree).lookup name) ∨
          Alike ((entryMap theirTree).lookup name) ((entryMap baseTree).lookup name) ∨
          Alike ((entryMap ourTree).lookup name) ((entryMap theirTree).lookup name)
      · exact mergeEntry_alike halike
      · obtain ⟨hour', hthen⟩ := not_or.1 halike
        obtain ⟨htheir', hsides⟩ := not_or.1 hthen
        obtain ⟨baseSub, ourSub, theirSub, hb, ho, ht, hbelow⟩ :=
          (((hseparate name).resolve_left hour').resolve_left htheir').resolve_left hsides
        obtain ⟨hkeepsBelow, hkept⟩ :=
          hkeeps name baseSub ourSub theirSub hour' htheir' hsides hb ho ht
        have hsub : ∀ {entry : Option (TreeEntry H)} {sub}, HoldsSubtree env entry sub →
            sub.validate = .ok () := fun ⟨_, _, _, _, hget⟩ => hstore _ _ hget
        obtain ⟨tree, hrun, hleaves⟩ := ih baseSub ourSub theirSub (joinPath parent name)
          hkeepsBelow (hsub hb) (hsub ho) (hsub ht) hbelow
        refine mergeEntry_directories name halike (hkept tree hrun) ?_ hb ho ht hrun hleaves
        rintro e (he | he | he)
        · exact entryMap_valid hbase he
        · exact entryMap_valid hour he
        · exact entryMap_valid htheir he
    choose entries hmerged hleaves using hpush
    have hmap : ∀ names : List String, names.mapM (fun name =>
        (.ok (entries name, []) : Except Failure (Pushed H))) =
          .ok (names.map fun name => (entries name, [])) := by
      intro names
      rw [mapM_ok_iff, forall₂_map_right_iff]
      exact forall₂_same.2 fun _ _ => rfl
    refine ⟨Tree.fromEntries ((order.visit (allNames baseTree ourTree theirTree)).flatMap entries),
      ?_, fun path leaf => ?_⟩
    · rw [threeWayMergeRecursive]
      have hnil : ∀ names : List String, names.flatMap (fun _ => ([] : List String)) = [] :=
        fun _ => flatMap_eq_nil_iff.2 fun _ _ => rfl
      simp only [hmerged, hmap, bind, Except.bind, flatMap_map, hnil]
      rfl
    · rw [hasLeaf_iff_lookup hbase, hasLeaf_iff_lookup hour, hasLeaf_iff_lookup htheir,
        ← hleaves (firstName path), hasLeaf_iff]
      constructor
      · rintro ⟨_, hmem, hleaf⟩
        obtain ⟨e, he, rfl⟩ := Tree.mem_fromEntries.1 hmem
        obtain ⟨name, hname, he⟩ := mem_flatMap.1 he
        have hin : LeafIn env (entries name) path leaf := ⟨e, he, hleaf⟩
        rwa [(((hleaves name path leaf).1 hin).visited baseTree hour htheir).1]
      · intro hin
        have hname : firstName path ∈ allNames baseTree ourTree theirTree :=
          (((hleaves _ path leaf).1 hin).visited baseTree hour htheir).2
        obtain ⟨e, he, hleaf⟩ := hin
        refine ⟨e.dropRawGitMode, Tree.mem_fromEntries.2 ⟨e, ?_, rfl⟩, hleaf⟩
        exact mem_flatMap.2 ⟨_, (order.perm _).mem_iff.2 hname, he⟩

theorem mergeWithoutRenames_separate (hstore : StoredTreesValid env)
    (hkeeps : KeepsTrees env order fuel baseTree ourTree theirTree "")
    (hbase : baseTree.validate = .ok ()) (hour : ourTree.validate = .ok ())
    (htheir : theirTree.validate = .ok ())
    (hseparate : Separate env fuel baseTree ourTree theirTree) :
    ∃ tree, mergeWithoutRenames env fuel order baseTree ourTree theirTree = .ok (tree, []) ∧
      tree.validate = .ok () ∧ ∀ path leaf, HasLeaf env tree path leaf ↔ ThreeWay
        (HasLeaf env baseTree path leaf) (HasLeaf env ourTree path leaf)
        (HasLeaf env theirTree path leaf) := by
  obtain ⟨tree, hrun, hleaves⟩ := threeWayMergeRecursive_separate hstore order fuel
    baseTree ourTree theirTree "" hkeeps hbase hour htheir hseparate
  exact ⟨tree, hrun, threeWayMergeRecursive_valid hbase hour htheir hrun, hleaves⟩

end SeparateChanges

section Witness

/-- Content that is its own address. -/
inductive SelfAddressed where
  | blob (content : Bytes)
  | tree (entries : Tree SelfAddressed)

noncomputable instance decidableEqSelfAddressed : DecidableEq SelfAddressed := Classical.decEq _

def selfAddressedEnv : MergeEnv SelfAddressed where
  loadBlob _ path := .error (.store path)
  putBlob content := .ok (.blob content)
  getTree
    | .tree tree => .ok (if tree.validate = .ok () then some tree else none)
    | .blob _ => .ok none
  putTree tree := .ok (.tree tree)
  computeTyped typePrefix content := .blob (utf8 typePrefix ++ content)
  hashText _ := ""
  gitObjectText target := target.asBytes.toString
  captureDiffSlices old new := [.replace 0 old.length 0 new.length]
  semanticMerge := none
  labels := .default

def oneFile (name : String) : Tree SelfAddressed :=
  Tree.fromEntries [{ name := name, target := .blob (.blob (utf8 name)) false }]

def inDirectory (subtree : Tree SelfAddressed) : Tree SelfAddressed :=
  Tree.fromEntries [{ name := "d", target := .tree (.tree subtree) }]

theorem selfAddressedEnv_storedTreesValid : StoredTreesValid selfAddressedEnv := by
  intro hash tree hget
  cases hash with
  | blob content => cases hget
  | tree stored =>
    simp only [selfAddressedEnv, Except.ok.injEq, ite_none_right_eq_some] at hget
    cases hget.2
    exact hget.1

theorem selfAddressedEnv_keepsTrees (order : IterationOrder) (fuel : Nat)
    (baseTree ourTree theirTree : Tree SelfAddressed) (parent : String) :
    KeepsTrees selfAddressedEnv order fuel baseTree ourTree theirTree parent := by
  induction fuel generalizing baseTree ourTree theirTree parent with
  | zero => trivial
  | succ fuel ih =>
    intro name baseSub ourSub theirSub _ _ _ _ _ _ ⟨_, _, _, _, hbase⟩ ⟨_, _, _, _, hour⟩
      ⟨_, _, _, _, htheir⟩
    refine ⟨ih baseSub ourSub theirSub _, fun tree hrun => ⟨.tree tree, rfl, ?_⟩⟩
    have hvalid := threeWayMergeRecursive_valid (selfAddressedEnv_storedTreesValid _ _ hbase)
      (selfAddressedEnv_storedTreesValid _ _ hour) (selfAddressedEnv_storedTreesValid _ _ htheir) hrun
    simp only [selfAddressedEnv, if_pos hvalid]

theorem lookup_oneEntry (e : TreeEntry SelfAddressed) (name : String) (hne : e.name ≠ name) :
    (entryMap (Tree.fromEntries [e])).lookup name = none :=
  (AList.lookup_insert_ne hne.symm).trans (AList.lookup_empty name)

theorem inDirectory_holds (h : subtree.validate = .ok ()) :
    HoldsSubtree selfAddressedEnv ((entryMap (inDirectory subtree)).lookup "d") subtree := by
  refine ⟨_, AList.lookup_insert ∅, _, rfl, ?_⟩
  simp only [selfAddressedEnv, if_pos h]

theorem separate_twoFiles : Separate selfAddressedEnv 2 (inDirectory Tree.new)
    (inDirectory (oneFile "x")) (inDirectory (oneFile "y")) := by
  intro name
  by_cases hname : "d" = name
  · subst hname
    refine .inr (.inr (.inr ⟨_, _, _, inDirectory_holds (by decide), inDirectory_holds (by decide),
      inDirectory_holds (by decide), fun name => ?_⟩))
    by_cases hx : "x" = name
    · exact .inr (.inl (congrArg _ (lookup_oneEntry _ name (hx ▸ by decide))))
    · exact .inl (congrArg _ (lookup_oneEntry _ name hx))
  · exact .inl (congrArg _
      ((lookup_oneEntry _ name hname).trans (lookup_oneEntry _ name hname).symm))

/-- Two files that are added to one directory. -/
theorem mergeWithoutRenames_separate_twoFiles : ∃ tree,
    mergeWithoutRenames selfAddressedEnv 2 .asGiven (inDirectory Tree.new)
      (inDirectory (oneFile "x")) (inDirectory (oneFile "y")) = .ok (tree, []) ∧
    tree.validate = .ok () ∧ ∀ path leaf, HasLeaf selfAddressedEnv tree path leaf ↔
      ThreeWay (HasLeaf selfAddressedEnv (inDirectory Tree.new) path leaf)
        (HasLeaf selfAddressedEnv (inDirectory (oneFile "x")) path leaf)
        (HasLeaf selfAddressedEnv (inDirectory (oneFile "y")) path leaf) :=
  mergeWithoutRenames_separate selfAddressedEnv_storedTreesValid
    (selfAddressedEnv_keepsTrees .asGiven 2 _ _ _ "") (by decide) (by decide) (by decide)
    separate_twoFiles

end Witness

end Heddle.Merge
