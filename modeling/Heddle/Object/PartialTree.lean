import Heddle.Object.Encoding
import Heddle.Lib.MerkleTree

namespace Heddle
open Heddle.Lib
open List hiding Vector

def hexDigit (n : Nat) : Char := (Nat.digitChar n)

def ContentHash.toHex (hash : ContentHash) : String :=
  String.ofList (hash.asBytes.flatMap fun b => [hexDigit (b.toNat / 16), hexDigit (b.toNat % 16)])

def ContentHash.le (a b : ContentHash) : Prop :=
  a.asBytes.map UInt8.toNat ≤ b.asBytes.map UInt8.toNat

instance : DecidableRel ContentHash.le := fun a b =>
  inferInstanceAs (Decidable (a.asBytes.map UInt8.toNat ≤ b.asBytes.map UInt8.toNat))

section
variable (blake3 : Bytes → ContentHash)

def merkleEmpty : ContentHash := computeTyped blake3 treeEmptyPrefix []

def merkleNode (left right : ContentHash) : ContentHash :=
  computeTypedWithLen blake3 treeV4NodePrefix 64 (left.asBytes ++ right.asBytes)

def merkleTreeHash (leaves : List ContentHash) : ContentHash :=
  merkleRoot (merkleNode blake3) (merkleEmpty blake3) leaves

def merkleRootFromLeaves (leaves : List ContentHash) : ContentHash :=
  merkleTreeHash blake3 (leaves.insertionSort ContentHash.le)

def Tree.v4Leaves (t : Tree ContentHash) : List ContentHash :=
  t.salted.map (fun p => Tree.v4LeafHash blake3 p.1 p.2)

def Tree.merkleRootV4 (t : Tree ContentHash) : ContentHash :=
  merkleRootFromLeaves blake3 (t.v4Leaves blake3)

def Tree.hash (t : Tree ContentHash) : ContentHash :=
  match t.scheme with
  | .v3Flat => t.flatHashV3 blake3
  | .v4Salted => t.merkleRootV4 blake3

end

inductive PartialTreeLeaf where
  | visible (entry : TreeEntry ContentHash) (salt : Vector UInt8 32)
  | redacted (leafHash : ContentHash)
  deriving DecidableEq

structure PartialTree where
  declaredRoot : ContentHash
  leaves : List PartialTreeLeaf
  deriving DecidableEq

section
variable (blake3 : Bytes → ContentHash)

def PartialTreeLeaf.leafHash : PartialTreeLeaf → ContentHash
  | .visible entry salt => Tree.v4LeafHash blake3 entry salt
  | .redacted leafHash => leafHash

namespace PartialTree

def reconstructRoot (p : PartialTree) : ContentHash :=
  merkleRootFromLeaves blake3 (p.leaves.map (PartialTreeLeaf.leafHash blake3))

def verify (p : PartialTree) : Except TreeError Unit :=
  let found := p.reconstructRoot blake3
  if found ≠ p.declaredRoot then
    .error (.invalidStructure ("partial tree reconstructs " ++ found.toHex ++ " but declares " ++
      p.declaredRoot.toHex))
  else .ok ()

def fromLeavesVerified (declaredRoot : ContentHash) (leaves : List PartialTreeLeaf) :
    Except TreeError PartialTree :=
  match verify blake3 { declaredRoot, leaves } with
  | .error err => .error err
  | .ok () => .ok { declaredRoot, leaves }

def project (t : Tree ContentHash) (redacted : List ContentHash) :
    Except TreeError PartialTree :=
  if t.scheme ≠ .v4Salted then
    .error (.invalidStructure "cannot project a redacted tree from a non-v4 tree")
  else
    match t.validate with
    | .error err => .error err
    | .ok () => .ok {
        declaredRoot := t.hash blake3
        leaves := t.salted.map fun p =>
          if Tree.v4LeafHash blake3 p.1 p.2 ∈ redacted then
            .redacted (Tree.v4LeafHash blake3 p.1 p.2)
          else .visible p.1 p.2 }

end PartialTree

/-- What a leaf of a projection may say about a salted entry. -/
inductive PartialTreeLeaf.Shows :
    PartialTreeLeaf → TreeEntry ContentHash × Vector UInt8 32 → Prop where
  | visible (entry : TreeEntry ContentHash) (salt : Vector UInt8 32) :
      Shows (.visible entry salt) (entry, salt)
  | redacted (entry : TreeEntry ContentHash) (salt : Vector UInt8 32) :
      Shows (.redacted (Tree.v4LeafHash blake3 entry salt)) (entry, salt)

namespace PartialTree

/-- One leaf for each entry of the tree, visible as it is or hidden behind its own leaf hash. -/
def AccountsFor (p : PartialTree) (t : Tree ContentHash) : Prop :=
  p.leaves.length = t.entries.length ∧
    ∃ shown, shown.Perm t.salted ∧ List.Forall₂ (PartialTreeLeaf.Shows blake3) p.leaves shown

def redactedHashes (p : PartialTree) : List ContentHash :=
  p.leaves.filterMap fun leaf =>
    match leaf with
    | .visible .. => none
    | .redacted leafHash => some leafHash

def visibleEntries (p : PartialTree) : List (TreeEntry ContentHash × Vector UInt8 32) :=
  p.leaves.filterMap fun leaf =>
    match leaf with
    | .visible entry salt => some (entry, salt)
    | .redacted _ => none

theorem verify_ok_iff (p : PartialTree) :
    p.verify blake3 = .ok () ↔ p.reconstructRoot blake3 = p.declaredRoot := by
  simp only [verify]
  split
  · rename_i hne
    exact ⟨fun h => (nomatch h), fun h => absurd h hne⟩
  · rename_i heq
    exact ⟨fun _ => not_not.1 heq, fun _ => rfl⟩

theorem leafHash_shows {leaf : PartialTreeLeaf} (h : leaf.Shows blake3 p) :
    leaf.leafHash blake3 = Tree.v4LeafHash blake3 p.1 p.2 := by
  cases h <;> rfl

end PartialTree

theorem nodePrefix_ne_leafPrefix : treeV4NodePrefix ≠ treeV4LeafPrefix := by decide

theorem nodePrefix_ne_emptyPrefix : treeV4NodePrefix ≠ treeEmptyPrefix := by decide

section Streams

def typedHasher (typePrefix : String) (contentLen : Nat) : Bytes :=
  utf8 typePrefix ++ leBytes 8 contentLen ++ [0]

def typedStream (typePrefix : String) (content : Bytes) : Bytes :=
  typedHasher typePrefix content.length ++ content

def PrintableAscii (s : String) : Prop := ∀ b ∈ utf8 s, 32 ≤ b.toNat ∧ b.toNat < 127

instance (s : String) : Decidable (PrintableAscii s) :=
  List.decidableBAll _ (utf8 s)

theorem typedStream_eq (typePrefix : String) (content : Bytes) :
    typedStream typePrefix content =
      utf8 typePrefix ++ (leBytes 8 content.length ++ 0 :: content) := by
  rw [typedStream, typedHasher, append_assoc, append_assoc]
  rfl

/-- The low byte of a length makes up for a prefix that is longer by a few bytes only when it is no
printable one, and the other bytes of the length and the zero then repeat that prefix. -/
theorem longer_prefix_nil (h : leBytes 8 x.length ++ 0 :: x = r ++ (leBytes 8 y.length ++ 0 :: y))
    (hr : ∀ b ∈ r, 32 ≤ b.toNat) : r = [] := by
  cases r with
  | nil => rfl
  | cons c r =>
    exfalso
    have hlen := congrArg List.length h
    simp only [length_append, length_cons, length_leBytes] at hlen
    obtain ⟨hc, hr⟩ := forall_mem_cons.1 hr
    obtain ⟨hfirst, hrest⟩ := cons.inj h
    rw [← hfirst, UInt8.toNat_ofNat', Nat.mod_mod] at hc
    have hword : (leBytes 7 (x.length / 256) ++ [0]) ++ x =
        r ++ (leBytes 8 y.length ++ 0 :: y) := by
      rw [append_assoc]
      exact hrest
    by_cases hshort : r.length ≤ 7
    · have hdiv : x.length / 256 = y.length / 256 := by omega
      rw [hdiv] at hword
      have hshift : (leBytes 7 (y.length / 256) ++ [0]) ++ x = (r ++ [UInt8.ofNat (y.length % 256)]) ++
          ((leBytes 7 (y.length / 256) ++ [0]) ++ y) := by
        rw [hword]
        simp only [leBytes, append_assoc, cons_append, nil_append]
      have hall := forall_of_shift (p := fun b => b ≠ 0) hshift (by simp) ?_ 0 (by simp)
      · exact hall rfl
      · intro b hb hzero
        subst hzero
        rcases mem_append.1 hb with hb | hb
        · exact absurd (hr 0 hb) (by decide)
        · have hlow := congrArg UInt8.toNat (mem_singleton.1 hb)
          rw [UInt8.toNat_ofNat', Nat.mod_mod] at hlow
          change 0 = _ at hlow
          omega
    · have hword' : leBytes 7 (x.length / 256) ++ [0] <+: _ :=
        prefix_of_prefix_length_le (prefix_append _ x) (hword ▸ prefix_append r _) (by simp; omega)
      exact absurd (hr 0 (hword'.subset (by simp))) (by decide)

theorem typedStream_inj (hp : PrintableAscii p) (hq : PrintableAscii q)
    (h : typedStream p x = typedStream q y) : p = q ∧ x = y := by
  rw [typedStream_eq, typedStream_eq] at h
  have hsame : utf8 p = utf8 q := by
    rcases append_eq_append_iff.1 h with ⟨rest, hrest, heq⟩ | ⟨rest, hrest, heq⟩
    · have hnil := longer_prefix_nil heq fun b hb => (hq b (hrest ▸ mem_append_right _ hb)).1
      rw [hrest, hnil, append_nil]
    · have hnil := longer_prefix_nil heq fun b hb => (hp b (hrest ▸ mem_append_right _ hb)).1
      rw [hrest, hnil, append_nil]
  rw [hsame] at h
  obtain ⟨_, hcontent⟩ := append_inj (append_cancel_left h) (by simp)
  exact ⟨utf8_injective hsame, (cons.inj hcontent).2⟩

def leafStream (e : TreeEntry ContentHash) (salt : Vector UInt8 32) : Bytes :=
  typedStream treeV4LeafPrefix (Tree.v4LeafPreimage e salt)

def nodeStream (left right : ContentHash) : Bytes :=
  typedHasher treeV4NodePrefix 64 ++ (left.asBytes ++ right.asBytes)

theorem v4LeafHash_stream (e : TreeEntry ContentHash) (salt : Vector UInt8 32) :
    Tree.v4LeafHash blake3 e salt = blake3 (leafStream e salt) := rfl

theorem merkleNode_stream (left right : ContentHash) :
    merkleNode blake3 left right = blake3 (nodeStream left right) := rfl

theorem nodeStream_eq (left right : ContentHash) :
    nodeStream left right = typedStream treeV4NodePrefix (left.asBytes ++ right.asBytes) := by
  rw [nodeStream, typedStream, length_append, ContentHash.asBytes_length,
    ContentHash.asBytes_length]

/-- Types and contents are told apart by what is hashed, those of leaves and of nodes among them. -/
theorem typedStreams_separate :
    (∀ p q x y, PrintableAscii p → PrintableAscii q → typedStream p x = typedStream q y →
      p = q ∧ x = y) ∧
    (∀ e salt e' salt', leafStream e salt = leafStream e' salt' →
      Tree.v4LeafPreimage e salt = Tree.v4LeafPreimage e' salt') ∧
    (∀ left right left' right', nodeStream left right = nodeStream left' right' →
      left = left' ∧ right = right') ∧
    ∀ e salt left right, leafStream e salt ≠ nodeStream left right := by
  have hleaf : PrintableAscii treeV4LeafPrefix := by decide
  have hnode : PrintableAscii treeV4NodePrefix := by decide
  refine ⟨fun p q x y hp hq h => typedStream_inj hp hq h, ?_, ?_, ?_⟩
  · intro e salt e' salt' h
    exact (typedStream_inj hleaf hleaf h).2
  · intro left right left' right' h
    rw [nodeStream_eq, nodeStream_eq] at h
    obtain ⟨hleft, hright⟩ := append_inj (typedStream_inj hnode hnode h).2
      (left.asBytes_length.trans left'.asBytes_length.symm)
    exact ⟨ContentHash.asBytes_injective hleft, ContentHash.asBytes_injective hright⟩
  · intro e salt left right h
    rw [nodeStream_eq] at h
    exact nodePrefix_ne_leafPrefix (typedStream_inj hleaf hnode h).1.symm

theorem typedStreams_separate_nodes :
    let left : ContentHash := ⟨Vector.replicate 32 1⟩
    let right : ContentHash := ⟨Vector.replicate 32 2⟩
    treeV4NodePrefix = treeV4NodePrefix ∧
      left.asBytes ++ right.asBytes = replicate 32 1 ++ replicate 32 2 := by
  intro left right
  have hstream : typedStream treeV4NodePrefix (left.asBytes ++ right.asBytes) =
      typedStream treeV4NodePrefix (replicate 32 1 ++ replicate 32 2) := by decide +kernel
  exact typedStreams_separate.1 treeV4NodePrefix treeV4NodePrefix (left.asBytes ++ right.asBytes)
    (replicate 32 1 ++ replicate 32 2) (by decide) (by decide) hstream

end Streams

def leafInput (p : TreeEntry ContentHash × Vector UInt8 32) : String × Bytes :=
  (treeV4LeafPrefix, Tree.v4LeafPreimage p.1 p.2)

def merkleInputs (leaves : List ContentHash) : List (String × Bytes) :=
  (treeEmptyPrefix, []) ::
    (merkleChildren (merkleNode blake3) (merkleEmpty blake3)
      (leaves.insertionSort ContentHash.le)).map
        (fun p => (treeV4NodePrefix, p.1.asBytes ++ p.2.asBytes))

namespace PartialTree

def hashInputs (p : PartialTree) (t : Tree ContentHash) : List (String × Bytes) :=
  t.salted.map leafInput ++ p.visibleEntries.map leafInput ++
    merkleInputs blake3 (t.v4Leaves blake3) ++
    merkleInputs blake3 (p.leaves.map (PartialTreeLeaf.leafHash blake3))

/-- The typed hash tells the inputs of the tree and of its projection apart. -/
def TypedHashInjective (p : PartialTree) (t : Tree ContentHash) : Prop :=
  Set.InjOn (fun i : String × Bytes => computeTyped blake3 i.1 i.2)
    {i | i ∈ p.hashInputs blake3 t}

end PartialTree

/-- The values of the Merkle nodes of a salted tree that are not its leaves. -/
def Tree.innerHashes (t : Tree ContentHash) : List ContentHash :=
  merkleInner (merkleNode blake3) (merkleEmpty blake3)
    ((t.v4Leaves blake3).insertionSort ContentHash.le)

theorem merkleNode_eq (left right : ContentHash) :
    merkleNode blake3 left right =
      computeTyped blake3 treeV4NodePrefix (left.asBytes ++ right.asBytes) := by
  rw [merkleNode, computeTyped, length_append, ContentHash.asBytes_length,
    ContentHash.asBytes_length]

theorem merkleInputs_of_children (h : c ∈ merkleChildren (merkleNode blake3) (merkleEmpty blake3)
      (leaves.insertionSort ContentHash.le)) :
    (treeV4NodePrefix, c.1.asBytes ++ c.2.asBytes) ∈ merkleInputs blake3 leaves :=
  mem_cons_of_mem _ (mem_map.2 ⟨c, h, rfl⟩)

theorem merkleInner_input (h : x ∈ merkleInner (merkleNode blake3) (merkleEmpty blake3)
      (leaves.insertionSort ContentHash.le)) :
    ∃ i ∈ merkleInputs blake3 leaves, i.1 ≠ treeV4LeafPrefix ∧
      computeTyped blake3 i.1 i.2 = x := by
  rw [merkleInner] at h
  split at h
  · obtain rfl := mem_singleton.1 h
    exact ⟨(treeEmptyPrefix, []), mem_cons_self, by decide, rfl⟩
  · obtain ⟨c, hc, rfl⟩ := mem_map.1 h
    exact ⟨_, merkleInputs_of_children blake3 hc, nodePrefix_ne_leafPrefix,
      (merkleNode_eq blake3 c.1 c.2).symm⟩

section
variable {blake3} {p : PartialTree} {t : Tree ContentHash}

namespace PartialTree

theorem leafInput_mem_tree (h : e ∈ t.salted) : leafInput e ∈ p.hashInputs blake3 t := by
  simp only [hashInputs, mem_append]
  exact .inl (.inl (.inl (mem_map.2 ⟨e, h, rfl⟩)))

theorem leafInput_mem_visible (h : e ∈ p.visibleEntries) :
    leafInput e ∈ p.hashInputs blake3 t := by
  simp only [hashInputs, mem_append]
  exact .inl (.inl (.inr (mem_map.2 ⟨e, h, rfl⟩)))

theorem merkleInputs_mem_tree (h : i ∈ merkleInputs blake3 (t.v4Leaves blake3)) :
    i ∈ p.hashInputs blake3 t := by
  simp only [hashInputs, mem_append]
  exact .inl (.inr h)

theorem merkleInputs_mem_projection
    (h : i ∈ merkleInputs blake3 (p.leaves.map (PartialTreeLeaf.leafHash blake3))) :
    i ∈ p.hashInputs blake3 t := by
  simp only [hashInputs, mem_append]
  exact .inr h

theorem TypedHashInjective.leaf_ne_inner (hinj : p.TypedHashInjective blake3 t)
    (he : leafInput e ∈ p.hashInputs blake3 t) {leaves : List ContentHash}
    (hsub : ∀ i ∈ merkleInputs blake3 leaves, i ∈ p.hashInputs blake3 t) :
    Tree.v4LeafHash blake3 e.1 e.2 ∉ merkleInner (merkleNode blake3) (merkleEmpty blake3)
      (leaves.insertionSort ContentHash.le) := by
  intro hmem
  obtain ⟨i, hi, hprefix, hvalue⟩ := merkleInner_input blake3 hmem
  exact hprefix (congrArg Prod.fst (hinj (hsub i hi) he hvalue))

theorem visible_mem (h : PartialTreeLeaf.visible e salt ∈ p.leaves) :
    (e, salt) ∈ p.visibleEntries := mem_filterMap.2 ⟨_, h, rfl⟩

theorem redacted_mem (h : PartialTreeLeaf.redacted withheld ∈ p.leaves) :
    withheld ∈ p.redactedHashes := mem_filterMap.2 ⟨_, h, rfl⟩

theorem sortedLeaves_eq (hinj : p.TypedHashInjective blake3 t)
    (hroot : p.reconstructRoot blake3 = t.merkleRootV4 blake3)
    (hhidden : ∀ withheld ∈ p.redactedHashes, withheld ∉ t.innerHashes blake3) :
    (p.leaves.map (PartialTreeLeaf.leafHash blake3)).insertionSort ContentHash.le =
      (t.v4Leaves blake3).insertionSort ContentHash.le := by
  have hchildren : ∀ c, c ∈ merkleChildren (merkleNode blake3) (merkleEmpty blake3)
        ((p.leaves.map (PartialTreeLeaf.leafHash blake3)).insertionSort ContentHash.le) ∨
      c ∈ merkleChildren (merkleNode blake3) (merkleEmpty blake3)
        ((t.v4Leaves blake3).insertionSort ContentHash.le) →
      (treeV4NodePrefix, c.1.asBytes ++ c.2.asBytes) ∈ p.hashInputs blake3 t := by
    intro c hc
    rcases hc with hc | hc
    · exact merkleInputs_mem_projection (merkleInputs_of_children blake3 hc)
    · exact merkleInputs_mem_tree (merkleInputs_of_children blake3 hc)
  apply merkleRoot_inj (merkleNode blake3) (merkleEmpty blake3) _ _ _ _ hroot
  · intro c hc d hd hnode
    simp only [merkleNode_eq] at hnode
    have hpair := congrArg Prod.snd (hinj (hchildren c hc) (hchildren d hd) hnode)
    obtain ⟨hl, hr⟩ := append_inj hpair (by simp)
    exact Prod.ext (ContentHash.asBytes_injective hl) (ContentHash.asBytes_injective hr)
  · intro c hc hnode
    rw [merkleNode_eq] at hnode
    have hinput : (treeEmptyPrefix, ([] : Bytes)) ∈ p.hashInputs blake3 t :=
      merkleInputs_mem_tree mem_cons_self
    exact nodePrefix_ne_emptyPrefix (congrArg Prod.fst (hinj (hchildren c hc) hinput hnode))
  · intro x hx
    obtain ⟨leaf, hleaf, rfl⟩ := mem_map.1 ((mem_insertionSort _).1 hx)
    cases leaf with
    | visible entry salt =>
      exact hinj.leaf_ne_inner (e := (entry, salt)) (leafInput_mem_visible (visible_mem hleaf))
        (fun i hi => merkleInputs_mem_tree hi)
    | redacted withheld => exact hhidden withheld (redacted_mem hleaf)
  · intro x hx
    obtain ⟨e, he, rfl⟩ := mem_map.1 ((mem_insertionSort _).1 hx)
    exact hinj.leaf_ne_inner (leafInput_mem_tree he) (fun i hi => merkleInputs_mem_projection hi)

end PartialTree
end

section
variable {p : PartialTree} {t : Tree ContentHash}

namespace PartialTree

theorem salted_valid (hvalid : t.validate = .ok ()) (h : e ∈ t.salted) :
    e.1.validate = .ok () :=
  (Tree.validate_entries hvalid).1 e.1 (of_mem_zip h).1

theorem salted_length (hvalid : t.validate = .ok ()) (hscheme : t.scheme = .v4Salted) :
    t.salted.length = t.entries.length := by
  have hcount : t.salts.length = t.entries.length := by
    by_contra hne
    simp [Tree.validate, Tree.validateScheme, hscheme, hne] at hvalid
  rw [Tree.salted, length_zip, hcount, Nat.min_self]

theorem shows_of_leafHash (hinj : p.TypedHashInjective blake3 t)
    (hvalid : t.validate = .ok ()) (hentries : ∀ e ∈ p.visibleEntries, e.1.validate = .ok ())
    (hleaf : leaf ∈ p.leaves) (he : e ∈ t.salted)
    (h : leaf.leafHash blake3 = Tree.v4LeafHash blake3 e.1 e.2) : leaf.Shows blake3 e := by
  cases leaf with
  | redacted withheld =>
    obtain rfl : withheld = Tree.v4LeafHash blake3 e.1 e.2 := h
    exact .redacted e.1 e.2
  | visible entry salt =>
    have hvisible := visible_mem hleaf
    have hinput := hinj (leafInput_mem_visible hvisible) (leafInput_mem_tree he) h
    obtain ⟨hentry, hsalt⟩ := Tree.v4LeafPreimage_inj (hentries _ hvisible)
      (salted_valid hvalid he) (congrArg Prod.snd hinput)
    have heq : e = (entry, salt) := Prod.ext hentry.symm hsalt.symm
    rw [heq]
    exact .visible entry salt

/-- A projection that verifies against a salted tree accounts for its entries unless it hides an
inner node of the tree as if it were a leaf. -/
theorem verified_accountsFor_iff (p : PartialTree) (t : Tree ContentHash)
    (hvalid : t.validate = .ok ()) (hscheme : t.scheme = .v4Salted)
    (hentries : ∀ e ∈ p.visibleEntries, e.1.validate = .ok ())
    (hinj : p.TypedHashInjective blake3 t)
    (hverify : p.verify blake3 = .ok ()) (hroot : p.declaredRoot = t.hash blake3) :
    p.AccountsFor blake3 t ↔
      ∀ withheld ∈ p.redactedHashes, withheld ∉ t.innerHashes blake3 := by
  have hhash : t.hash blake3 = t.merkleRootV4 blake3 := by rw [Tree.hash, hscheme]
  constructor
  · rintro ⟨_, shown, hperm, hshows⟩ withheld hmem hin
    obtain ⟨leaf, hleaf, hsome⟩ := mem_filterMap.1 hmem
    cases leaf with
    | visible entry salt => cases hsome
    | redacted leafHash =>
      obtain rfl : leafHash = withheld := Option.some.inj hsome
      obtain ⟨e, he, hshow⟩ := exists_of_forall₂_mem hshows hleaf
      have hvalue := leafHash_shows blake3 hshow
      have heT : e ∈ t.salted := hperm.mem_iff.1 he
      apply hinj.leaf_ne_inner (leafInput_mem_tree heT) (fun i hi => merkleInputs_mem_tree hi)
      rw [← hvalue]
      exact hin
  · intro hhidden
    have hsame := sortedLeaves_eq hinj
      (((verify_ok_iff blake3 p).1 hverify).trans (hroot.trans hhash)) hhidden
    have hperm : (t.salted.map (fun e => Tree.v4LeafHash blake3 e.1 e.2)).Perm
        (p.leaves.map (PartialTreeLeaf.leafHash blake3)) :=
      (perm_insertionSort _ _).symm.trans (hsame ▸ perm_insertionSort _ _)
    obtain ⟨shown, hshown, hmap⟩ := exists_perm_of_map_perm hperm
    have hshows : List.Forall₂ (PartialTreeLeaf.Shows blake3) p.leaves shown := by
      apply forall₂_of_map_eq hmap.symm
      intro leaf hleaf e he hvalue
      exact shows_of_leafHash blake3 hinj hvalid hentries hleaf (hshown.mem_iff.1 he) hvalue
    refine ⟨?_, shown, hshown, hshows⟩
    rw [List.Forall₂.length_eq hshows, List.Perm.length_eq hshown, salted_length hvalid hscheme]


theorem project_verify (h : project blake3 t withheld = .ok p) : p.verify blake3 = .ok () := by
  simp only [project] at h
  split at h
  · cases h
  · rename_i hscheme
    split at h
    · cases h
    · cases h
      rw [verify_ok_iff, reconstructRoot, map_map]
      simp only [Tree.hash, not_not.1 hscheme, Tree.merkleRootV4, Tree.v4Leaves]
      congr 1
      apply map_congr_left
      intro e _
      simp only [Function.comp]
      split <;> rfl

def lengthHash (bytes : Bytes) : ContentHash :=
  ⟨⟨(leBytes 32 bytes.length).toArray, by simp⟩⟩

def polyHash (bytes : Bytes) : ContentHash :=
  ⟨Vector.replicate 32 (bytes.foldl (fun sum byte => 31 * sum + byte) 7)⟩

def zeroHash : ContentHash := ⟨Vector.replicate 32 0⟩

def twoFiles : Tree ContentHash where
  entries := [{ name := "a", target := .blob zeroHash false },
    { name := "bb", target := .blob zeroHash false }]
  scheme := .v4Salted
  salts := [Vector.replicate 32 0, Vector.replicate 32 0]

theorem lengthHash_inj {i j : String × Bytes}
    (hi : (utf8 i.1).length + 9 + i.2.length < 256) (hj : (utf8 j.1).length + 9 + j.2.length < 256)
    (h : computeTyped lengthHash i.1 i.2 = computeTyped lengthHash j.1 j.2) :
    (utf8 i.1).length + i.2.length = (utf8 j.1).length + j.2.length := by
  have hbytes := congrArg (fun hash => ofLeBytes hash.asBytes) h
  simp only [computeTyped, computeTypedWithLen, lengthHash, ContentHash.asBytes,
    Vector.toList_mk, length_append, length_leBytes,
    length_cons, length_nil] at hbytes
  rw [ofLeBytes_leBytes (lt_trans (by omega) (by decide : 256 < 256 ^ 32)),
    ofLeBytes_leBytes (lt_trans (by omega) (by decide : 256 < 256 ^ 32))] at hbytes
  omega

theorem merkleInputs_singleton (x : ContentHash) :
    merkleInputs blake3 [x] = [(treeEmptyPrefix, [])] := by
  rw [merkleInputs, insertionSort_cons, merkleChildren, if_neg (by simp)]
  rfl

theorem merkleInputs_pair (x y : ContentHash) :
    ∃ content : Bytes, content.length = 64 ∧
      merkleInputs blake3 [x, y] = [(treeEmptyPrefix, []), (treeV4NodePrefix, content)] := by
  have hpair : ∀ a b : ContentHash,
      merkleChildren (merkleNode blake3) (merkleEmpty blake3) [a, b] = [(a, b)] := by
    intro a b
    have hleft : merkleLeft [a, b] = [a] := rfl
    have hright : merkleRight [a, b] = [b] := rfl
    have hleaf : ∀ c, merkleChildren (merkleNode blake3) (merkleEmpty blake3) [c] = [] := by
      intro c
      rw [merkleChildren, if_neg (by simp)]
    rw [merkleChildren_of_two_le _ _ (by simp), hleft, hright, merkleRoot_singleton,
      merkleRoot_singleton, hleaf, hleaf]
    rfl
  have hsort : [x, y].insertionSort ContentHash.le = [x, y] ∨
      [x, y].insertionSort ContentHash.le = [y, x] := by
    have hone : [y].insertionSort ContentHash.le = [y] := rfl
    rw [insertionSort_cons, hone, orderedInsert_cons]
    split
    · exact .inl rfl
    · exact .inr rfl
  rcases hsort with hs | hs
  · exact ⟨x.asBytes ++ y.asBytes, by simp, by rw [merkleInputs, hs, hpair]; rfl⟩
  · exact ⟨y.asBytes ++ x.asBytes, by simp, by rw [merkleInputs, hs, hpair]; rfl⟩

theorem twoFiles_injective (hvisible : p.visibleEntries ⊆ twoFiles.salted)
    (hinputs : merkleInputs lengthHash (p.leaves.map (PartialTreeLeaf.leafHash lengthHash)) ⊆
      merkleInputs lengthHash (twoFiles.v4Leaves lengthHash)) :
    p.TypedHashInjective lengthHash twoFiles := by
  obtain ⟨content, hlen, hmerkle⟩ : ∃ content : Bytes, content.length = 64 ∧
      merkleInputs lengthHash (twoFiles.v4Leaves lengthHash) =
        [(treeEmptyPrefix, []), (treeV4NodePrefix, content)] :=
    merkleInputs_pair lengthHash _ _
  have hall : ∀ i ∈ p.hashInputs lengthHash twoFiles,
      i ∈ twoFiles.salted.map leafInput ++ [(treeEmptyPrefix, []), (treeV4NodePrefix, content)] := by
    intro i hi
    simp only [hashInputs, mem_append] at hi
    rw [mem_append]
    rcases hi with ((hi | hi) | hi) | hi
    · exact .inl hi
    · exact .inl (map_subset _ hvisible hi)
    · exact .inr (hmerkle ▸ hi)
    · exact .inr (hmerkle ▸ hinputs hi)
  have hlist : twoFiles.salted.map leafInput ++
      [(treeEmptyPrefix, []), (treeV4NodePrefix, content)] =
        [leafInput (twoFiles.salted[0]), leafInput (twoFiles.salted[1]), (treeEmptyPrefix, []),
          (treeV4NodePrefix, content)] := rfl
  have hsizes : (utf8 treeV4LeafPrefix).length = 12 ∧ (utf8 treeV4NodePrefix).length = 12 ∧
      (utf8 treeEmptyPrefix).length = 4 ∧
      (Tree.v4LeafPreimage (twoFiles.salted[0]).1 (twoFiles.salted[0]).2).length = 69 ∧
      (Tree.v4LeafPreimage (twoFiles.salted[1]).1 (twoFiles.salted[1]).2).length = 70 := by
    decide
  obtain ⟨hleaf, hnode, hempty, hfirst, hsecond⟩ := hsizes
  intro i hi j hj heq
  have hi := hlist ▸ hall i hi
  have hj := hlist ▸ hall j hj
  simp only [mem_cons, not_mem_nil, or_false] at hi hj
  rcases hi with rfl | rfl | rfl | rfl <;> rcases hj with rfl | rfl | rfl | rfl
  all_goals first
    | rfl
    | (have hcontra := lengthHash_inj (by simp only [leafInput]; simp only [*]; simp)
        (by simp only [leafInput]; simp only [*]; simp) heq
       simp only [leafInput] at hcontra
       simp only [*] at hcontra
       simp at hcontra)

def collapsed : PartialTree where
  declaredRoot := twoFiles.hash lengthHash
  leaves := [.redacted (twoFiles.hash lengthHash)]

theorem collapsed_verifies : collapsed.verify lengthHash = .ok () := by
  rw [verify_ok_iff]
  exact merkleRoot_singleton _ _ _

theorem verified_not_accountsFor :
    ¬ ∀ (blake3 : Bytes → ContentHash) (t : Tree ContentHash) (p : PartialTree),
      t.validate = .ok () → t.scheme = .v4Salted →
      (∀ e ∈ p.visibleEntries, e.1.validate = .ok ()) → p.TypedHashInjective blake3 t →
      p.verify blake3 = .ok () → p.declaredRoot = t.hash blake3 → p.AccountsFor blake3 t := by
  intro hclaim
  have hinj : collapsed.TypedHashInjective lengthHash twoFiles := by
    apply twoFiles_injective (nil_subset _)
    rw [show collapsed.leaves.map (PartialTreeLeaf.leafHash lengthHash) =
      [twoFiles.hash lengthHash] from rfl, merkleInputs_singleton]
    exact cons_subset.2 ⟨mem_cons_self, nil_subset _⟩
  have hcount := (hclaim lengthHash twoFiles collapsed (by decide) rfl (fun e he => nomatch he)
    hinj collapsed_verifies rfl).1
  exact absurd hcount (by decide)

def firstHidden : PartialTree where
  declaredRoot := twoFiles.hash lengthHash
  leaves := [.redacted (Tree.v4LeafHash lengthHash { name := "a", target := .blob zeroHash false }
      (Vector.replicate 32 0)),
    .visible { name := "bb", target := .blob zeroHash false } (Vector.replicate 32 0)]

theorem verified_accountsFor_firstHidden :
    firstHidden.AccountsFor lengthHash twoFiles ↔
      ∀ withheld ∈ firstHidden.redactedHashes, withheld ∉ twoFiles.innerHashes lengthHash :=
  verified_accountsFor_iff lengthHash firstHidden twoFiles (by decide) rfl (by decide)
    (twoFiles_injective (by decide) (List.Subset.refl _)) ((verify_ok_iff _ _).2 rfl) rfl

end PartialTree
end

end
end Heddle
