import Heddle.Object.CanonicalBody
import Heddle.Lib.SelfDelimiting

namespace Heddle
open Heddle.Lib List

/-- All the bytes that a flat tree feeds to the hasher. -/
def Tree.flatStream (t : Tree ContentHash) : Bytes :=
  utf8 treeEmptyPrefix ++ leBytes 8 (t.positioned.map (fun p => p.1.encodedLen p.2)).sum ++ [0] ++
    t.positioned.flatMap (fun p => p.1.updateHasher p.2)

theorem length_le_of_sep {sep : α} (hx : sep ∉ xs) (h : xs ++ xs' = front ++ sep :: back) :
    xs.length ≤ front.length := by
  by_contra hlt
  have hlt := Nat.lt_of_not_le hlt
  have hget := congrArg (fun l : List α => l[front.length]?) h
  simp only [getElem?_append_left hlt, getElem?_append_right (Nat.le_refl _),
    Nat.sub_self, getElem?_cons_zero] at hget
  exact hx (mem_of_getElem? hget)

/-- A spool id is too short to reach over the null byte behind the name of another entry, so its
written length tells its length. -/
theorem spool_length_eq (hname : name.length ≤ 65535) (hname' : name'.length ≤ 65535)
    (h : (.spoollink spoolId stateId : TreeEntryTarget ContentHash).payload ++ (name ++ 0 :: rest) =
      (.spoollink spoolId' stateId' : TreeEntryTarget ContentHash).payload ++
        (name' ++ 0 :: rest')) :
    (utf8 spoolId.text).length = (utf8 spoolId'.text).length := by
  have hmod := TreeEntryTarget.spool_length_mod h
  simp only [TreeEntryTarget.payload, append_assoc] at h
  obtain ⟨_, h⟩ := append_inj h (by simp)
  have hstate : stateId.bytes.toList.length = 32 := stateId.bytes.length_toList
  have hstate' : stateId'.bytes.toList.length = 32 := stateId'.bytes.length_toList
  have hle : (utf8 spoolId.text).length ≤
      (utf8 spoolId'.text ++ (stateId'.bytes.toList ++ name')).length := by
    have hshape : utf8 spoolId.text ++ (stateId.bytes.toList ++ (name ++ 0 :: rest)) =
        (utf8 spoolId'.text ++ (stateId'.bytes.toList ++ name')) ++ 0 :: rest' := by
      simp only [append_assoc]
      exact h
    exact length_le_of_sep (spoolId_no_zero spoolId) hshape
  have hle' : (utf8 spoolId'.text).length ≤
      (utf8 spoolId.text ++ (stateId.bytes.toList ++ name)).length := by
    have hshape : utf8 spoolId'.text ++ (stateId'.bytes.toList ++ (name' ++ 0 :: rest')) =
        (utf8 spoolId.text ++ (stateId.bytes.toList ++ name)) ++ 0 :: rest := by
      simp only [append_assoc]
      exact h.symm
    exact length_le_of_sep (spoolId_no_zero spoolId') hshape
  simp only [length_append] at hle hle'
  omega

theorem positionBytes_inj (hsome : p.isSome = p'.isSome)
    (h : TreeEntry.positionBytes p = TreeEntry.positionBytes p') : p = p' := by
  cases p with
  | none =>
    cases p' with
    | none => rfl
    | some q => cases hsome
  | some q =>
    cases p' with
    | none => cases hsome
    | some q' =>
      have hnat := leBytes_inj q.toNat_lt q'.toNat_lt h
      rw [UInt32.toNat_inj.1 hnat]

theorem layoutTrailer_inj {e e' : TreeEntry ContentHash}
    (hraw : e.gitMode.isSome = e'.gitMode.isSome) (hpos : p.isSome = p'.isSome)
    (h : e.layoutTrailer p ++ rest = e'.layoutTrailer p' ++ rest') :
    e.gitMode = e'.gitMode ∧ p = p' ∧ rest = rest' := by
  have hlen : (TreeEntry.positionBytes p).length = (TreeEntry.positionBytes p').length := by
    cases p with
    | none =>
      cases p' with
      | none => rfl
      | some q => cases hpos
    | some q =>
      cases p' with
      | none => cases hpos
      | some q' =>
        rw [TreeEntry.positionBytes, TreeEntry.positionBytes, length_leBytes, length_leBytes]
  unfold TreeEntry.layoutTrailer at h
  cases hm : e.gitMode with
  | none =>
    rw [hm] at hraw h
    have hm' : e'.gitMode = none :=
      Option.isNone_iff_eq_none.1 (Option.isSome_eq_false_iff.1 hraw.symm)
    rw [hm'] at h
    obtain ⟨hposition, hrest⟩ := append_inj h hlen
    exact ⟨hm'.symm, positionBytes_inj hpos hposition, hrest⟩
  | some mode =>
    rw [hm] at hraw h
    obtain ⟨mode', hm'⟩ := Option.isSome_iff_exists.1 hraw.symm
    rw [hm'] at h
    simp only [append_assoc] at h
    obtain ⟨hmode, h⟩ := append_inj h (by simp)
    obtain ⟨hposition, hrest⟩ := append_inj h hlen
    exact ⟨by rw [hm', TreeEntry.rawModeBytes_injective hmode], positionBytes_inj hpos hposition,
      hrest⟩

theorem updateHasher_inj {e e' : TreeEntry ContentHash} (he : e.validate = .ok ())
    (he' : e'.validate = .ok ()) (h : e.updateHasher p ++ rest = e'.updateHasher p' ++ rest') :
    e = e' ∧ p = p' ∧ rest = rest' := by
  have hname := TreeEntry.validate_name he
  have hname' := TreeEntry.validate_name he'
  simp only [TreeEntry.updateHasher, TreeEntryTarget.writePayload, append_assoc,
    cons_append, List.cons.injEq] at h
  obtain ⟨hbyte, hkind, h⟩ := h
  obtain ⟨hmode, hraw, hpos⟩ := TreeEntry.modeByte_inj hbyte
  obtain ⟨htarget, h⟩ := TreeEntryTarget.eq_of_payload (EntryType.toByte_injective hkind) hmode
    (by
      intro spoolId stateId spoolId' stateId' htarget htarget'
      rw [htarget, htarget'] at h
      exact spool_length_eq (validateName_length hname) (validateName_length hname') h) h
  obtain ⟨htext, h⟩ := append_sep_inj (validateName_no_zero hname) (validateName_no_zero hname') h
  obtain ⟨hgit, hposition, hrest⟩ := layoutTrailer_inj hraw hpos h
  refine ⟨?_, hposition, hrest⟩
  cases e
  cases e'
  simp only at htarget htext hgit
  rw [utf8_injective htext, htarget, hgit]

theorem updateHasher_ne_nil (e : TreeEntry ContentHash) (p : Option UInt32) :
    e.updateHasher p ≠ [] := by
  simp [TreeEntry.updateHasher, TreeEntryTarget.writePayload]

theorem flatMap_updateHasher_inj {items items' : List (TreeEntry ContentHash × Option UInt32)}
    (hvalid : ∀ item ∈ items, item.1.validate = .ok ())
    (hvalid' : ∀ item ∈ items', item.1.validate = .ok ())
    (h : items.flatMap (fun p => p.1.updateHasher p.2) =
      items'.flatMap (fun p => p.1.updateHasher p.2)) : items = items' := by
  induction items generalizing items' with
  | nil =>
    cases items' with
    | nil => rfl
    | cons item' items' =>
      rw [flatMap_nil, flatMap_cons] at h
      exact absurd (append_eq_nil_iff.1 h.symm).1 (updateHasher_ne_nil _ _)
  | cons item items ih =>
    cases items' with
    | nil =>
      rw [flatMap_nil, flatMap_cons] at h
      exact absurd (append_eq_nil_iff.1 h).1 (updateHasher_ne_nil _ _)
    | cons item' items' =>
      obtain ⟨hitem, hitems⟩ := forall_mem_cons.1 hvalid
      obtain ⟨hitem', hitems'⟩ := forall_mem_cons.1 hvalid'
      rw [flatMap_cons, flatMap_cons] at h
      obtain ⟨hentry, hposition, hrest⟩ := updateHasher_inj hitem hitem' h
      rw [ih hitems hitems' hrest, Prod.ext hentry hposition]

theorem recorded_unique (h : Recorded ps positions) (h' : Recorded ps positions') :
    positions = positions' := by
  rcases h with ⟨rfl, hnone⟩ | rfl
  · rcases h' with ⟨rfl, _⟩ | rfl
    · rfl
    · cases positions' with
      | nil => rfl
      | cons q positions' => cases hnone (some q) (.head _)
  · rcases h' with ⟨rfl, hnone⟩ | hmap
    · cases positions with
      | nil => rfl
      | cons q positions => cases hnone (some q) (.head _)
    · exact map_injective_iff.2 (Option.some_injective _) hmap

/-- Flat trees that feed the same bytes to the hasher are the same, their Git layout included. -/
theorem Tree.flatStream_injective (t u : Tree ContentHash) (ht : t.validate = .ok ())
    (hu : u.validate = .ok ()) (htscheme : t.scheme = .v3Flat) (huscheme : u.scheme = .v3Flat)
    (h : t.flatStream = u.flatStream) : t = u := by
  have hpositioned : t.positioned = u.positioned := by
    unfold flatStream at h
    have hcontent := (append_inj h (by simp)).2
    exact flatMap_updateHasher_inj (items_valid ht) (items_valid hu) hcontent
  have hentries : t.entries = u.entries := by
    rw [← t.positioned_map_fst, ← u.positioned_map_fst, hpositioned]
  have hpositions : t.sourcePositions = u.sourcePositions := by
    have hrecorded := Tree.recorded_positioned ht
    rw [hpositioned] at hrecorded
    exact recorded_unique hrecorded (Tree.recorded_positioned hu)
  have htsalts := t.validate_salts ht
  have husalts := u.validate_salts hu
  rw [htscheme] at htsalts
  rw [huscheme] at husalts
  cases t
  cases u
  simp only at hentries hpositions htscheme huscheme htsalts husalts
  rw [hentries, hpositions, htscheme, huscheme, htsalts, husalts]

def groupWritable : TreeEntry ContentHash where
  name := "a"
  target := .blob PartialTree.zeroHash false
  gitMode := some ⟨0o100664, 0, by decide⟩

def gitLayoutTree : Tree ContentHash where
  entries := [groupWritable, { name := "b", target := .tree PartialTree.zeroHash }]
  sourcePositions := [1, 0]

theorem flatStream_injective_gitLayout :
    gitLayoutTree = { entries := gitLayoutTree.entries, sourcePositions := [1, 0] } :=
  Tree.flatStream_injective gitLayoutTree _ (by decide +kernel) (by decide +kernel) rfl rfl rfl

end Heddle
