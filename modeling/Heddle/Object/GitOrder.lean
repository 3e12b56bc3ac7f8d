import Heddle.Object.GitLayout
import Heddle.Lib.SortedList
namespace Heddle
open Heddle.Lib List

def gitSortName (isTree : Bool) (name : Bytes) : Bytes := name ++ if isTree then [47] else []

section Order

def PlainName (name : Bytes) : Prop := 0 ∉ name ∧ 47 ∉ name

theorem PlainName.tail (h : PlainName (b :: name)) : b ≠ 0 ∧ b ≠ 47 ∧ PlainName name := by
  refine ⟨?_, ?_, ?_, ?_⟩
  · exact fun heq => h.1 (heq ▸ mem_cons_self)
  · exact fun heq => h.2 (heq ▸ mem_cons_self)
  · exact fun hmem => h.1 (mem_cons_of_mem _ hmem)
  · exact fun hmem => h.2 (mem_cons_of_mem _ hmem)

theorem compare_then_of_ne {a b : UInt8} (h : a ≠ b) (o : Ordering) :
    (compare a b).then o = compare a b := by
  have hne : compare a b ≠ .eq := fun heq => h (Std.LawfulEqCmp.eq_of_compare heq)
  cases hc : compare a b with
  | lt => rfl
  | gt => rfl
  | eq => exact absurd hc hne

theorem compare_cons (x y : UInt8) (xs ys : Bytes) :
    compare (x :: xs) (y :: ys) = (compare x y).then (compare xs ys) := by
  rw [List.compare_eq_compareLex, List.compareLex_cons_cons]

def terminator (isTree : Bool) : UInt8 := if isTree then 47 else 0

def orderBytes (leftTree rightTree : Bool) (left right : Bytes) : Ordering :=
  let shared := min left.length right.length
  (compare (left.take shared) (right.take shared)).then
    (compare (left.getD shared (terminator leftTree)) (right.getD shared (terminator rightTree)))

theorem orderBytes_nil_cons (hy : y ≠ 0) (hslash : y ≠ 47) (leftTree rightTree : Bool) (ys : Bytes) :
    orderBytes leftTree rightTree [] (y :: ys) =
      compare (gitSortName leftTree []) (gitSortName rightTree (y :: ys)) := by
  have hleft : orderBytes leftTree rightTree [] (y :: ys) = compare (terminator leftTree) y := rfl
  rw [hleft]
  cases leftTree with
  | true =>
    have hright : compare (gitSortName true []) (gitSortName rightTree (y :: ys)) =
      (compare 47 y).then (compare [] (gitSortName rightTree ys)) := compare_cons ..
    rw [hright, compare_then_of_ne hslash.symm]
    rfl
  | false =>
    have hpos : (0 : UInt8) < y := UInt8.pos_iff_ne_zero.2 hy
    have hlt : compare (0 : UInt8) y = .lt := Std.compare_eq_lt.2 hpos
    exact hlt

theorem orderBytes_cons (leftTree rightTree : Bool) (x y : UInt8) (xs ys : Bytes) :
    orderBytes leftTree rightTree (x :: xs) (y :: ys) =
      (compare x y).then (orderBytes leftTree rightTree xs ys) := by
  have hmin : min (x :: xs).length (y :: ys).length = min xs.length ys.length + 1 := by
    rw [length_cons, length_cons, Nat.add_min_add_right]
  simp only [orderBytes, hmin, take_succ_cons, getD_cons_succ]
  rw [compare_cons, Ordering.then_assoc]

theorem orderBytes_swap (leftTree rightTree : Bool) (xs ys : Bytes) :
    orderBytes leftTree rightTree xs ys = (orderBytes rightTree leftTree ys xs).swap := by
  rw [orderBytes, orderBytes, Nat.min_comm ys.length, Ordering.swap_then,
    ← Std.OrientedOrd.eq_swap, ← Std.OrientedOrd.eq_swap]

theorem orderBytes_eq (leftTree rightTree : Bool) (hx : PlainName xs) (hy : PlainName ys) :
    orderBytes leftTree rightTree xs ys =
      compare (gitSortName leftTree xs) (gitSortName rightTree ys) := by
  induction xs generalizing ys with
  | nil =>
    cases ys with
    | nil => cases leftTree <;> cases rightTree <;> decide
    | cons y ys =>
      obtain ⟨hzero, hslash, _⟩ := hy.tail
      exact orderBytes_nil_cons hzero hslash leftTree rightTree ys
  | cons x xs ih =>
    obtain ⟨hzero, hslash, hx⟩ := hx.tail
    cases ys with
    | nil =>
      rw [orderBytes_swap, orderBytes_nil_cons hzero hslash, ← Std.OrientedOrd.eq_swap]
    | cons y ys =>
      obtain ⟨_, _, hy⟩ := hy.tail
      rw [orderBytes_cons, ih hx hy, gitSortName, gitSortName, gitSortName, gitSortName,
        cons_append, cons_append, compare_cons]

theorem plainName_of_valid (h : validateName name = .ok ()) : PlainName (utf8 name) :=
  ⟨validateName_no_zero h, validateName_no_slashByte h⟩

def TreeEntry.sortName (e : TreeEntry H) : Bytes := gitSortName e.isTree (utf8 e.name)

theorem gitCanonicalOrder_eq (ha : validateName a.name = .ok ())
    (hb : validateName b.name = .ok ()) :
    gitCanonicalOrder a b = compare a.sortName b.sortName :=
  orderBytes_eq a.isTree b.isTree (plainName_of_valid ha) (plainName_of_valid hb)

end Order

namespace Tree

section Sorted

def SortsBefore (a b : TreeEntry H) : Prop := compare a.sortName b.sortName = .lt

theorem inCanonicalOrder_iff {entries : List (TreeEntry H)}
    (hvalid : ∀ e ∈ entries, e.validate = .ok ()) :
    inCanonicalOrder entries = true ↔ entries.Pairwise SortsBefore := by
  induction entries with
  | nil => exact ⟨fun _ => .nil, fun _ => rfl⟩
  | cons a entries ih =>
    obtain ⟨ha, hrest⟩ := forall_mem_cons.1 hvalid
    cases entries with
    | nil => exact ⟨fun _ => pairwise_singleton _ _, fun _ => rfl⟩
    | cons b rest =>
      have hb := (forall_mem_cons.1 hrest).1
      have horder := gitCanonicalOrder_eq (TreeEntry.validate_name ha) (TreeEntry.validate_name hb)
      rw [inCanonicalOrder, Bool.and_eq_true, ih hrest, decide_eq_true_eq, horder,
        pairwise_cons (a := a)]
      constructor
      · intro h
        refine ⟨?_, h.2⟩
        intro c hc
        rcases mem_cons.1 hc with rfl | hc
        · exact h.1
        · have hbc := (pairwise_cons.1 h.2).1 c hc
          exact Std.TransCmp.lt_trans h.1 hbc
      · intro h
        exact ⟨h.1 b mem_cons_self, h.2⟩

theorem gitOrderedEntries_of_perm {entries es : List (TreeEntry H)}
    (hvalid : ∀ e ∈ entries, e.validate = .ok ()) (hsorted : inCanonicalOrder entries = true)
    (hperm : es.Perm entries) : ({ entries := es } : Tree H).gitOrderedEntries = entries := by
  have hname : ∀ e ∈ es, validateName e.name = .ok () := fun e he =>
    TreeEntry.validate_name (hvalid e (hperm.mem_iff.1 he))
  have hle : ∀ a ∈ es, ∀ b ∈ es, (gitCanonicalOrder a b ≠ .gt) ↔
      (compare a.sortName b.sortName).isLE = true := by
    intro a ha b hb
    rw [gitCanonicalOrder_eq (hname a ha) (hname b hb)]
    cases compare a.sortName b.sortName <;> decide
  have htotal : Std.Total fun a b : TreeEntry H => (compare a.sortName b.sortName).isLE = true := by
    constructor
    intro a b
    rw [Std.OrientedOrd.eq_swap (a := b.sortName)]
    cases compare a.sortName b.sortName
    · exact .inl rfl
    · exact .inl rfl
    · exact .inr rfl
  have htrans : IsTrans (TreeEntry H) fun a b => (compare a.sortName b.sortName).isLE = true :=
    ⟨fun _ _ _ => Std.TransCmp.isLE_trans⟩
  have hstrict := (inCanonicalOrder_iff hvalid).1 hsorted
  have hempty : ({ entries := es } : Tree H).sourcePositions.isEmpty = true := rfl
  rw [gitOrderedEntries, if_pos hempty, insertionSort_congr hle]
  apply insertionSort_of_perm _ hperm (hstrict.imp fun h => by rw [h]; rfl)
  intro a b ha hb hab hba
  have heq := Std.OrientedCmp.isLE_antisymm hab hba
  have hdistinct : entries.Pairwise fun a b => compare a.sortName b.sortName ≠ .eq :=
    hstrict.imp fun h => by rw [h]; decide
  have hsymm : Std.Symm fun a b : TreeEntry H => compare a.sortName b.sortName ≠ .eq := by
    constructor
    intro c d hcd hdc
    rw [Std.OrientedOrd.eq_swap, hdc] at hcd
    exact hcd rfl
  by_contra hne
  exact hdistinct.forall ha hb hne heq
def numbered (entries : List (TreeEntry H)) : List (TreeEntry H × UInt32) :=
  entries.zipIdx.map fun p => (p.1, UInt32.ofNat p.2)

theorem withPositions_ok_iff {entries : List (TreeEntry H)} :
    withPositions entries = .ok paired ↔
      entries.length ≤ 2 ^ 32 ∧ paired = numbered entries := by
  simp only [withPositions, bind_eq_ok, refuse_eq_ok, pure_eq_ok, Except.ok.injEq, Nat.not_lt]
  constructor
  · intro h
    obtain ⟨_, hcount, hpaired⟩ := h
    exact ⟨hcount, hpaired.symm⟩
  · intro h
    exact ⟨(), h.1, h.2.symm⟩

theorem numbered_entries (entries : List (TreeEntry H)) :
    (numbered entries).map Prod.fst = entries := by
  simp [numbered, Function.comp_def]

theorem numbered_positions {entries : List (TreeEntry H)} (h : entries.length ≤ 2 ^ 32) :
    (numbered entries).map (fun p => p.2.toNat) = List.range entries.length := by
  have hnat : (numbered entries).map (fun p => p.2.toNat) = entries.zipIdx.map Prod.snd := by
    rw [numbered, map_map]
    apply map_congr_left
    intro p hp
    have hlt := snd_lt_of_mem_zipIdx hp
    exact UInt32.toNat_ofNat_of_lt' (Nat.lt_of_lt_of_le hlt h)
  rw [hnat, zipIdx_map_snd, range_eq_range']

theorem validatePositions_ok_iff :
    validatePositions len seen positions = .ok () ↔
      (∀ p ∈ positions, p.toNat < len) ∧ positions.Nodup ∧ ∀ p ∈ positions, p ∉ seen := by
  induction positions generalizing seen with
  | nil => simp [validatePositions]
  | cons p positions ih =>
    unfold validatePositions
    split
    · rename_i hle
      simp only [reduceCtorEq, false_iff]
      intro h
      have hlt := h.1 p mem_cons_self
      omega
    · split
      · rename_i hseen
        simp only [reduceCtorEq, false_iff]
        intro h
        exact h.2.2 p mem_cons_self hseen
      · rename_i hlt hseen
        rw [ih]
        rw [forall_mem_cons, forall_mem_cons, nodup_cons]
        constructor
        · intro h
          obtain ⟨hrange, hnodup, hfresh⟩ := h
          have hp : p ∉ positions := fun hmem => hfresh p hmem mem_cons_self
          exact ⟨⟨by omega, hrange⟩, ⟨hp, hnodup⟩, hseen,
            fun q hq hmem => hfresh q hq (mem_cons_of_mem _ hmem)⟩
        · intro h
          obtain ⟨⟨_, hrange⟩, ⟨hp, hnodup⟩, _, hfresh⟩ := h
          refine ⟨hrange, hnodup, fun q hq hmem => ?_⟩
          rcases mem_cons.1 hmem with rfl | hmem
          · exact hp hq
          · exact hfresh q hq hmem

theorem gitOrderedEntries_of_positions {entries : List (TreeEntry H)}
    {paired : List (TreeEntry H × UInt32)} (hcount : entries.length ≤ 2 ^ 32)
    (hperm : paired.Perm (numbered entries)) :
    ({ entries := paired.map Prod.fst, sourcePositions := paired.map Prod.snd } :
      Tree H).gitOrderedEntries = entries := by
  have hpositions := numbered_positions hcount
  have hstrict : (numbered entries).Pairwise fun a b => a.2.toNat < b.2.toNat := by
    apply pairwise_map.1
    rw [hpositions]
    exact pairwise_lt_range
  have htotal : Std.Total fun a b : TreeEntry H × UInt32 => a.2 ≤ b.2 :=
    ⟨fun a b => Nat.le_total a.2.toNat b.2.toNat⟩
  have htrans : IsTrans (TreeEntry H × UInt32) fun a b => a.2 ≤ b.2 :=
    ⟨fun _ _ _ => Nat.le_trans⟩
  have hzip : (paired.map Prod.fst).zip (paired.map Prod.snd) = paired := by
    rw [← unzip_fst, ← unzip_snd, zip_unzip]
  have hsort : paired.insertionSort (fun a b => a.2 ≤ b.2) = numbered entries := by
    apply insertionSort_of_perm _ hperm (hstrict.imp Nat.le_of_lt)
    intro a b ha hb hab hba
    have hnodup : ((numbered entries).map fun p => p.2.toNat).Nodup := by
      rw [hpositions]
      exact nodup_range
    exact inj_on_of_nodup_map hnodup ha hb (Nat.le_antisymm hab hba)
  unfold gitOrderedEntries
  split
  · rename_i hempty
    have hnil : paired = [] := map_eq_nil_iff.1 (isEmpty_iff.1 hempty)
    have hentries := numbered_entries entries
    rw [hnil, nil_perm] at hperm
    rw [hperm] at hentries
    rw [← hentries, hnil]
    rfl
  · simp only
    rw [hzip, hsort, numbered_entries]

theorem firstDuplicate_eq_none_iff {paired : List (TreeEntry H × UInt32)}
    (hsorted : paired.Pairwise fun a b => nameLe a.1 b.1) :
    firstDuplicate paired = none ↔ paired.Pairwise fun a b => a.1.name < b.1.name := by
  induction paired with
  | nil => exact ⟨fun _ => .nil, fun _ => rfl⟩
  | cons a paired ih =>
    obtain ⟨ha, hrest⟩ := pairwise_cons.1 hsorted
    cases paired with
    | nil => exact ⟨fun _ => pairwise_singleton _ _, fun _ => rfl⟩
    | cons b rest =>
      have hab : a.1.name ≤ b.1.name := ha b mem_cons_self
      rw [firstDuplicate, pairwise_cons (a := a)]
      split
      · rename_i heq
        simp only [reduceCtorEq, false_iff]
        intro h
        exact absurd heq (h.1 b mem_cons_self).ne
      · rename_i hne
        rw [ih hrest]
        constructor
        · intro h
          refine ⟨?_, h⟩
          intro c hc
          have hlt := lt_of_le_of_ne hab hne
          rcases mem_cons.1 hc with rfl | hc
          · exact hlt
          · exact hlt.trans ((pairwise_cons.1 h).1 c hc)
        · intro h
          exact h.2

def ofGitEntries (entries : List (TreeEntry H)) : Tree H :=
  let paired := (numbered entries).insertionSort fun a b => nameLe a.1 b.1
  { entries := paired.map Prod.fst
    sourcePositions := if inCanonicalOrder entries then [] else paired.map Prod.snd }

theorem ofGitEntries_perm (entries : List (TreeEntry H)) :
    (ofGitEntries entries).entries.Perm entries := by
  have hperm := (perm_insertionSort (fun a b => nameLe a.1 b.1) (numbered entries)).map Prod.fst
  rwa [numbered_entries] at hperm

section
variable {entries : List (TreeEntry H)} (hvalid : ∀ e ∈ entries, e.validate = .ok ())
  (hcount : entries.length ≤ 2 ^ 32)
include hvalid hcount

theorem gitOrderedEntries_ofGitEntries :
    (ofGitEntries entries).gitOrderedEntries = entries := by
  cases hcanonical : inCanonicalOrder entries with
  | true =>
    have hperm := ofGitEntries_perm entries
    have hempty : (ofGitEntries entries).sourcePositions = [] := by
      rw [ofGitEntries, hcanonical]
      rfl
    have horder := gitOrderedEntries_of_perm hvalid hcanonical hperm
    rw [gitOrderedEntries, hempty]
    rw [gitOrderedEntries] at horder
    exact horder
  | false =>
    have hperm := perm_insertionSort (fun a b => nameLe a.1 b.1) (numbered entries)
    have horder := gitOrderedEntries_of_positions hcount hperm
    rw [ofGitEntries, hcanonical]
    exact horder

theorem ofGitEntries_validate
    (hnames : (ofGitEntries entries).entries.Pairwise fun a b => a.name < b.name) :
    (ofGitEntries entries).validate = .ok () := by
  have hperm := ofGitEntries_perm entries
  have hscheme : (ofGitEntries entries).validateScheme = .ok () := rfl
  have hentries : validateEntries none (ofGitEntries entries).entries = .ok () := by
    apply (validateEntries_ok_iff _ _).2
    exact ⟨fun e he => hvalid e (hperm.mem_iff.1 he), fun _ hp => absurd hp (Option.not_mem_none _),
      hnames⟩
  have horder := gitOrderedEntries_ofGitEntries hvalid hcount
  simp only [validate, hscheme, hentries]
  cases hcanonical : inCanonicalOrder entries with
  | true =>
    rw [validateSourcePositions, if_pos]
    rw [ofGitEntries, hcanonical]
    rfl
  | false =>
    have hpositions : (ofGitEntries entries).sourcePositions =
        ((numbered entries).insertionSort fun a b => nameLe a.1 b.1).map Prod.snd := by
      rw [ofGitEntries, hcanonical]
      rfl
    have hlength : (ofGitEntries entries).sourcePositions.length =
        (ofGitEntries entries).entries.length := by
      rw [hpositions, length_map, ofGitEntries, length_map]
    have hnat : ((ofGitEntries entries).sourcePositions.map UInt32.toNat).Perm
        (List.range entries.length) := by
      rw [hpositions, map_map, ← numbered_positions hcount]
      exact (perm_insertionSort _ _).map _
    have hvalidPositions : validatePositions (ofGitEntries entries).entries.length []
        (ofGitEntries entries).sourcePositions = .ok () := by
      apply validatePositions_ok_iff.2
      refine ⟨?_, List.Nodup.of_map _ (hnat.nodup_iff.2 nodup_range), fun _ _ =>
        not_mem_nil⟩
      intro p hp
      rw [hperm.length_eq]
      exact mem_range.1 (hnat.mem_iff.1 (mem_map_of_mem hp))
    unfold validateSourcePositions
    split
    · rfl
    · rw [if_neg (fun h => h rfl), if_neg (fun h => h hlength), hvalidPositions]
      simp only
      rw [horder, hcanonical]
      rfl

end

theorem numbered_sorted (entries : List (TreeEntry H)) :
    ((numbered entries).insertionSort fun a b => nameLe a.1 b.1).Pairwise fun a b =>
      nameLe a.1 b.1 := by
  have htotal : Std.Total fun a b : TreeEntry H × UInt32 => nameLe a.1 b.1 :=
    ⟨fun a b => le_total a.1.name b.1.name⟩
  have htrans : IsTrans (TreeEntry H × UInt32) fun a b => nameLe a.1 b.1 :=
    ⟨fun _ _ _ => le_trans⟩
  exact pairwise_insertionSort (fun a b => nameLe a.1 b.1) (numbered entries)

theorem sorted_names_iff (entries : List (TreeEntry H)) :
    ((numbered entries).insertionSort fun a b => nameLe a.1 b.1).Pairwise
        (fun a b => a.1.name < b.1.name) ↔ (entries.map TreeEntry.name).Nodup := by
  have hperm := (ofGitEntries_perm entries).map TreeEntry.name
  have hmap : (ofGitEntries entries).entries.map TreeEntry.name =
      ((numbered entries).insertionSort fun a b => nameLe a.1 b.1).map fun p => p.1.name :=
    map_map
  rw [hmap] at hperm
  rw [← hperm.nodup_iff]
  constructor
  · intro h
    exact pairwise_map.2 (h.imp ne_of_lt)
  · intro h
    exact ((numbered_sorted entries).and (pairwise_map.1 h)).imp fun h => lt_of_le_of_ne h.1 h.2

theorem fromGitEntries_ok_iff {entries : List (TreeEntry H)}
    (hvalid : ∀ e ∈ entries, e.validate = .ok ()) :
    fromGitEntries entries = .ok t ↔
      entries.length ≤ 2 ^ 32 ∧ (entries.map TreeEntry.name).Nodup ∧ t = ofGitEntries entries := by
  have hnames : firstDuplicate ((numbered entries).insertionSort fun a b => nameLe a.1 b.1) = none ↔
      (entries.map TreeEntry.name).Nodup := by
    rw [firstDuplicate_eq_none_iff (numbered_sorted entries), sorted_names_iff]
  simp only [fromGitEntries, bind_eq_ok, withPositions_ok_iff]
  constructor
  · intro h
    obtain ⟨_, ⟨hcount, rfl⟩, h⟩ := h
    split at h
    · cases h
    · rename_i hnone
      simp only [bind_eq_ok, pure_eq_ok, Except.ok.injEq] at h
      obtain ⟨_, _, rfl⟩ := h
      exact ⟨hcount, hnames.1 hnone, rfl⟩
  · intro h
    obtain ⟨hcount, hnodup, rfl⟩ := h
    refine ⟨_, ⟨hcount, rfl⟩, ?_⟩
    have hstrict : (ofGitEntries entries).entries.Pairwise fun a b => a.name < b.name :=
      pairwise_map.2 ((sorted_names_iff entries).2 hnodup)
    rw [hnames.2 hnodup]
    exact bind_eq_ok.2 ⟨(), ofGitEntries_validate hvalid hcount hstrict, rfl⟩

end Sorted

end Tree

end Heddle
