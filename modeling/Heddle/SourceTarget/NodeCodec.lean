import Heddle.SourceTarget.Node

namespace Heddle.SourceTarget
open Heddle.Lib
open List hiding Vector

section Fields

theorem take_ok_iff :
    take n bytes = .ok (taken, rest) ↔ bytes = taken.toList ++ rest :=
  takeVector_ok_iff

theorem takeHash_ok_iff {hash : ContentHash} :
    takeHash bytes = .ok (hash, rest) ↔ bytes = hash.asBytes ++ rest := by
  unfold takeHash
  simp only [read_bind_ok_iff, take_ok_iff, read_pure_ok_iff]
  constructor
  · intro ⟨taken, middle, hbytes, hhash, hrest⟩
    subst hhash hrest
    exact hbytes
  · intro h
    exact ⟨hash.bytes, rest, h, rfl, rfl⟩

theorem takeNumber_ok_iff :
    takeNumber width bytes = .ok (n, rest) ↔ bytes = leBytes width n ++ rest ∧ n < 256 ^ width := by
  unfold takeNumber
  simp only [read_bind_ok_iff, take_ok_iff, read_pure_ok_iff]
  constructor
  · intro ⟨taken, middle, hbytes, hn, hrest⟩
    subst hn hrest
    have hlen : taken.toList.length = width := taken.length_toList
    rw [leBytes_of_length hlen]
    refine ⟨hbytes, ?_⟩
    have hlt := ofLeBytes_lt taken.toList
    rwa [hlen] at hlt
  · intro ⟨hbytes, hn⟩
    refine ⟨⟨(leBytes width n).toArray, length_leBytes width n⟩, rest, hbytes, ?_, rfl⟩
    exact ofLeBytes_leBytes hn

end Fields

section Leaf

def entryBytes (entry : Binding) : Bytes := entry.1.asBytes ++ entry.2.asBytes

def AscendFrom (last : Option ContentHash) (entries : List Binding) : Prop :=
  (∀ k ∈ last, ∀ entry ∈ entries, k < entry.1) ∧ SortedBy Prod.fst entries

theorem ascendFrom_cons : AscendFrom last (entry :: entries) ↔
    (∀ k ∈ last, k < entry.1) ∧ AscendFrom (some entry.1) entries := by
  unfold AscendFrom
  rw [sortedBy_cons]
  constructor
  · intro ⟨hlast, hentry, hentries⟩
    refine ⟨fun k hk => hlast k hk entry mem_cons_self, ?_, hentries⟩
    intro k hk
    exact Option.mem_some.1 hk ▸ hentry
  · intro ⟨hlast, hentry, hentries⟩
    refine ⟨?_, hentry entry.1 rfl, hentries⟩
    intro k hk next hnext
    rcases mem_cons.1 hnext with rfl | hnext
    · exact hlast k hk
    · exact (hlast k hk).trans (hentry entry.1 rfl next hnext)

theorem readEntries_ok_iff :
    readEntries route n last bytes = .ok (entries, rest) ↔
      bytes = entries.flatMap entryBytes ++ rest ∧ entries.length = n ∧ AscendFrom last entries ∧
        ∀ entry ∈ entries, outsideRoute route entry.1 = false := by
  induction n generalizing last bytes entries rest with
  | zero =>
    rw [readEntries, read_pure_ok_iff]
    constructor
    · rintro ⟨hentries, hrest⟩
      subst hentries hrest
      exact ⟨rfl, rfl, ⟨fun _ _ _ h => (by cases h), List.Pairwise.nil⟩, fun _ h => by cases h⟩
    · rintro ⟨hbytes, hlen, _, _⟩
      rw [length_eq_zero_iff.1 hlen] at hbytes ⊢
      exact ⟨rfl, hbytes⟩
  | succ n ih =>
    simp only [readEntries, read_bind_ok_iff, takeHash_ok_iff, liftRead_ok_iff, refuse_eq_ok,
      read_pure_ok_iff, ih]
    constructor
    · rintro ⟨key, _, rfl, value, _, rfl, _, _, ⟨horder, rfl⟩, _, _, ⟨hroute, rfl⟩, tail, _,
        ⟨rfl, hlen, hascend, hinside⟩, rfl, rfl⟩
      refine ⟨?_, ?_, ?_, ?_⟩
      · rw [flatMap_cons, entryBytes, append_assoc, append_assoc]
      · rw [length_cons, hlen]
      · rw [ascendFrom_cons]
        refine ⟨?_, hascend⟩
        intro k hk
        exact lt_of_not_ge fun hle => horder ⟨k, hk, hle⟩
      · intro entry hentry
        rcases mem_cons.1 hentry with rfl | hentry
        · exact Bool.eq_false_iff.2 hroute
        · exact hinside entry hentry
    · rintro ⟨hbytes, hlen, hascend, hinside⟩
      cases entries with
      | nil => cases hlen
      | cons entry entries =>
        obtain ⟨horder, hrest⟩ := ascendFrom_cons.1 hascend
        rw [flatMap_cons, entryBytes, append_assoc, append_assoc] at hbytes
        refine ⟨entry.1, _, hbytes, entry.2, _, rfl, (), _, ⟨?_, rfl⟩, (), _, ⟨?_, rfl⟩, entries, rest,
          ⟨rfl, Nat.succ.inj hlen, hrest, fun e he => hinside e (mem_cons_of_mem _ he)⟩, rfl, rfl⟩
        · rintro ⟨k, hk, hle⟩
          exact (horder k hk).not_ge hle
        · rw [hinside entry mem_cons_self]
          exact Bool.false_ne_true

end Leaf

section Branch

def childBytes (child : Child) : Bytes := child.link.hash.asBytes ++ leBytes 8 child.link.count

theorem readChildren_ok_iff {bitmap : Nat} :
    readChildren bitmap slots bytes = .ok (children, rest) ↔
      bytes = children.flatMap childBytes ++ rest ∧
        children.map Child.slot = slots.filter bitmap.testBit ∧
        ∀ child ∈ children, 0 < child.link.count ∧ child.link.count < 2 ^ 64 := by
  induction slots generalizing bytes children rest with
  | nil =>
    rw [readChildren, read_pure_ok_iff]
    constructor
    · rintro ⟨hchildren, hrest⟩
      subst hchildren hrest
      exact ⟨rfl, rfl, fun _ h => by cases h⟩
    · rintro ⟨hbytes, hslots, _⟩
      rw [filter_nil, map_eq_nil_iff] at hslots
      subst hslots
      exact ⟨rfl, hbytes⟩
  | cons slot slots ih =>
    rw [readChildren]
    by_cases hbit : bitmap.testBit slot
    · rw [if_pos hbit, filter_cons_of_pos hbit]
      simp only [read_bind_ok_iff, takeHash_ok_iff, takeNumber_ok_iff, liftRead_ok_iff, refuse_eq_ok,
        read_pure_ok_iff, ih]
      constructor
      · rintro ⟨hash, _, rfl, count, _, ⟨rfl, hcount⟩, _, _, ⟨hzero, rfl⟩, tail, _,
          ⟨rfl, hslots, hcounts⟩, rfl, rfl⟩
        refine ⟨?_, ?_, ?_⟩
        · rw [flatMap_cons, childBytes, append_assoc, append_assoc]
        · rw [map_cons, hslots]
        · intro child hchild
          rcases mem_cons.1 hchild with rfl | hchild
          · exact ⟨Nat.pos_of_ne_zero hzero, hcount⟩
          · exact hcounts child hchild
      · rintro ⟨hbytes, hslots, hcounts⟩
        cases children with
        | nil => cases hslots
        | cons child children =>
          rw [map_cons, List.cons.injEq] at hslots
          obtain ⟨hpos, hlt⟩ := hcounts child mem_cons_self
          rw [flatMap_cons, childBytes, append_assoc, append_assoc] at hbytes
          refine ⟨child.link.hash, _, hbytes, child.link.count, _, ⟨rfl, hlt⟩, (), _,
            ⟨hpos.ne', rfl⟩, children, rest,
            ⟨rfl, hslots.2, fun c hc => hcounts c (mem_cons_of_mem _ hc)⟩, ?_, rfl⟩
          rw [← hslots.1]
    · rw [if_neg hbit, filter_cons_of_neg hbit]
      exact ih

theorem bitmap_eq (children : List Child) :
    Node.bitmap children = Lib.bitmap (children.map Child.slot) := by
  rw [Node.bitmap, Lib.bitmap, foldl_map]

theorem bitmap_fits (h : ∀ child ∈ children, child.slot < 32) : Node.bitmap children < 2 ^ 32 := by
  rw [bitmap_eq]
  exact bitmap_lt (forall_mem_map.2 h)

/-- A bitmap says which slots are taken, and sorted children are told apart by theirs. -/
theorem children_eq_filter_iff (hbits : bits < 2 ^ 32) :
    children.map Child.slot = (List.range 32).filter bits.testBit ↔
      SortedBy Child.slot children ∧ (∀ child ∈ children, child.slot < 32) ∧
        bits = Node.bitmap children := by
  rw [slots_eq_filter_iff hbits, SortedBy, SortedBy, pairwise_map, forall_mem_map, bitmap_eq]
  rfl

end Branch

/-- What the decoder asks of a node found at the end of `route`. -/
def Node.WellFormed (route : List Nat) : Node → Prop
  | .leaf entries =>
    1 ≤ entries.length ∧ entries.length ≤ leafEntries ∧ SortedBy Prod.fst entries ∧
      ∀ entry ∈ entries, outsideRoute route entry.1 = false
  | .branch depth children =>
    depth = route.length ∧ route.length < levels ∧ children ≠ [] ∧ SortedBy Child.slot children ∧
      (∀ child ∈ children, child.slot < 32) ∧
      (∀ child ∈ children, 0 < child.link.count ∧ child.link.count < 2 ^ 64) ∧
      ∃ total, (Node.branch depth children).count = some total ∧ leafEntries < total

section Node

@[simp] theorem magic_length : magic.length = 5 := by decide +kernel

theorem total_ok_iff :
    total.elim (.error message) (.ok : Nat → Except String Nat) = .ok n ↔ total = some n := by
  cases total with
  | none => exact ⟨nofun, nofun⟩
  | some m => rw [Option.elim_some, Except.ok.injEq, Option.some.injEq]

def Node.body : Node → Bytes
  | .leaf entries => leBytes 1 entries.length ++ entries.flatMap entryBytes
  | .branch depth children =>
    leBytes 1 depth ++ leBytes 4 (bitmap children) ++ children.flatMap childBytes

theorem readLeaf_ok_iff :
    readLeaf route bytes = .ok (node, rest) ↔ ∃ entries, node = .leaf entries ∧
      bytes = (Node.leaf entries).body ++ rest ∧ (Node.leaf entries).WellFormed route := by
  unfold readLeaf
  simp only [read_bind_ok_iff, takeNumber_ok_iff, liftRead_ok_iff, refuse_eq_ok, not_not,
    readEntries_ok_iff, read_pure_ok_iff, Node.body, Node.WellFormed, append_assoc]
  constructor
  · rintro ⟨count, _, ⟨rfl, _⟩, _, _, ⟨hcount, rfl⟩, entries, _, ⟨rfl, rfl, hascend, hinside⟩, rfl, rfl⟩
    exact ⟨entries, rfl, rfl, hcount.1, hcount.2, hascend.2, hinside⟩
  · rintro ⟨entries, rfl, rfl, hpos, hle, hsorted, hinside⟩
    have hlt : entries.length < 256 ^ 1 := hle.trans_lt (by decide)
    exact ⟨entries.length, _, ⟨rfl, hlt⟩, (), _, ⟨⟨hpos, hle⟩, rfl⟩, entries, rest,
      ⟨rfl, rfl, ⟨fun _ h => (by cases h), hsorted⟩, hinside⟩, rfl, rfl⟩

theorem readBranch_ok_iff :
    readBranch route bytes = .ok (node, rest) ↔ ∃ depth children, node = .branch depth children ∧
      bytes = (Node.branch depth children).body ++ rest ∧
        (Node.branch depth children).WellFormed route := by
  unfold readBranch
  simp only [read_bind_ok_iff, takeNumber_ok_iff, liftRead_ok_iff, refuse_eq_ok, not_or, not_not,
    readChildren_ok_iff, total_ok_iff, read_pure_ok_iff, Node.body, Node.WellFormed,
    append_assoc, Nat.not_le]
  constructor
  · rintro ⟨depth, _, ⟨rfl, _⟩, _, _, ⟨⟨hdepth, hlevels⟩, rfl⟩, bits, _, ⟨rfl, hbits⟩, _, _,
      ⟨hzero, rfl⟩, children, _, ⟨rfl, hslots, hcounts⟩, total, _, ⟨htotal, rfl⟩, _, _, ⟨hmany, rfl⟩,
      rfl, rfl⟩
    obtain ⟨hsorted, hlt, rfl⟩ := (children_eq_filter_iff hbits).1 hslots
    refine ⟨depth, children, rfl, rfl, hdepth, hlevels, ?_, hsorted, hlt, hcounts, total, htotal, hmany⟩
    intro hnil
    rw [hnil] at hzero
    exact hzero rfl
  · rintro ⟨depth, children, rfl, rfl, hdepth, hlevels, hne, hsorted, hlt, hcounts, total, htotal,
      hmany⟩
    have hbits := bitmap_fits hlt
    have hdepthLt : depth < 256 ^ 1 := by
      rw [hdepth]
      exact hlevels.trans (by decide)
    have hslots := (children_eq_filter_iff hbits).2 ⟨hsorted, hlt, rfl⟩
    refine ⟨depth, _, ⟨rfl, hdepthLt⟩, (), _, ⟨⟨hdepth, hlevels⟩, rfl⟩, Node.bitmap children, _,
      ⟨rfl, hbits⟩, (), _, ⟨?_, rfl⟩, children, rest, ⟨rfl, hslots, hcounts⟩, total, rest,
      ⟨htotal, rfl⟩, (), rest, ⟨hmany, rfl⟩, rfl, rfl⟩
    intro hzero
    rw [hzero] at hslots
    have hempty : (List.range 32).filter (Nat.testBit 0) = [] := by decide
    exact hne (map_eq_nil_iff.1 (hslots.trans hempty))

theorem readNode_ok_iff :
    readNode route bytes = .ok (node, rest) ↔
      bytes = node.encode ++ rest ∧ node.WellFormed route := by
  unfold readNode
  simp only [read_bind_ok_iff, take_ok_iff, takeNumber_ok_iff, liftRead_ok_iff, refuse_eq_ok, not_not]
  constructor
  · rintro ⟨found, _, rfl, _, _, ⟨hmagic, rfl⟩, kind, after, ⟨rfl, _⟩, hnode⟩
    rw [hmagic]
    split at hnode
    · obtain ⟨entries, rfl, rfl, hformed⟩ := readLeaf_ok_iff.1 hnode
      refine ⟨?_, hformed⟩
      simp only [Node.encode, Node.body, append_assoc]
      rfl
    · obtain ⟨depth, children, rfl, rfl, hformed⟩ := readBranch_ok_iff.1 hnode
      refine ⟨?_, hformed⟩
      simp only [Node.encode, Node.body, append_assoc]
      rfl
    · cases (liftRead_ok_iff.1 hnode).1
  · rintro ⟨hbytes, hformed⟩
    subst hbytes
    have hmagic : (⟨magic.toArray, magic_length⟩ : Vector UInt8 5).toList = magic := rfl
    cases node with
    | leaf entries =>
      refine ⟨⟨magic.toArray, magic_length⟩, leBytes 1 0 ++ ((Node.leaf entries).body ++ rest), ?_, (),
        _, ⟨hmagic, rfl⟩, 0, _, ⟨rfl, by decide⟩, readLeaf_ok_iff.2 ⟨entries, rfl, rfl, hformed⟩⟩
      simp only [hmagic, Node.encode, Node.body, append_assoc]
      rfl
    | branch depth children =>
      refine ⟨⟨magic.toArray, magic_length⟩,
        leBytes 1 1 ++ ((Node.branch depth children).body ++ rest), ?_, (), _, ⟨hmagic, rfl⟩, 1, _,
        ⟨rfl, by decide⟩, readBranch_ok_iff.2 ⟨depth, children, rfl, rfl, hformed⟩⟩
      simp only [hmagic, Node.encode, Node.body, append_assoc]
      rfl

theorem decode_ok_iff :
    decode bytes route = .ok node ↔ bytes = node.encode ∧ node.WellFormed route := by
  simp only [decode, bind_eq_ok, Prod.exists, readNode_ok_iff, refuse_eq_ok, not_not, pure_eq_ok,
    Except.ok.injEq]
  constructor
  · rintro ⟨_, rest, ⟨rfl, hformed⟩, _, rfl, rfl⟩
    exact ⟨append_nil _, hformed⟩
  · rintro ⟨rfl, hformed⟩
    exact ⟨node, [], ⟨(append_nil _).symm, hformed⟩, (), rfl, rfl⟩

end Node

section Group

def keyBit (key : ContentHash) (bit : Nat) : Nat :=
  if bit < 256 then ((key.asBytes.getD (bit / 8) 0).toNat >>> (7 - bit % 8)) &&& 1 else 0

theorem keyBit_lt (key : ContentHash) (bit : Nat) : keyBit key bit < 2 := by
  unfold keyBit
  split
  · rw [Nat.and_one_is_mod]
    exact Nat.mod_lt _ Nat.two_pos
  · exact Nat.two_pos

theorem shiftLeft_one_or (n : Nat) (h : b < 2) : n <<< 1 ||| b = 2 * n + b := by
  rw [Nat.or_comm, or_shiftLeft_eq_add (by omega)]
  omega

theorem group_eq (key : ContentHash) (depth : Nat) :
    group key depth = 2 * (2 * (2 * (2 * keyBit key (depth * 5) + keyBit key (depth * 5 + 1)) +
      keyBit key (depth * 5 + 2)) + keyBit key (depth * 5 + 3)) + keyBit key (depth * 5 + 4) := by
  have hfold : group key depth =
      (List.range 5).foldl (fun slot offset => slot <<< 1 ||| keyBit key (depth * 5 + offset)) 0 := rfl
  have hrange : List.range 5 = [0, 1, 2, 3, 4] := rfl
  rw [hfold, hrange]
  simp only [foldl_cons, foldl_nil, shiftLeft_one_or _ (keyBit_lt _ _), Nat.add_zero]
  omega

theorem group_lt (key : ContentHash) (depth : Nat) : group key depth < 32 := by
  have h0 := keyBit_lt key (depth * 5)
  have h1 := keyBit_lt key (depth * 5 + 1)
  have h2 := keyBit_lt key (depth * 5 + 2)
  have h3 := keyBit_lt key (depth * 5 + 3)
  have h4 := keyBit_lt key (depth * 5 + 4)
  rw [group_eq]
  omega

theorem keyBit_of_group (h : group key depth = group key' depth) (hoffset : offset < 5) :
    keyBit key (depth * 5 + offset) = keyBit key' (depth * 5 + offset) := by
  rw [group_eq, group_eq] at h
  have h0 := keyBit_lt key (depth * 5)
  have h1 := keyBit_lt key (depth * 5 + 1)
  have h2 := keyBit_lt key (depth * 5 + 2)
  have h3 := keyBit_lt key (depth * 5 + 3)
  have h4 := keyBit_lt key (depth * 5 + 4)
  have h0' := keyBit_lt key' (depth * 5)
  have h1' := keyBit_lt key' (depth * 5 + 1)
  have h2' := keyBit_lt key' (depth * 5 + 2)
  have h3' := keyBit_lt key' (depth * 5 + 3)
  have h4' := keyBit_lt key' (depth * 5 + 4)
  have hcases : offset = 0 ∨ offset = 1 ∨ offset = 2 ∨ offset = 3 ∨ offset = 4 := by omega
  rcases hcases with rfl | rfl | rfl | rfl | rfl
  · rw [Nat.add_zero]
    omega
  · omega
  · omega
  · omega
  · omega

theorem eq_of_groups (h : ∀ depth < levels, group key depth = group key' depth) :
    key = key' := by
  have hbit : ∀ bit < 256, keyBit key bit = keyBit key' bit := by
    intro bit hbit
    have hsplit : bit = bit / 5 * 5 + bit % 5 := by omega
    rw [hsplit]
    apply keyBit_of_group
    · apply h
      change bit / 5 < 52
      omega
    · exact Nat.mod_lt _ (by decide)
  apply ContentHash.asBytes_injective
  apply ext_getElem (by rw [ContentHash.asBytes_length, ContentHash.asBytes_length])
  intro i hi hi'
  have hlt : i < 32 := by rwa [ContentHash.asBytes_length] at hi
  apply UInt8.toNat_inj.1
  apply Nat.eq_of_testBit_eq
  intro j
  by_cases hj : j < 8
  · have hbits := hbit (i * 8 + (7 - j)) (by omega)
    have hindex : (i * 8 + (7 - j)) / 8 = i := by omega
    have hoffset : 7 - (i * 8 + (7 - j)) % 8 = j := by omega
    have hbyte : ∀ k : ContentHash, keyBit k (i * 8 + (7 - j)) =
        ((k.asBytes.getD i 0).toNat >>> j) &&& 1 := by
      intro k
      rw [keyBit, if_pos (by omega), hindex, hoffset]
    rw [hbyte, hbyte, Nat.and_one_is_mod, Nat.and_one_is_mod] at hbits
    have hget : ∀ k : ContentHash, ∀ hk : i < k.asBytes.length, k.asBytes.getD i 0 = k.asBytes[i] := by
      intro k hk
      rw [getD_eq_getElem?_getD, getElem?_eq_getElem hk, Option.getD_some]
    rw [hget key hi, hget key' hi'] at hbits
    rw [Nat.testBit_eq_decide_div_mod_eq, Nat.testBit_eq_decide_div_mod_eq, ← Nat.shiftRight_eq_div_pow,
        ← Nat.shiftRight_eq_div_pow, hbits]
  · have hbyte : ∀ b : UInt8, b.toNat.testBit j = false := by
      intro b
      apply Nat.testBit_lt_two_pow
      exact b.toNat_lt.trans_le (Nat.pow_le_pow_right Nat.two_pos (Nat.not_lt.1 hj))
    rw [hbyte, hbyte]

end Group

section Route

theorem outsideRoute_eq_false_iff :
    outsideRoute route key = false ↔ ∀ depth slot, route[depth]? = some slot → group key depth = slot := by
  rw [outsideRoute, any_eq_false]
  constructor
  · intro h depth slot hslot
    by_contra hne
    apply h (slot, depth) (mem_zipIdx_iff_getElem?.2 hslot)
    exact decide_eq_true hne
  · intro h p hp
    rw [decide_eq_true_eq, not_not]
    exact h p.2 p.1 (mem_zipIdx_iff_getElem?.1 hp)

theorem outsideRoute_nil (key : ContentHash) : outsideRoute [] key = false := rfl

theorem outsideRoute_snoc (h : outsideRoute route key = false) :
    outsideRoute (route ++ [slot]) key = false ↔ group key route.length = slot := by
  rw [outsideRoute_eq_false_iff] at h ⊢
  constructor
  · intro hsnoc
    apply hsnoc
    rw [getElem?_append_right le_rfl, Nat.sub_self]
    rfl
  · intro hslot depth found hfound
    rcases Nat.lt_or_ge depth route.length with hlt | hge
    · rw [getElem?_append_left hlt] at hfound
      exact h depth found hfound
    · rw [getElem?_append_right hge] at hfound
      have hzero : depth - route.length = 0 := by
        by_contra hne
        rw [getElem?_eq_none (by rw [length_singleton]; omega)] at hfound
        cases hfound
      rw [hzero] at hfound
      cases hfound
      have hdepth : depth = route.length := by omega
      rw [hdepth]
      exact hslot

theorem eq_of_route (hlen : route.length = levels) (h : outsideRoute route key = false)
    (h' : outsideRoute route key' = false) : key = key' := by
  rw [outsideRoute_eq_false_iff] at h h'
  apply eq_of_groups
  intro depth hdepth
  rw [← hlen] at hdepth
  rw [h depth _ (getElem?_eq_getElem hdepth), h' depth _ (getElem?_eq_getElem hdepth)]

end Route

end Heddle.SourceTarget
