import Mathlib.Data.Nat.Log
import Mathlib.Data.Set.Function
import Mathlib.Data.List.Forall2
import Mathlib.Data.List.Perm.Basic
import Mathlib.Algebra.Group.Nat.Defs

namespace Heddle.Lib
open List

def merkleSplit (n : Nat) : Nat := 2 ^ Nat.log2 (n - 1)

theorem merkleSplit_pos (n : Nat) : 0 < merkleSplit n := Nat.two_pow_pos _

theorem merkleSplit_lt (h : 2 ≤ n) : merkleSplit n < n := by
  have hle : merkleSplit n ≤ n - 1 := Nat.log2_self_le (by omega)
  omega

def merkleLeft (leaves : List H) : List H := leaves.take (merkleSplit leaves.length)

def merkleRight (leaves : List H) : List H := leaves.drop (merkleSplit leaves.length)

theorem merkleLeft_append_right (leaves : List H) :
    merkleLeft leaves ++ merkleRight leaves = leaves := take_append_drop _ _

theorem merkleLeft_length_lt (h : 2 ≤ leaves.length) :
    (merkleLeft leaves).length < leaves.length := by
  have hlt := merkleSplit_lt h
  rw [merkleLeft, length_take]
  omega

theorem merkleRight_length_lt (h : 2 ≤ leaves.length) :
    (merkleRight leaves).length < leaves.length := by
  have hpos := merkleSplit_pos leaves.length
  rw [merkleRight, length_drop]
  omega

theorem merkleLeft_ne_nil (h : 2 ≤ leaves.length) : merkleLeft leaves ≠ [] := by
  have hpos := merkleSplit_pos leaves.length
  intro hnil
  have hlen := congrArg List.length hnil
  rw [merkleLeft, length_take, length_nil] at hlen
  omega

theorem merkleRight_ne_nil (h : 2 ≤ leaves.length) :
    merkleRight leaves ≠ [] := by
  have hlt := merkleSplit_lt h
  intro hnil
  have hlen := congrArg List.length hnil
  rw [merkleRight, length_drop, length_nil] at hlen
  omega

section
variable (node : H → H → H) (empty : H)

def merkleRoot (leaves : List H) : H :=
  if 2 ≤ leaves.length then
    node (merkleRoot (merkleLeft leaves)) (merkleRoot (merkleRight leaves))
  else leaves.head?.getD empty
termination_by leaves.length
decreasing_by
  · exact merkleLeft_length_lt ‹_›
  · exact merkleRight_length_lt ‹_›

def merkleChildren (leaves : List H) : List (H × H) :=
  if 2 ≤ leaves.length then
    (merkleRoot node empty (merkleLeft leaves), merkleRoot node empty (merkleRight leaves)) ::
      (merkleChildren (merkleLeft leaves) ++ merkleChildren (merkleRight leaves))
  else []
termination_by leaves.length
decreasing_by
  · exact merkleLeft_length_lt ‹_›
  · exact merkleRight_length_lt ‹_›

/-- The values of the nodes that are not leaves. The empty tree is one such node. -/
def merkleInner (leaves : List H) : List H :=
  if leaves = [] then [empty]
  else (merkleChildren node empty leaves).map (fun p => node p.1 p.2)

@[simp] theorem merkleRoot_nil : merkleRoot node empty [] = empty := by
  rw [merkleRoot]
  rfl

@[simp] theorem merkleRoot_singleton (leaf : H) : merkleRoot node empty [leaf] = leaf := by
  rw [merkleRoot]
  rfl

theorem merkleRoot_of_two_le (h : 2 ≤ leaves.length) :
    merkleRoot node empty leaves =
      node (merkleRoot node empty (merkleLeft leaves))
        (merkleRoot node empty (merkleRight leaves)) := by
  rw [merkleRoot, if_pos h]

theorem merkleChildren_of_two_le (h : 2 ≤ leaves.length) :
    merkleChildren node empty leaves =
      (merkleRoot node empty (merkleLeft leaves), merkleRoot node empty (merkleRight leaves)) ::
        (merkleChildren node empty (merkleLeft leaves) ++
          merkleChildren node empty (merkleRight leaves)) := by
  rw [merkleChildren, if_pos h]

theorem merkleRoot_mem_inner (h : leaves.length ≠ 1) :
    merkleRoot node empty leaves ∈ merkleInner node empty leaves := by
  by_cases hnil : leaves = []
  · subst hnil
    rw [merkleInner, if_pos rfl, merkleRoot_nil]
    exact mem_singleton_self _
  · have hpos := length_pos_iff.2 hnil
    have htwo : 2 ≤ leaves.length := by omega
    rw [merkleInner, if_neg hnil, merkleChildren_of_two_le node empty htwo, map_cons,
      merkleRoot_of_two_le node empty htwo]
    exact mem_cons_self

theorem mem_merkleInner_of_children (h : p ∈ merkleChildren node empty leaves) :
    node p.1 p.2 ∈ merkleInner node empty leaves := by
  by_cases hnil : leaves = []
  · subst hnil
    rw [merkleChildren, if_neg (by simp)] at h
    cases h
  · rw [merkleInner, if_neg hnil]
    exact mem_map.2 ⟨p, h, rfl⟩

theorem mem_merkleInner_of_half (h : 2 ≤ leaves.length)
    (hhalf : half = merkleLeft leaves ∨ half = merkleRight leaves)
    (hmem : x ∈ merkleInner node empty half) : x ∈ merkleInner node empty leaves := by
  have hne : half ≠ [] := by
    rcases hhalf with rfl | rfl
    · exact merkleLeft_ne_nil h
    · exact merkleRight_ne_nil h
  rw [merkleInner, if_neg hne] at hmem
  obtain ⟨p, hp, rfl⟩ := mem_map.1 hmem
  apply mem_merkleInner_of_children
  rw [merkleChildren_of_two_le node empty h]
  apply mem_cons_of_mem
  rcases hhalf with rfl | rfl
  · exact mem_append_left _ hp
  · exact mem_append_right _ hp

theorem mem_children_of_half (h : 2 ≤ leaves.length)
    (hhalf : half = merkleLeft leaves ∨ half = merkleRight leaves)
    (hmem : p ∈ merkleChildren node empty half) : p ∈ merkleChildren node empty leaves := by
  rw [merkleChildren_of_two_le node empty h]
  apply mem_cons_of_mem
  rcases hhalf with rfl | rfl
  · exact mem_append_left _ hmem
  · exact mem_append_right _ hmem

/-- What a root commits to, once no leaf of one list is an inner node of the other. -/
theorem merkleRoot_inj (hnode : Set.InjOn (fun p : H × H => node p.1 p.2)
      {p | p ∈ merkleChildren node empty a ∨ p ∈ merkleChildren node empty b})
    (hempty : ∀ p, p ∈ merkleChildren node empty a ∨ p ∈ merkleChildren node empty b →
      node p.1 p.2 ≠ empty) (hab : ∀ x ∈ a, x ∉ merkleInner node empty b)
    (hba : ∀ x ∈ b, x ∉ merkleInner node empty a)
    (h : merkleRoot node empty a = merkleRoot node empty b) : a = b := by
  by_cases ha : a.length = 1
  · obtain ⟨x, rfl⟩ := length_eq_one_iff.1 ha
    rw [merkleRoot_singleton] at h
    have hb : b.length = 1 := by
      by_contra hb
      exact hab x (mem_singleton_self x) (h ▸ merkleRoot_mem_inner node empty hb)
    obtain ⟨y, rfl⟩ := length_eq_one_iff.1 hb
    rw [merkleRoot_singleton] at h
    rw [h]
  by_cases hb : b.length = 1
  · obtain ⟨y, rfl⟩ := length_eq_one_iff.1 hb
    rw [merkleRoot_singleton] at h
    exact absurd (h ▸ merkleRoot_mem_inner node empty ha) (hba y (mem_singleton_self y))
  by_cases hta : 2 ≤ a.length
  · have hchildA := merkleChildren_of_two_le node empty hta
    by_cases htb : 2 ≤ b.length
    · have hchildB := merkleChildren_of_two_le node empty htb
      rw [merkleRoot_of_two_le node empty hta, merkleRoot_of_two_le node empty htb] at h
      have hpair := hnode (.inl (hchildA ▸ mem_cons_self))
        (.inr (hchildB ▸ mem_cons_self)) h
      have hhalves : ∀ {half half' : List H},
          (half = merkleLeft a ∨ half = merkleRight a) →
          (half' = merkleLeft b ∨ half' = merkleRight b) → half.length < a.length →
          merkleRoot node empty half = merkleRoot node empty half' → half = half' := by
        intro half half' hl hr hlt hroot
        have hsub : ∀ x ∈ half, x ∈ a := by
          intro x hx
          rcases hl with rfl | rfl
          · exact mem_of_mem_take hx
          · exact mem_of_mem_drop hx
        have hsub' : ∀ x ∈ half', x ∈ b := by
          intro x hx
          rcases hr with rfl | rfl
          · exact mem_of_mem_take hx
          · exact mem_of_mem_drop hx
        have hup : ∀ p, p ∈ merkleChildren node empty half ∨ p ∈ merkleChildren node empty half' →
            p ∈ merkleChildren node empty a ∨ p ∈ merkleChildren node empty b := by
          intro p hp
          exact hp.imp (mem_children_of_half node empty hta hl)
            (mem_children_of_half node empty htb hr)
        exact merkleRoot_inj (hnode.mono hup) (fun p hp => hempty p (hup p hp))
          (fun x hx hin => hab x (hsub x hx) (mem_merkleInner_of_half node empty htb hr hin))
          (fun x hx hin => hba x (hsub' x hx) (mem_merkleInner_of_half node empty hta hl hin)) hroot
      have hleft := hhalves (.inl rfl) (.inl rfl) (merkleLeft_length_lt hta)
        (congrArg Prod.fst hpair)
      have hright := hhalves (.inr rfl) (.inr rfl) (merkleRight_length_lt hta)
        (congrArg Prod.snd hpair)
      rw [← merkleLeft_append_right a, ← merkleLeft_append_right b, hleft, hright]
    · have hnil : b = [] := length_eq_zero_iff.1 (by omega)
      subst hnil
      rw [merkleRoot_nil, merkleRoot_of_two_le node empty hta] at h
      exact absurd h (hempty _ (.inl (hchildA ▸ mem_cons_self)))
  · have hnil : a = [] := length_eq_zero_iff.1 (by omega)
    subst hnil
    by_cases htb : 2 ≤ b.length
    · have hchildB := merkleChildren_of_two_le node empty htb
      rw [merkleRoot_nil, merkleRoot_of_two_le node empty htb] at h
      exact absurd h.symm (hempty _ (.inr (hchildB ▸ mem_cons_self)))
    · exact (length_eq_zero_iff.1 (by omega)).symm
termination_by a.length

end

theorem exists_perm_of_map_perm (h : (l.map f).Perm m) :
    ∃ l' : List α, l'.Perm l ∧ l'.map f = m := by
  induction m generalizing l with
  | nil =>
    have hnil : l = [] := map_eq_nil_iff.1 h.eq_nil
    exact ⟨[], hnil ▸ .refl _, rfl⟩
  | cons y m ih =>
    obtain ⟨x, hx, rfl⟩ := mem_map.1 (h.mem_iff.2 mem_cons_self)
    obtain ⟨before, after, rfl⟩ := append_of_mem hx
    have hmid : (before ++ x :: after).Perm (x :: (before ++ after)) := perm_middle
    have hrest := ((hmid.map f).symm.trans h).cons_inv
    obtain ⟨l', hperm, hmap⟩ := ih hrest
    exact ⟨x :: l', (hperm.cons x).trans hmid.symm, by rw [map_cons, hmap]⟩

theorem forall₂_of_map_eq (h : l.map f = m.map g) (hR : ∀ a ∈ l, ∀ b ∈ m, f a = g b → R a b) :
    List.Forall₂ R l m := by
  induction l generalizing m with
  | nil =>
    obtain rfl : m = [] := map_eq_nil_iff.1 h.symm
    exact .nil
  | cons a l ih =>
    cases m with
    | nil => cases h
    | cons b m =>
      simp only [map_cons, List.cons.injEq] at h
      apply List.Forall₂.cons (hR a mem_cons_self b mem_cons_self h.1)
      exact ih h.2 (fun a ha b hb => hR a (mem_cons_of_mem _ ha) b (mem_cons_of_mem _ hb))

theorem exists_of_forall₂_mem (h : List.Forall₂ R l m) (ha : a ∈ l) : ∃ b ∈ m, R a b := by
  induction h with
  | nil => cases ha
  | cons hR _ ih =>
    rcases mem_cons.1 ha with rfl | ha
    · exact ⟨_, mem_cons_self, hR⟩
    · obtain ⟨b, hb, hab⟩ := ih ha
      exact ⟨b, mem_cons_of_mem _ hb, hab⟩

section HashGraph
variable {Digest Body : Type} (digest : Body → Digest) (links : Body → Option (List Digest))
variable {root hash hash' : Digest}

/-- The addresses a root leads to in a store, link by link. -/
inductive Reaches (store : Digest → Option Body) (root : Digest) : Digest → Prop where
  | root : Reaches store root root
  | link {hash hash' : Digest} (h : Reaches store root hash) (hbody : store hash = some body) (hlinks : links body = some below)
    (hmem : hash' ∈ below) : Reaches store root hash'

/-- Every address the root leads to holds a readable body of that digest. -/
def Sound (store : Digest → Option Body) (root : Digest) : Prop :=
  ∀ hash, Reaches links store root hash → ∃ body below,
    store hash = some body ∧ digest body = hash ∧ links body = some below

variable {digest links}

theorem Reaches.closed {P : Digest → Prop} (h : Reaches links store root hash) (hroot : P root)
    (hlink : ∀ hash body below, P hash → store hash = some body →
      links body = some below → ∀ hash' ∈ below, P hash') : P hash := by
  induction h with
  | root => exact hroot
  | link h hbody hlinks hmem ih => exact hlink _ _ _ ih hbody hlinks _ hmem

theorem Reaches.trans (h : Reaches links store root hash) (h' : Reaches links store hash hash') :
    Reaches links store root hash' := by
  induction h' with
  | root => exact h
  | link _ hbody hlinks hmem ih => exact .link ih hbody hlinks hmem

theorem Reaches.same (h : Reaches links store root hash) (hsound : Sound digest links store root)
    (hsound' : Sound digest links store' root)
    (hinj : Set.InjOn digest {body | ∃ hash, store hash = some body ∨ store' hash = some body}) :
    Reaches links store' root hash ∧ store hash = store' hash := by
  have hsame : ∀ hash, Reaches links store root hash → Reaches links store' root hash →
      store hash = store' hash := by
    intro hash h h'
    obtain ⟨body, _, hbody, hdigest, _⟩ := hsound hash h
    obtain ⟨body', _, hbody', hdigest', _⟩ := hsound' hash h'
    rw [hbody, hbody', hinj ⟨hash, .inl hbody⟩ ⟨hash, .inr hbody'⟩ (hdigest.trans hdigest'.symm)]
  have hreaches : Reaches links store' root hash := by
    induction h with
    | root => exact .root
    | link h hbody hlinks hmem ih => exact .link ih ((hsame _ h ih).symm.trans hbody) hlinks hmem
  exact ⟨hreaches, hsame hash h hreaches⟩

theorem Sound.agree (h : Sound digest links store root) (h' : Sound digest links store' root)
    (hinj : Set.InjOn digest {body | ∃ hash, store hash = some body ∨ store' hash = some body}) :
    (∀ hash, Reaches links store root hash ↔ Reaches links store' root hash) ∧
      ∀ hash, Reaches links store root hash → store hash = store' hash := by
  have hinj' : Set.InjOn digest {body | ∃ hash, store' hash = some body ∨ store hash = some body} := by
    apply hinj.mono
    rintro body ⟨hash, hbody⟩
    exact ⟨hash, hbody.symm⟩
  refine ⟨fun hash => ⟨fun hreaches => ?_, fun hreaches => ?_⟩, fun hash hreaches => ?_⟩
  · exact (hreaches.same h h' hinj).1
  · exact (hreaches.same h' h hinj').1
  · exact (hreaches.same h h' hinj).2

end HashGraph

end Heddle.Lib
