import Mathlib.Data.List.Perm.Basic

namespace Heddle.Lib
open List

/-- A partial order in which what lies above an element is a chain. -/
structure ForestOrder (r : α → α → Prop) : Prop where
  refl : ∀ a, r a a
  trans : ∀ {a b c}, r a b → r b c → r a c
  antisymm : ∀ {a b}, r a b → r b a → a = b
  comparable : ∀ {a b c}, r a b → r a c → r b c ∨ r c b

/-- Elements are ordered by the way from each of them to its root. -/
theorem forestOrder_suffix (hpath : Function.Injective path) :
    ForestOrder fun a b => path b <:+ path a where
  refl a := suffix_refl (path a)
  trans hab hbc := hbc.trans hab
  antisymm hab hba := hpath (hba.eq_of_length_le hab.length_le)
  comparable hab hac := suffix_or_suffix_of_suffix hac hab

def lowerOf (r : α → α → Prop) [DecidableRel r] (error : ε) (a b : α) : Except ε α :=
  if r a b then .ok a else if r b a then .ok b else .error error

structure LowestOf (r : α → α → Prop) (l : List α) (u : α) : Prop where
  mem : u ∈ l
  below : ∀ a ∈ l, r u a

section Lowest
variable {r : α → α → Prop} {l : List α} {error : ε}

theorem LowestOf.congr (h : LowestOf r l u) (hmem : ∀ a, a ∈ l' ↔ a ∈ l) : LowestOf r l' u :=
  ⟨(hmem u).2 h.mem, fun a ha => h.below a ((hmem a).1 ha)⟩

theorem lowestOf_drop_second (hr : ForestOrder r) (hab : r a b) :
    LowestOf r (a :: b :: l) u ↔ LowestOf r (a :: l) u := by
  constructor
  · intro h
    refine ⟨?_, fun c hc => h.below c ?_⟩
    · rcases mem_cons.1 h.mem with rfl | hmem
      · exact mem_cons_self
      · rcases mem_cons.1 hmem with rfl | hmem
        · rw [hr.antisymm hab (h.below a mem_cons_self)]
          exact mem_cons_self
        · exact mem_cons_of_mem a hmem
    · rcases mem_cons.1 hc with rfl | hc
      · exact mem_cons_self
      · exact mem_cons_of_mem a (mem_cons_of_mem b hc)
  · intro h
    refine ⟨?_, fun c hc => ?_⟩
    · rcases mem_cons.1 h.mem with rfl | hmem
      · exact mem_cons_self
      · exact mem_cons_of_mem a (mem_cons_of_mem b hmem)
    · rcases mem_cons.1 hc with rfl | hc
      · exact h.below _ mem_cons_self
      · rcases mem_cons.1 hc with rfl | hc
        · exact hr.trans (h.below a mem_cons_self) hab
        · exact h.below c (mem_cons_of_mem a hc)

theorem lowestOf_swap : LowestOf r (a :: b :: l) u ↔ LowestOf r (b :: a :: l) u := by
  have hmem : ∀ c, c ∈ a :: b :: l ↔ c ∈ b :: a :: l := fun c => (List.Perm.swap b a l).mem_iff
  exact ⟨fun h => h.congr fun c => (hmem c).symm, fun h => h.congr hmem⟩

variable [DecidableRel r]

theorem foldlM_lowerOf (hr : ForestOrder r) (a : α) (l : List α) :
    l.foldlM (lowerOf r error) a = .ok u ↔ LowestOf r (a :: l) u := by
  induction l generalizing a with
  | nil =>
    constructor
    · intro h
      obtain rfl := Except.ok.inj h
      exact ⟨mem_cons_self, fun c hc => mem_singleton.1 hc ▸ hr.refl a⟩
    · exact fun h => congrArg _ (mem_singleton.1 h.mem).symm
  | cons b l ih =>
    rw [foldlM_cons]
    by_cases hab : r a b
    · rw [lowerOf, if_pos hab, lowestOf_drop_second hr hab, ← ih a]
      rfl
    · by_cases hba : r b a
      · rw [lowerOf, if_neg hab, if_pos hba, lowestOf_swap, lowestOf_drop_second hr hba, ← ih b]
        rfl
      · rw [lowerOf, if_neg hab, if_neg hba]
        refine ⟨nofun, fun h => ?_⟩
        have habove := hr.comparable (h.below a mem_cons_self)
          (h.below b (mem_cons_of_mem a mem_cons_self))
        exact absurd habove (not_or.2 ⟨hab, hba⟩)

theorem lowerOf_eq_ok_iff (hr : ForestOrder r) :
    lowerOf r error a b = .ok u ↔ LowestOf r [a, b] u := by
  rw [← foldlM_lowerOf hr a [b], foldlM_cons]
  cases lowerOf r error a b with
  | error e => rfl
  | ok c => rfl

theorem lowerOf_error (h : lowerOf r error a b = .error e) : e = error ∧ ¬ r a b ∧ ¬ r b a := by
  rw [lowerOf] at h
  split at h
  · cases h
  · split at h
    · cases h
    · cases h
      exact ⟨rfl, ‹_›, ‹_›⟩

theorem foldlM_lowerOf_error (h : l.foldlM (lowerOf r error) a = .error e) : e = error := by
  induction l generalizing a with
  | nil => cases h
  | cons b l ih =>
    rw [foldlM_cons] at h
    cases hab : lowerOf r error a b with
    | error e' =>
      rw [hab] at h
      cases h
      exact (lowerOf_error hab).1
    | ok c =>
      rw [hab] at h
      exact ih h

theorem exists_incomparable (hr : ForestOrder r) (h : l.foldlM (lowerOf r error) a = .error e) :
    ∃ b ∈ a :: l, ∃ c ∈ a :: l, ¬ r b c ∧ ¬ r c b := by
  induction l generalizing a with
  | nil => cases h
  | cons b l ih =>
    rw [foldlM_cons] at h
    cases hab : lowerOf r error a b with
    | error e' =>
      exact ⟨a, mem_cons_self, b, mem_cons_of_mem a mem_cons_self, (lowerOf_error hab).2⟩
    | ok c =>
      rw [hab] at h
      have hc := ((lowerOf_eq_ok_iff hr).1 hab).mem
      obtain ⟨x, hx, y, hy, hne⟩ := ih h
      have hsub : ∀ z ∈ c :: l, z ∈ a :: b :: l := by
        intro z hz
        rcases mem_cons.1 hz with rfl | hz
        · rcases mem_cons.1 hc with rfl | hc
          · exact mem_cons_self
          · rw [mem_singleton.1 hc]
            exact mem_cons_of_mem a mem_cons_self
        · exact mem_cons_of_mem a (mem_cons_of_mem b hz)
      exact ⟨x, hsub x hx, y, hsub y hy, hne⟩

theorem foldlM_lowerOf_congr (hr : ForestOrder r) (hmem : ∀ c, c ∈ a :: l ↔ c ∈ b :: l') :
    l.foldlM (lowerOf r error) a = l'.foldlM (lowerOf r error) b := by
  cases h : l.foldlM (lowerOf r error) a with
  | ok u =>
    have hlowest := (foldlM_lowerOf hr a l).1 h
    exact ((foldlM_lowerOf hr b l').2 (hlowest.congr fun c => (hmem c).symm)).symm
  | error e =>
    cases h' : l'.foldlM (lowerOf r error) b with
    | ok u =>
      have hlowest := (foldlM_lowerOf hr b l').1 h'
      have hother : l.foldlM (lowerOf r error) a = .ok u :=
        (foldlM_lowerOf hr a l).2 (hlowest.congr hmem)
      exact absurd (h.symm.trans hother) nofun
    | error e' => rw [foldlM_lowerOf_error h, foldlM_lowerOf_error h']

end Lowest

end Heddle.Lib
