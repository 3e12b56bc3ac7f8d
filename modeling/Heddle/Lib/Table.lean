import Mathlib.Data.List.Nodup

namespace Heddle.Lib
open List

structure Table (κ ν : Type) where
  entries : List (κ × ν)
  nodup : (entries.map Prod.fst).Nodup

namespace Table
variable [DecidableEq κ]

def empty : Table κ ν := ⟨[], nodup_nil⟩

def lookup (t : Table κ ν) (k : κ) : Option ν := (t.entries.find? fun e => e.1 = k).map Prod.snd

def retain (keep : κ → ν → Bool) (t : Table κ ν) : Table κ ν where
  entries := t.entries.filter fun e => keep e.1 e.2
  nodup := t.nodup.sublist (filter_sublist.map _)

def erase (k : κ) (t : Table κ ν) : Table κ ν := t.retain fun k' _ => k' ≠ k

def insert (k : κ) (v : ν) (t : Table κ ν) : Table κ ν where
  entries := (k, v) :: (t.erase k).entries
  nodup := by
    rw [map_cons, nodup_cons]
    refine ⟨fun hmem => ?_, (t.erase k).nodup⟩
    obtain ⟨e, he, hk⟩ := mem_map.1 hmem
    exact of_decide_eq_true (mem_filter.1 he).2 hk

def mapValues (f : ν → μ) (t : Table κ ν) : Table κ μ where
  entries := t.entries.map fun e => (e.1, f e.2)
  nodup := by
    rw [map_map]
    exact t.nodup

theorem lookup_eq_some {t : Table κ ν} : t.lookup k = some v ↔ (k, v) ∈ t.entries := by
  constructor
  · intro h
    obtain ⟨e, he, rfl⟩ := Option.map_eq_some_iff.1 h
    have hk : e.1 = k := of_decide_eq_true (find?_some he :)
    exact hk ▸ mem_of_find?_eq_some he
  · intro hmem
    cases hfind : t.entries.find? fun e => e.1 = k with
    | none => exact absurd (decide_eq_true rfl) (find?_eq_none.1 hfind _ hmem)
    | some e =>
      have hk : e.1 = k := of_decide_eq_true (find?_some hfind :)
      have heq : e = (k, v) :=
        inj_on_of_nodup_map t.nodup (mem_of_find?_eq_some hfind) hmem hk
      rw [lookup, hfind, heq]
      rfl

theorem ext_lookup {t : Table κ ν} (h : ∀ v, (k, v) ∈ t.entries ↔ r = some v) : t.lookup k = r :=
  Option.ext fun v => lookup_eq_some.trans (h v)

@[simp] theorem lookup_empty (k : κ) : (empty : Table κ ν).lookup k = none := rfl

@[simp] theorem lookup_retain (keep : κ → ν → Bool) (t : Table κ ν) (k : κ) :
    (t.retain keep).lookup k = (t.lookup k).filter (keep k) := by
  apply ext_lookup
  intro v
  rw [Option.filter_eq_some_iff, lookup_eq_some]
  exact mem_filter

theorem lookup_erase (t : Table κ ν) (k k' : κ) :
    (t.erase k').lookup k = if k = k' then none else t.lookup k := by
  rw [erase, lookup_retain]
  by_cases hk : k = k'
  · rw [if_pos hk, Option.filter_eq_none_iff]
    exact fun v _ hkeep => of_decide_eq_true hkeep hk
  · rw [if_neg hk, decide_eq_true hk]
    cases t.lookup k with
    | none => rfl
    | some v => rfl

theorem lookup_insert (t : Table κ ν) (k k' : κ) (v : ν) :
    (t.insert k' v).lookup k = if k = k' then some v else t.lookup k := by
  by_cases hk : k = k'
  · rw [if_pos hk, hk]
    exact lookup_eq_some.2 mem_cons_self
  · rw [if_neg hk]
    have herase : (t.erase k').lookup k = t.lookup k := by rw [lookup_erase, if_neg hk]
    rw [← herase]
    apply ext_lookup
    intro w
    rw [lookup_eq_some]
    exact ⟨fun h => (mem_cons.1 h).resolve_left fun h => hk (congrArg Prod.fst h),
      mem_cons_of_mem _⟩

@[simp] theorem lookup_erase_self (t : Table κ ν) (k : κ) : (t.erase k).lookup k = none := by
  rw [lookup_erase, if_pos rfl]

theorem lookup_erase_ne {t : Table κ ν} (h : k ≠ k') : (t.erase k').lookup k = t.lookup k := by
  rw [lookup_erase, if_neg h]

@[simp] theorem lookup_insert_self (t : Table κ ν) (k : κ) (v : ν) :
    (t.insert k v).lookup k = some v := by
  rw [lookup_insert, if_pos rfl]

theorem lookup_insert_ne {t : Table κ ν} (h : k ≠ k') : (t.insert k' v).lookup k = t.lookup k := by
  rw [lookup_insert, if_neg h]

@[simp] theorem lookup_mapValues (f : ν → μ) (t : Table κ ν) (k : κ) :
    (t.mapValues f).lookup k = (t.lookup k).map f := by
  apply ext_lookup
  intro v
  rw [Option.map_eq_some_iff]
  constructor
  · intro hmem
    obtain ⟨e, he, heq⟩ := mem_map.1 hmem
    obtain ⟨rfl, rfl⟩ := Prod.mk.inj heq
    exact ⟨e.2, lookup_eq_some.2 he, rfl⟩
  · rintro ⟨u, hu, rfl⟩
    exact mem_map.2 ⟨(k, u), lookup_eq_some.1 hu, rfl⟩

end Table

end Heddle.Lib
