import Heddle.Lib.SortedMap
import Mathlib.Data.List.TakeWhile

namespace Heddle.Lib.SortedMap
open List Option

variable {κ ν : Type} [LinearOrder κ]

def replay (edits : List (κ × Option ν)) (m : SortedMap κ ν) : SortedMap κ ν :=
  edits.foldl (fun m edit => m.put edit.1 edit.2) m

def lastEdit (k : κ) : List (κ × Option ν) → Option (Option ν)
  | [] => none
  | edit :: edits => (lastEdit k edits).or (if edit.1 = k then some edit.2 else none)

theorem replay_append (first second : List (κ × Option ν)) (m : SortedMap κ ν) :
    m.replay (first ++ second) = (m.replay first).replay second :=
  foldl_append

theorem replay_cons (edit : κ × Option ν) (edits : List (κ × Option ν)) (m : SortedMap κ ν) :
    m.replay (edit :: edits) = (m.put edit.1 edit.2).replay edits :=
  rfl

theorem get_replay (edits : List (κ × Option ν)) (m : SortedMap κ ν) (k : κ) :
    (m.replay edits).get k = (lastEdit k edits).getD (m.get k) := by
  induction edits generalizing m with
  | nil => rfl
  | cons edit edits ih =>
    rw [replay_cons, ih, lastEdit, get_put]
    cases lastEdit k edits with
    | some last => rfl
    | none =>
      rw [none_or]
      by_cases hk : edit.1 = k
      · rw [if_pos hk, if_pos hk.symm]
        rfl
      · rw [if_neg hk, if_neg (Ne.symm hk)]

theorem replay_replay (edits : List (κ × Option ν)) (m : SortedMap κ ν) :
    (m.replay edits).replay edits = m.replay edits := by
  apply ext_get
  intro k
  rw [get_replay, get_replay]
  cases lastEdit k edits with
  | none => rfl
  | some last => rfl

theorem lastEdit_eq_none {edits : List (κ × Option ν)} :
    lastEdit k edits = none ↔ ∀ edit ∈ edits, edit.1 ≠ k := by
  induction edits with
  | nil => exact ⟨fun _ _ h => absurd h not_mem_nil, fun _ => rfl⟩
  | cons edit edits ih =>
    rw [lastEdit, or_eq_none_iff, ih, forall_mem_cons, and_comm]
    by_cases hk : edit.1 = k
    · rw [if_pos hk]
      exact ⟨fun h => absurd h.1 nofun, fun h => absurd hk h.1⟩
    · rw [if_neg hk]
      exact ⟨fun h => ⟨hk, h.2⟩, fun h => ⟨rfl, h.2⟩⟩

theorem lastEdit_isSome {edits : List (κ × Option ν)} (h : edit ∈ edits) (hk : edit.1 = k) :
    ∃ last, lastEdit k edits = some last := by
  cases hlast : lastEdit k edits with
  | some last => exact ⟨last, rfl⟩
  | none => exact absurd hk (lastEdit_eq_none.1 hlast edit h)

theorem lastEdit_removals {keys : List κ} :
    lastEdit k (keys.map fun key => (key, (none : Option ν))) = if k ∈ keys then some none else none := by
  induction keys with
  | nil => rfl
  | cons key keys ih =>
    rw [map_cons, lastEdit, ih]
    by_cases hk : key = k
    · subst hk
      rw [if_pos rfl, if_pos mem_cons_self]
      split
      · rfl
      · rfl
    · rw [if_neg hk, or_none]
      simp only [mem_cons, Ne.symm hk, false_or]

theorem get_empty (k : κ) : (empty : SortedMap κ ν).get k = none :=
  rfl

theorem lastEdit_entries {entries : List (κ × ν)} (hs : SortedBy Prod.fst entries) :
    lastEdit k (entries.map fun entry => (entry.1, some entry.2)) = some (some v) ↔ (k, v) ∈ entries := by
  induction entries with
  | nil => exact ⟨nofun, nofun⟩
  | cons entry entries ih =>
    obtain ⟨habove, hrest⟩ := sortedBy_cons.1 hs
    rw [map_cons, lastEdit, mem_cons]
    by_cases hk : entry.1 = k
    · have hnone : lastEdit k (entries.map fun entry => (entry.1, some entry.2)) = none := by
        apply lastEdit_eq_none.2
        intro edit hedit
        obtain ⟨later, hlater, rfl⟩ := mem_map.1 hedit
        exact hk ▸ (habove later hlater).ne'
      have habsent : (k, v) ∉ entries := by
        intro hmem
        exact absurd (habove (k, v) hmem) (hk ▸ lt_irrefl _)
      rw [hnone, none_or, if_pos hk, some.injEq, some.injEq]
      simp only [habsent, or_false, Prod.ext_iff, hk, true_and, eq_comm]
    · rw [if_neg hk, or_none, ih hrest]
      simp only [Prod.ext_iff, Ne.symm hk, false_and, false_or]

theorem replay_entries (m : SortedMap κ ν) :
    empty.replay (m.entries.map fun entry => (entry.1, some entry.2)) = m := by
  apply ext_get
  intro k
  rw [get_replay]
  apply Option.ext
  intro v
  rw [get_eq_some, ← lastEdit_entries m.sorted]
  change (lastEdit k _).getD none = some v ↔ _
  cases lastEdit k (m.entries.map fun entry => (entry.1, some entry.2)) with
  | none => exact ⟨nofun, nofun⟩
  | some last =>
    rw [getD_some, some.injEq]

theorem lastEdit_append (first second : List (κ × Option ν)) :
    lastEdit k (first ++ second) = (lastEdit k second).or (lastEdit k first) := by
  induction first with
  | nil => exact (Option.or_none).symm
  | cons edit first ih => rw [cons_append, lastEdit, ih, lastEdit, Option.or_assoc]

theorem mem_of_lastEdit {edits : List (κ × Option ν)} (h : lastEdit k edits = some last) :
    (k, last) ∈ edits := by
  induction edits with
  | nil => cases h
  | cons edit edits ih =>
    rw [lastEdit, or_eq_some_iff] at h
    rcases h with h | ⟨_, h⟩
    · exact .tail _ (ih h)
    · split at h
      · rename_i hk
        cases h
        exact hk ▸ .head _
      · cases h

def Within (m m' : SortedMap κ ν) : Prop := ∀ k v, m.get k = some v → m'.get k = some v

theorem Within.refl (m : SortedMap κ ν) : m.Within m := fun _ _ h => h

theorem Within.replay {m m' : SortedMap κ ν} (h : m.Within m') (edits : List (κ × Option ν)) :
    (m.replay edits).Within (m'.replay edits) := by
  intro k v hget
  rw [get_replay] at hget ⊢
  cases hlast : lastEdit k edits with
  | some last =>
    rw [hlast] at hget
    exact hget
  | none =>
    rw [hlast] at hget
    exact h k v hget

end Heddle.Lib.SortedMap
