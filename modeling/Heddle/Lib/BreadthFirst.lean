import Heddle.Lib.Ancestry
import Mathlib.Data.List.Infix

namespace Heddle.Lib
open List

namespace ParentGraph
variable {g : ParentGraph V}

def parentsOf (g : ParentGraph V) (v : V) : List V := (g v).getD []

/-- The states that are `n` steps above `root`, once for each path to them. -/
def level (g : ParentGraph V) (root : V) : Nat → List V
  | 0 => [root]
  | n + 1 => (g.level root n).flatMap g.parentsOf

def levels (g : ParentGraph V) (root : V) (n : Nat) : List V := (List.range n).flatMap (g.level root)

/-- Level by level, a child of `target` comes before every state that cannot be read. -/
def MetFirst (g : ParentGraph V) (target root : V) : Prop :=
  ∃ n before v after, g.levels root n = before ++ v :: after ∧ g.Step v target ∧
    ∀ w ∈ before, g.Available w

theorem mem_parentsOf : p ∈ g.parentsOf v ↔ g.Step v p := by
  unfold parentsOf
  cases h : g v with
  | none => exact ⟨nofun, fun hs => absurd hs.available (not_available h)⟩
  | some parents => exact (step_iff h).symm

theorem levels_succ (g : ParentGraph V) (root : V) (n : Nat) :
    g.levels root (n + 1) = root :: (g.levels root n).flatMap g.parentsOf := by
  rw [levels, range_succ_eq_map, flatMap_cons, flatMap_map, levels, flatMap_assoc]
  rfl

theorem levels_prefix (g : ParentGraph V) (root : V) (h : m ≤ n) :
    g.levels root m <+: g.levels root n := by
  obtain ⟨k, rfl⟩ := Nat.exists_eq_add_of_le h
  rw [levels, levels, range_add, flatMap_append]
  exact prefix_append _ _

theorem reaches_of_mem_levels (h : v ∈ g.levels root n) : g.Reaches root v := by
  induction n generalizing v with
  | zero => exact absurd h not_mem_nil
  | succ n ih =>
    rw [levels_succ] at h
    rcases mem_cons.1 h with rfl | h
    · exact .refl
    · obtain ⟨w, hw, hv⟩ := mem_flatMap.1 h
      exact (ih hw).tail (mem_parentsOf.1 hv)

/-- The search that follows every path: `done` was popped, `rest` is queued. -/
structure Naive (g : ParentGraph V) (root : V) (done rest : List V) : Prop where
  queue : done ++ rest = root :: done.flatMap g.parentsOf
  listed : ∃ n, done <+: g.levels root n

theorem naive_start (g : ParentGraph V) (root : V) : g.Naive root [] [root] := ⟨rfl, 0, nil_prefix⟩

namespace Naive

theorem listed_all (h : g.Naive root done rest) : ∃ n, done ++ rest <+: g.levels root n := by
  obtain ⟨n, suffix, hn⟩ := h.listed
  refine ⟨n + 1, ?_⟩
  rw [h.queue, levels_succ, ← hn, flatMap_append, ← cons_append]
  exact prefix_append _ _

theorem advance (h : g.Naive root done (block ++ rest)) :
    g.Naive root (done ++ block) (rest ++ block.flatMap g.parentsOf) := by
  constructor
  · have hqueue := h.queue
    rw [← append_assoc] at hqueue
    rw [← append_assoc, hqueue, flatMap_append, cons_append]
  · obtain ⟨n, hn⟩ := h.listed_all
    rw [← append_assoc] at hn
    exact ⟨n, (prefix_append _ _).trans hn⟩

theorem metFirst (h : g.Naive root done (v :: rest)) (hdone : ∀ w ∈ done, g.Available w)
    (hs : g.Step v target) : g.MetFirst target root := by
  obtain ⟨n, suffix, hn⟩ := h.listed_all
  exact ⟨n, done, v, rest ++ suffix, by rw [← hn, append_assoc]; rfl, hs, hdone⟩

theorem not_metFirst (h : g.Naive root done (v :: rest)) (hdone : ∀ w ∈ done, ¬ g.Step w target)
    (hv : ¬ g.Available v) : ¬ g.MetFirst target root := by
  rintro ⟨m, before, w, after, hm, hs, hbefore⟩
  obtain ⟨n, hn⟩ := h.listed_all
  have hleft : before ++ [w] <+: g.levels root (max m n) := by
    refine List.IsPrefix.trans ⟨after, ?_⟩ (g.levels_prefix root (Nat.le_max_left m n))
    rw [hm, append_assoc]
    rfl
  have hright : done ++ [v] <+: g.levels root (max m n) := by
    refine List.IsPrefix.trans ⟨rest, ?_⟩ (hn.trans (g.levels_prefix root (Nat.le_max_right m n)))
    rw [append_assoc]
    rfl
  rcases prefix_or_prefix_of_prefix hleft hright with hshort | hshort
  · rcases mem_append.1 (hshort.subset (mem_append_right _ mem_cons_self)) with hw | hw
    · exact hdone w hw hs
    · exact hv (mem_singleton.1 hw ▸ hs.available)
  · rcases mem_append.1 (hshort.subset (mem_append_right _ mem_cons_self)) with hw | hw
    · exact hv (hbefore v hw)
    · exact hv (mem_singleton.1 hw ▸ hs.available)

end Naive

end ParentGraph

/-- A queue without what was seen before, beside the queue of the search that follows every path. -/
inductive Dedups : List V → List V → List V → Prop
  | nil : Dedups seen [] []
  | both : Dedups (v :: seen) naive queue → Dedups seen (v :: naive) (v :: queue)
  | again : v ∈ seen → Dedups seen naive queue → Dedups seen (v :: naive) queue

namespace Dedups
variable {seen naive queue : List V}

theorem mono (h : Dedups seen naive queue) (hsub : ∀ v ∈ seen, v ∈ seen') :
    Dedups seen' naive queue := by
  induction h generalizing seen' with
  | nil => exact .nil
  | both _ ih =>
    refine .both (ih fun w hw => ?_)
    rcases mem_cons.1 hw with rfl | hw
    · exact mem_cons_self
    · exact mem_cons_of_mem _ (hsub w hw)
  | again hv _ ih => exact .again (hsub _ hv) (ih hsub)

theorem seen_append (hvs : ∀ v ∈ vs, v ∈ seen) : Dedups seen vs [] := by
  induction vs with
  | nil => exact .nil
  | cons v vs ih =>
    exact .again (hvs v mem_cons_self) (ih fun w hw => hvs w (mem_cons_of_mem v hw))

/-- What is seen or queued may be queued again by the search that follows every path. -/
theorem append_again (h : Dedups seen naive queue) (hvs : ∀ v ∈ vs, v ∈ seen ∨ v ∈ queue) :
    Dedups seen (naive ++ vs) queue := by
  induction h with
  | nil => exact seen_append fun v hv => (hvs v hv).resolve_right not_mem_nil
  | both _ ih =>
    refine .both (ih fun w hw => ?_)
    rcases hvs w hw with hmem | hmem
    · exact .inl (mem_cons_of_mem _ hmem)
    · rcases mem_cons.1 hmem with rfl | hmem
      · exact .inl mem_cons_self
      · exact .inr hmem
  | again hv _ ih => exact .again hv (ih hvs)

theorem append_both (h : Dedups seen naive queue) (vs : List V) :
    Dedups seen (naive ++ vs) (queue ++ vs) := by
  induction h with
  | nil =>
    rename_i seen
    induction vs generalizing seen with
    | nil => exact .nil
    | cons v vs ih => exact .both ih
  | both _ ih => exact .both ih
  | again hv _ ih => exact .again hv ih

theorem head (h : Dedups seen naive (v :: queue)) : ∃ block rest, naive = block ++ v :: rest ∧
    (∀ w ∈ block, w ∈ seen) ∧ Dedups (v :: seen) rest queue := by
  generalize hqueue : v :: queue = all at h
  induction h with
  | nil => cases hqueue
  | both h _ =>
    obtain ⟨rfl, rfl⟩ := List.cons.inj hqueue
    exact ⟨[], _, rfl, nofun, h⟩
  | again hw _ ih =>
    obtain ⟨block, rest, rfl, hblock, h⟩ := ih hqueue
    exact ⟨_ :: block, rest, rfl, forall_mem_cons.2 ⟨hw, hblock⟩, h⟩

end Dedups

end Heddle.Lib
