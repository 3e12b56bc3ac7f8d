import Heddle.Refs.Transactions

namespace Heddle.Refs
open Heddle.Lib List Option

def RefUpdate.path : RefUpdate → RefPath
  | .point key _ _ => .entry key
  | .head _ _ => .head

def RefUpdate.pointKey : RefUpdate → Option RefKey
  | .point key _ _ => some key
  | .head _ _ => none

def RefsOnce (updates : List RefUpdate) : Prop := (updates.map RefUpdate.path).Nodup

instance : Decidable (RefsOnce updates) :=
  inferInstanceAs (Decidable (updates.map RefUpdate.path).Nodup)

/-- No ref but HEAD is updated twice. -/
def PointsOnce (updates : List RefUpdate) : Prop := (updates.filterMap RefUpdate.pointKey).Nodup

section Planning
variable (names : RefNames) (store : RefStore)

def UpdateHolds : RefUpdate → Prop
  | .point key expected _ => ∃ current, rawGet names store key = .ok current ∧
      matchesExpectation expected current current.isSome = true
  | .head expected _ => ∃ current, readHeadState names store = .ok current ∧
      matchesExpectation expected (some current.head) current.existsOnDisk = true

def ExpectationsHold (updates : List RefUpdate) : Prop :=
  ∀ update ∈ updates, UpdateHolds names store update

def planOf : RefUpdate → RefUpdatePlan
  | .point key _ new => pointPlan key (okOr none (rawGet names store key)) new
  | .head _ new => headPlan store.head new

def seenAfter (seen : List RefPath) (update : RefUpdate) : List RefPath :=
  update.pointKey.elim seen (fun key => .entry key :: seen)

variable {names store}

theorem refPath_of_rawGet (h : rawGet names store key = .ok current) :
    refPath names key = .ok (.entry key) := by
  obtain ⟨path, hpath, _⟩ := bind_eq_ok.1 h
  rw [hpath, refPath_ok hpath]

theorem planPath_of_rawGet (h : rawGet names store key = .ok current) :
    planPath names store key = .ok (.entry key) := by
  cases key with
  | thread name => exact bind_eq_ok.2 ⟨current, h, refPath_of_rawGet h⟩
  | marker name => exact refPath_of_rawGet h
  | remoteThread remote thread => exact refPath_of_rawGet h

theorem planPath_ok (h : planPath names store key = .ok path) : path = .entry key := by
  cases key with
  | thread name =>
    obtain ⟨_, _, h⟩ := bind_eq_ok.1 h
    exact refPath_ok h
  | marker name => exact refPath_ok h
  | remoteThread remote thread => exact refPath_ok h

theorem readHeadState_raw (h : readHeadState names store = .ok current) : current.raw = store.head := by
  unfold readHeadState at h
  split at h
  · rename_i hnone
    rw [hnone, ← Except.ok.inj h]
  · rename_i contents hsome
    obtain ⟨head, _, h⟩ := bind_eq_ok.1 h
    rw [hsome, ← Except.ok.inj h]

theorem planPointUpdate_ok_iff :
    planPointUpdate names store seen key expected new = .ok r ↔
      UpdateHolds names store (.point key expected new) ∧ .entry key ∉ seen ∧
        r = (.entry key :: seen, planOf names store (.point key expected new)) := by
  constructor
  · intro h
    obtain ⟨path, hpath, h⟩ := bind_eq_ok.1 h
    rw [planPath_ok hpath] at h
    split at h
    · cases h
    · rename_i hseen
      obtain ⟨current, hcurrent, h⟩ := bind_eq_ok.1 h
      split at h
      · rename_i hmatches
        refine ⟨⟨current, hcurrent, hmatches⟩, hseen, ?_⟩
        rw [planOf, hcurrent]
        exact (Except.ok.inj h).symm
      · cases h
  · intro h
    obtain ⟨⟨current, hcurrent, hmatches⟩, hseen, rfl⟩ := h
    apply bind_eq_ok.2
    refine ⟨.entry key, planPath_of_rawGet hcurrent, ?_⟩
    rw [if_neg hseen]
    apply bind_eq_ok.2
    refine ⟨current, hcurrent, ?_⟩
    rw [if_pos hmatches, planOf, hcurrent]
    rfl

theorem planHeadUpdate_ok_iff :
    planHeadUpdate names store seen expected new = .ok r ↔
      UpdateHolds names store (.head expected new) ∧
        r = (seen, planOf names store (.head expected new)) := by
  constructor
  · intro h
    obtain ⟨current, hcurrent, h⟩ := bind_eq_ok.1 h
    split at h
    · rename_i hmatches
      refine ⟨⟨current, hcurrent, hmatches⟩, ?_⟩
      rw [planOf, ← readHeadState_raw hcurrent]
      exact (Except.ok.inj h).symm
    · cases h
  · intro h
    obtain ⟨⟨current, hcurrent, hmatches⟩, rfl⟩ := h
    apply bind_eq_ok.2
    refine ⟨current, hcurrent, ?_⟩
    rw [if_pos hmatches, planOf, ← readHeadState_raw hcurrent]
    rfl

theorem planRefUpdate_ok_iff :
    planRefUpdate names store (seen, plans) update = .ok r ↔
      UpdateHolds names store update ∧ (∀ key ∈ update.pointKey, .entry key ∉ seen) ∧
        r = (seenAfter seen update, plans ++ [planOf names store update]) := by
  cases update with
  | point key expected new =>
    simp only [planRefUpdate, bind_eq_ok, planPointUpdate_ok_iff, RefUpdate.pointKey, seenAfter,
      mem_def, some.injEq, forall_eq', elim_some, pure_eq_ok, Except.ok.injEq]
    constructor
    · intro h
      obtain ⟨_, ⟨hholds, hseen, rfl⟩, hr⟩ := h
      exact ⟨hholds, hseen, hr.symm⟩
    · intro h
      obtain ⟨hholds, hseen, hr⟩ := h
      exact ⟨_, ⟨hholds, hseen, rfl⟩, hr.symm⟩
  | head expected new =>
    simp only [planRefUpdate, bind_eq_ok, planHeadUpdate_ok_iff, RefUpdate.pointKey, seenAfter,
      not_mem_none, IsEmpty.forall_iff, implies_true, true_and, elim_none, pure_eq_ok,
      Except.ok.injEq]
    constructor
    · intro h
      obtain ⟨_, ⟨hholds, rfl⟩, hr⟩ := h
      exact ⟨hholds, hr.symm⟩
    · intro h
      obtain ⟨hholds, hr⟩ := h
      exact ⟨_, ⟨hholds, rfl⟩, hr.symm⟩

theorem mem_seenAfter :
    .entry key ∉ seenAfter seen update ↔ key ∉ update.pointKey ∧ .entry key ∉ seen := by
  cases update with
  | point key' expected new =>
    simp only [seenAfter, RefUpdate.pointKey, elim_some, mem_cons, RefPath.entry.injEq,
      not_or, mem_def, some.injEq, eq_comm (a := key)]
  | head expected new =>
    simp only [seenAfter, RefUpdate.pointKey, elim_none, not_mem_none,
      not_false_eq_true, true_and]

theorem pointsOnce_cons :
    PointsOnce (update :: updates) ↔
      (∀ key ∈ updates.filterMap RefUpdate.pointKey, key ∉ update.pointKey) ∧
        PointsOnce updates := by
  unfold PointsOnce
  rw [filterMap_cons]
  cases update.pointKey with
  | none => simp only [not_mem_none, not_false_eq_true, implies_true, true_and]
  | some key =>
    rw [nodup_cons]
    apply and_congr_left
    intro _
    constructor
    · intro h key' hkey' heq
      exact h (some.inj heq ▸ hkey')
    · intro h hkey
      exact h key hkey rfl

theorem foldlM_planRefUpdate (names : RefNames) (store : RefStore) (updates : List RefUpdate)
    (seen : List RefPath) (plans plans' : List RefUpdatePlan) :
    (∃ seen', updates.foldlM (planRefUpdate names store) (seen, plans) = .ok (seen', plans')) ↔
      ExpectationsHold names store updates ∧ PointsOnce updates ∧
        (∀ key ∈ updates.filterMap RefUpdate.pointKey, .entry key ∉ seen) ∧
        plans' = plans ++ updates.map (planOf names store) := by
  induction updates generalizing seen plans with
  | nil =>
    constructor
    · intro h
      obtain ⟨_, h⟩ := h
      cases h
      refine ⟨fun _ h => absurd h not_mem_nil, nodup_nil,
        fun _ h => absurd h not_mem_nil, (append_nil _).symm⟩
    · intro h
      exact ⟨seen, by rw [h.2.2.2, map_nil, append_nil]; rfl⟩
  | cons update updates ih =>
    have hkeys : (∀ key ∈ (update :: updates).filterMap RefUpdate.pointKey, .entry key ∉ seen) ↔
        (∀ key ∈ update.pointKey, .entry key ∉ seen) ∧
          ∀ key ∈ updates.filterMap RefUpdate.pointKey, .entry key ∉ seen := by
      rw [filterMap_cons]
      cases update.pointKey with
      | none => simp only [not_mem_none, IsEmpty.forall_iff, implies_true, true_and]
      | some key => simp only [mem_cons, forall_eq_or_imp, mem_def, some.injEq,
          forall_eq']
    have hstep : (∃ seen', (update :: updates).foldlM (planRefUpdate names store) (seen, plans) =
        .ok (seen', plans')) ↔
        UpdateHolds names store update ∧ (∀ key ∈ update.pointKey, .entry key ∉ seen) ∧
          ∃ seen', updates.foldlM (planRefUpdate names store)
            (seenAfter seen update, plans ++ [planOf names store update]) =
              .ok (seen', plans') := by
      simp only [foldlM_cons, bind_eq_ok, planRefUpdate_ok_iff]
      constructor
      · intro h
        obtain ⟨seen', _, ⟨hholds, hseen, rfl⟩, hrest⟩ := h
        exact ⟨hholds, hseen, seen', hrest⟩
      · intro h
        obtain ⟨hholds, hseen, seen', hrest⟩ := h
        exact ⟨seen', _, ⟨hholds, hseen, rfl⟩, hrest⟩
    have hafter : (∀ key ∈ updates.filterMap RefUpdate.pointKey,
        .entry key ∉ seenAfter seen update) ↔
        (∀ key ∈ updates.filterMap RefUpdate.pointKey, key ∉ update.pointKey) ∧
          ∀ key ∈ updates.filterMap RefUpdate.pointKey, .entry key ∉ seen := by
      simp only [mem_seenAfter, forall_and]
    rw [hstep, ih, hkeys, hafter, pointsOnce_cons, ExpectationsHold, ExpectationsHold,
      forall_mem_cons, map_cons, append_assoc, singleton_append]
    tauto

theorem planRefUpdates_ok_iff :
    planRefUpdates names store updates = .ok plans ↔
      ExpectationsHold names store updates ∧ PointsOnce updates ∧
        plans = updates.map (planOf names store) := by
  have hfold := foldlM_planRefUpdate names store updates [] [] plans
  simp only [not_mem_nil, not_false_eq_true, implies_true, true_and, nil_append] at hfold
  rw [← hfold]
  unfold planRefUpdates
  rw [bind_eq_ok]
  constructor
  · intro h
    obtain ⟨planned, hplanned, hplans⟩ := h
    exact ⟨planned.1, Except.ok.inj hplans ▸ hplanned⟩
  · intro h
    obtain ⟨seen, hseen⟩ := h
    exact ⟨(seen, plans), hseen, rfl⟩

end Planning

end Heddle.Refs
