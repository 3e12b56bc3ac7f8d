import Heddle.Refs.Transactions

namespace Heddle.Refs
open Heddle.Lib List Option

def RefUpdatePlan.prepare (store : RefStore) (plan : RefUpdatePlan) : RefStore :=
  if plan.newContent.isSome then store.createEntry plan.path else store

def RefUpdatePlan.publish (store : RefStore) (plan : RefUpdatePlan) : RefStore :=
  if plan.newContent.isSome || (store.fileAt plan.path).isSome then
    store.setFile plan.path plan.newContent
  else store

def removePacked (plans : List RefUpdatePlan) (store : RefStore) : RefStore :=
  let removals := plans.filterMap RefUpdatePlan.packedRemove
  { store with packed := store.packed.map (removals.foldl PackedRefs.remove) }

def published (plans : List RefUpdatePlan) (store : RefStore) : RefStore :=
  removePacked plans (plans.foldl RefUpdatePlan.publish (plans.foldl RefUpdatePlan.prepare store))

def writtenText (path : RefPath) (plans : List RefUpdatePlan) : Option (Option RefText) :=
  lastSome (fun plan => if plan.path = path then some plan.newContent else none) plans

section Effects

section
variable (store : RefStore) (plan : RefUpdatePlan)

theorem fileAt_prepare (path : RefPath) :
    (plan.prepare store).fileAt path = store.fileAt path := by
  unfold RefUpdatePlan.prepare
  split
  · exact store.fileAt_createEntry path plan.path
  · rfl

theorem packed_prepare :
    (plan.prepare store).packed = store.packed := by
  unfold RefUpdatePlan.prepare
  split
  · exact store.packed_createEntry plan.path
  · rfl

theorem fileAt_publish (path : RefPath) :
    (plan.publish store).fileAt path =
      if plan.path = path then plan.newContent else store.fileAt path := by
  unfold RefUpdatePlan.publish
  by_cases hpath : plan.path = path
  · subst hpath
    rw [if_pos rfl]
    split
    · exact store.fileAt_setFile_self plan.path plan.newContent
    · rename_i hnone
      simp only [Bool.or_eq_true, not_or, Bool.not_eq_true, isSome_eq_false_iff,
        isNone_iff_eq_none] at hnone
      rw [hnone.1, hnone.2]
  · rw [if_neg hpath]
    split
    · exact store.fileAt_setFile_ne (Ne.symm hpath) plan.newContent
    · rfl

theorem packed_publish :
    (plan.publish store).packed = store.packed := by
  unfold RefUpdatePlan.publish
  split
  · exact store.packed_setFile plan.path plan.newContent
  · rfl

end

section
variable (plans : List RefUpdatePlan) (store : RefStore)

theorem fileAt_prepareAll (path : RefPath) :
    (plans.foldl RefUpdatePlan.prepare store).fileAt path = store.fileAt path := by
  induction plans generalizing store with
  | nil => rfl
  | cons plan plans ih => exact (ih (plan.prepare store)).trans (fileAt_prepare store plan path)

theorem packed_prepareAll :
    (plans.foldl RefUpdatePlan.prepare store).packed = store.packed := by
  induction plans generalizing store with
  | nil => rfl
  | cons plan plans ih => exact (ih (plan.prepare store)).trans (packed_prepare store plan)

theorem fileAt_publishAll (path : RefPath) :
    (plans.foldl RefUpdatePlan.publish store).fileAt path =
      (writtenText path plans).getD (store.fileAt path) := by
  unfold writtenText
  induction plans generalizing store with
  | nil => rfl
  | cons plan plans ih =>
    rw [foldl_cons, ih, fileAt_publish, lastSome_cons]
    by_cases hpath : plan.path = path
    · rw [if_pos hpath, if_pos hpath]
      cases lastSome _ plans <;> rfl
    · rw [if_neg hpath, if_neg hpath, or_none]

theorem packed_publishAll :
    (plans.foldl RefUpdatePlan.publish store).packed = store.packed := by
  induction plans generalizing store with
  | nil => rfl
  | cons plan plans ih => exact (ih (plan.publish store)).trans (packed_publish store plan)

theorem fileAt_removePacked (path : RefPath) :
    (removePacked plans store).fileAt path = store.fileAt path := by
  cases path <;> rfl

theorem fileAt_published (path : RefPath) :
    (published plans store).fileAt path = (writtenText path plans).getD (store.fileAt path) := by
  unfold published
  rw [fileAt_removePacked, fileAt_publishAll, fileAt_prepareAll]

end

theorem get_foldl_remove (removals : List RefKey) (packed : PackedRefs) (key : RefKey) :
    (removals.foldl PackedRefs.remove packed).get key =
      if key ∈ removals then none else packed.get key := by
  induction removals generalizing packed with
  | nil => rfl
  | cons removal removals ih =>
    rw [foldl_cons, ih]
    by_cases hrest : key ∈ removals
    · rw [if_pos hrest, if_pos (mem_cons_of_mem _ hrest)]
    · rw [if_neg hrest]
      by_cases hkey : key = removal
      · rw [if_pos (hkey ▸ mem_cons_self), hkey, packed.get_remove_self]
      · rw [if_neg (not_mem_cons_of_ne_of_not_mem hkey hrest), packed.get_remove_ne hkey]

section
variable (plans : List RefUpdatePlan) (store : RefStore) (key : RefKey)

theorem packedGet_removePacked :
    (removePacked plans store).packedRefs.get key =
      if key ∈ plans.filterMap RefUpdatePlan.packedRemove then none
      else store.packedRefs.get key := by
  cases hpacked : store.packed with
  | none =>
    have hempty : ({} : PackedRefs).get key = none := by cases key <;> rfl
    simp only [removePacked, RefStore.packedRefs, hpacked, map_none, getD_none, hempty,
      ite_self]
  | some packed =>
    simp only [removePacked, RefStore.packedRefs, hpacked, map_some, getD_some]
    exact get_foldl_remove _ packed key

theorem packedGet_published :
    (published plans store).packedRefs.get key =
      if key ∈ plans.filterMap RefUpdatePlan.packedRemove then none
      else store.packedRefs.get key := by
  unfold published
  rw [packedGet_removePacked, RefStore.packedRefs, packed_publishAll, packed_prepareAll,
    ← RefStore.packedRefs]

end

theorem summary_foldl (hstep : ∀ store plan, (step store plan).summary = store.summary)
    (plans : List RefUpdatePlan) (store : RefStore) :
    (plans.foldl step store).summary = store.summary := by
  induction plans generalizing store with
  | nil => rfl
  | cons plan plans ih => exact (ih (step store plan)).trans (hstep store plan)

theorem summary_published (plans : List RefUpdatePlan) (store : RefStore) :
    (published plans store).summary = store.summary := by
  have hprepare (store : RefStore) (plan : RefUpdatePlan) :
      (plan.prepare store).summary = store.summary := by
    unfold RefUpdatePlan.prepare
    split
    · exact store.summary_createEntry plan.path
    · rfl
  have hpublish (store : RefStore) (plan : RefUpdatePlan) :
      (plan.publish store).summary = store.summary := by
    unfold RefUpdatePlan.publish
    split
    · exact store.summary_setFile plan.path plan.newContent
    · rfl
  exact (summary_foldl hpublish plans _).trans (summary_foldl hprepare plans store)

end Effects

section Phases
variable {fails : Step → Bool}

def PrepareStep (index : Nat) (plan : RefUpdatePlan) (step : Step) : Prop :=
  plan.newContent.isSome ∧
    (plan.summaryDelta.isSome ∧ step = .nameEntry index ∨
      step = .createParent index ∨ step = .allocTemp index)

def StageStep (index : Nat) (plan : RefUpdatePlan) (step : Step) : Prop :=
  plan.newContent.isSome ∧ step = .stageTemp index

/-- A file is removed only when it is there. -/
def ApplyStep (store : RefStore) (index : Nat) (plan : RefUpdatePlan) (step : Step) : Prop :=
  plan.newContent.isSome ∧ step = .rename index ∨
  plan.newContent = none ∧ (store.fileAt plan.path).isSome ∧ step = .removeFile index

def SyncStep (plans : List RefUpdatePlan) (step : Step) : Prop :=
  ∃ plan ∈ plans, plan.newContent.isSome ∧ step = .syncDirectory plan.path

def PackedStep (plans : List RefUpdatePlan) (store : RefStore) (step : Step) : Prop :=
  store.packed.isSome ∧ (∃ plan ∈ plans, plan.packedRemove.isSome) ∧
    (step = .write .packed ∨ step = .syncWrite .packed)

def Takes (stepOf : Nat → RefUpdatePlan → Step → Prop) (index : Nat) (plans : List RefUpdatePlan)
    (step : Step) : Prop :=
  ∃ plan ∈ plans.zipIdx index, stepOf plan.2 plan.1 step

theorem takes_nil : ¬Takes stepOf index [] step := by
  intro h
  obtain ⟨_, hmem, _⟩ := h
  exact absurd hmem not_mem_nil

theorem takes_cons :
    Takes stepOf index (plan :: plans) step ↔
      stepOf index plan step ∨ Takes stepOf (index + 1) plans step := by
  simp only [Takes, zipIdx_cons, mem_cons, exists_eq_or_imp]

def SameFiles (store : RefStore) (_ : Step) (left : RefStore) : Prop :=
  (∀ path, left.fileAt path = store.fileAt path) ∧ left.packed = store.packed

theorem SameFiles.rfl : SameFiles store step store := ⟨fun _ => .refl _, .refl _⟩

theorem sameFiles_of_eq (h : SameFiles middle step left)
    (hfile : ∀ path, middle.fileAt path = store.fileAt path)
    (hpacked : middle.packed = store.packed) : SameFiles store step left :=
  ⟨fun path => (h.1 path).trans (hfile path), h.2.trans hpacked⟩

theorem writeNameEntry_runs (index : Nat) (plan : RefUpdatePlan) (store : RefStore) :
    Runs fails (fun s => plan.summaryDelta.isSome ∧ s = .nameEntry index)
      (writeNameEntry fails index plan store) store (SameFiles store) := by
  unfold writeNameEntry
  by_cases hname : plan.summaryDelta.isSome
  · have hentry : Runs fails (fun s => s = .nameEntry index)
        (stepThen fails (.nameEntry index) store fun store => (.ok (), store)) store
        (SameFiles store) :=
      Runs.last SameFiles.rfl rfl
    rw [if_pos hname]
    apply hentry.congr
    · intro s
      simp only [hname, true_and]
    · intro s left _ hleft
      exact hleft
  · rw [if_neg hname]
    apply Runs.nothing
    intro s hs
    exact hname hs.1

theorem preparePlan_runs (index : Nat) (plan : RefUpdatePlan) (store : RefStore) :
    Runs fails (PrepareStep index plan) (preparePlan fails index plan store) (plan.prepare store)
      (SameFiles store) := by
  unfold preparePlan RefUpdatePlan.prepare
  by_cases hnew : plan.newContent.isSome
  · rw [if_pos hnew, if_pos hnew]
    have hcreated : SameFiles store (.allocTemp index) (store.createEntry plan.path) :=
      ⟨fun path => store.fileAt_createEntry path plan.path, store.packed_createEntry plan.path⟩
    have halloc : Runs fails (fun s => s = .allocTemp index)
        (stepThen fails (.allocTemp index) (store.createEntry plan.path) fun store => (.ok (), store))
        (store.createEntry plan.path) (SameFiles store) :=
      Runs.last hcreated rfl
    have hparent : Runs fails (fun s => s = .createParent index ∨ s = .allocTemp index)
        (stepThen fails (.createParent index) store fun store =>
          stepThen fails (.allocTemp index) (store.createEntry plan.path)
            fun store => (.ok (), store))
        (store.createEntry plan.path) (SameFiles store) :=
      Runs.failOr SameFiles.rfl halloc
    apply ((writeNameEntry_runs index plan store).andThen hparent).congr
    · intro s
      simp only [PrepareStep, hnew, true_and]
    · intro s left _ hleft
      exact hleft
  · rw [if_neg hnew, if_neg hnew]
    apply Runs.nothing
    intro s hs
    exact hnew hs.1

theorem preparePlans_runs (index : Nat) (plans : List RefUpdatePlan) (store : RefStore) :
    Runs fails (Takes PrepareStep index plans) (preparePlans fails index plans store)
      (plans.foldl RefUpdatePlan.prepare store) (SameFiles store) := by
  induction plans generalizing index store with
  | nil => exact .nothing fun _ => takes_nil
  | cons plan plans ih =>
    have hrest := ih (index + 1) (plan.prepare store)
    apply ((preparePlan_runs index plan store).andThen (hrest.congr (fun _ => .rfl) ?_)).congr
    · intro s
      exact takes_cons.symm
    · intro s left _ hleft
      exact hleft
    · intro s left _ hleft
      exact sameFiles_of_eq hleft (fileAt_prepare store plan) (packed_prepare store plan)

theorem stageTempFiles_runs (index : Nat) (plans : List RefUpdatePlan) (store : RefStore) :
    Runs fails (Takes StageStep index plans) (stageTempFiles fails index plans store) store
      (SameFiles store) := by
  induction plans generalizing index with
  | nil => exact .nothing fun _ => takes_nil
  | cons plan plans ih =>
    unfold stageTempFiles
    by_cases hnew : plan.newContent.isSome
    · rw [if_pos hnew]
      apply (Runs.failOr SameFiles.rfl (ih (index + 1))).congr
      · intro s
        rw [takes_cons, StageStep, hnew, eq_self, true_and]
      · intro s left _ hleft
        exact hleft
    · rw [if_neg hnew]
      apply (ih (index + 1)).congr
      · intro s
        rw [takes_cons, StageStep]
        exact ⟨.inr, fun h => h.resolve_left fun hs => hnew hs.1⟩
      · intro s left _ hleft
        exact hleft

theorem applyPlan_runs (index : Nat) (plan : RefUpdatePlan) (store : RefStore) :
    Runs fails (ApplyStep store index plan) (applyPlan fails index plan store) (plan.publish store)
      (fun _ left => left = store) := by
  unfold applyPlan RefUpdatePlan.publish
  by_cases hnew : plan.newContent.isSome
  · have hrename : Runs fails (fun s => s = .rename index)
        (stepThen fails (.rename index) store fun store =>
          (.ok (), store.setFile plan.path plan.newContent))
        (store.setFile plan.path plan.newContent) (fun _ left => left = store) :=
      Runs.last rfl rfl
    rw [if_pos hnew, if_pos (by rw [hnew, Bool.true_or])]
    apply hrename.congr
    · intro s
      have hne : plan.newContent ≠ none := isSome_iff_ne_none.1 hnew
      simp only [ApplyStep, hnew, hne, true_and, false_and, or_false]
    · intro s left _ hleft
      exact hleft
  · have hnone : plan.newContent = none := not_isSome_iff_eq_none.1 hnew
    rw [if_neg hnew, hnone]
    by_cases hfile : (store.fileAt plan.path).isSome
    · have hremove : Runs fails (fun s => s = .removeFile index)
          (stepThen fails (.removeFile index) store fun store =>
            (.ok (), store.setFile plan.path none))
          (store.setFile plan.path none) (fun _ left => left = store) :=
        Runs.last rfl rfl
      rw [if_pos hfile, if_pos (by rw [hfile, Bool.or_true])]
      apply hremove.congr
      · intro s
        simp only [ApplyStep, hnone, hfile, isSome_none, Bool.false_eq_true, true_and,
          false_and, false_or]
      · intro s left _ hleft
        exact hleft
    · rw [if_neg hfile, if_neg (by simp only [isSome_none, hfile, Bool.or_self,
        Bool.false_eq_true, not_false_eq_true])]
      apply Runs.nothing
      intro s hs
      rcases hs with hs | hs
      · exact hnew hs.1
      · exact hfile hs.2.1

theorem syncDirectories_runs (parents : List RefPath) (store : RefStore) :
    Runs fails (fun s => ∃ parent ∈ parents, s = .syncDirectory parent)
      (syncDirectories fails parents store) store (fun _ left => left = store) := by
  induction parents with
  | nil => exact .nothing fun _ h => absurd h.choose_spec.1 not_mem_nil
  | cons parent parents ih =>
    have hparent : Runs fails
        (fun s => s = .syncDirectory parent ∨ ∃ parent ∈ parents, s = .syncDirectory parent)
        (stepThen fails (.syncDirectory parent) store (syncDirectories fails parents))
        store (fun _ left => left = store) :=
      Runs.failOr rfl ih
    apply hparent.congr
    · intro s
      simp only [mem_cons, exists_eq_or_imp]
    · intro s left _ hleft
      exact hleft

theorem writeFileAtomic_runs (hleft : left (.write site) store)
    (hleft' : left (.syncWrite site) written) :
    Runs fails (fun s => s = .write site ∨ s = .syncWrite site)
      (writeFileAtomic fails site store written) written left := by
  have hsync : Runs fails (fun s => s = .syncWrite site)
      (stepThen fails (.syncWrite site) written fun written => (.ok (), written)) written left :=
    Runs.last hleft' rfl
  unfold writeFileAtomic
  apply Runs.failOr hleft
  exact hsync

theorem applyPackedRemovals_runs (plans : List RefUpdatePlan) (store : RefStore) :
    Runs fails (PackedStep plans store) (applyPackedRemovals fails plans store)
      (removePacked plans store) (fun _ left => ∀ path, left.fileAt path = store.fileAt path) := by
  have hempty : (plans.filterMap RefUpdatePlan.packedRemove).isEmpty = true ↔
      ¬∃ plan ∈ plans, plan.packedRemove.isSome := by
    simp only [List.isEmpty_iff, List.filterMap_eq_nil_iff, not_exists, not_and,
      not_isSome_iff_eq_none]
  unfold applyPackedRemovals removePacked
  generalize plans.filterMap RefUpdatePlan.packedRemove = removals at hempty ⊢
  by_cases hremovals : removals.isEmpty = true
  · have hsame : { store with packed := store.packed.map (removals.foldl PackedRefs.remove) } =
        store := by
      rw [isEmpty_iff.1 hremovals]
      cases store with
      | mk head entries packed summary => cases packed <;> rfl
    simp only [hremovals, if_true]
    rw [hsame]
    apply Runs.nothing
    intro s hs
    exact hempty.1 hremovals hs.2.1
  · simp only [if_neg hremovals]
    cases hpacked : store.packed with
    | none =>
      have hsame : { store with packed := none } = store := by
        cases store with
        | mk head entries packed summary =>
          cases hpacked
          rfl
      rw [map_none, hsame]
      apply Runs.nothing
      intro s hs
      have hsome := hs.1
      rw [hpacked] at hsome
      cases hsome
    | some packed =>
      have hwrite : Runs fails (fun s => s = .write .packed ∨ s = .syncWrite .packed)
          (writeFileAtomic fails .packed store { store with packed := some (removals.foldl
            PackedRefs.remove packed) })
          { store with packed := some (removals.foldl PackedRefs.remove packed) }
          (fun _ left => ∀ path, left.fileAt path = store.fileAt path) :=
        writeFileAtomic_runs (fun path => rfl) (fun path => by cases path <;> rfl)
      apply hwrite.congr
      · intro s
        have hany := not_not.1 (fun h => hremovals (hempty.2 h))
        simp only [PackedStep, hpacked, isSome_some, hany, true_and]
      · intro s left _ hleft
        exact hleft

end Phases

end Heddle.Refs
