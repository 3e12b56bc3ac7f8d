import Heddle.Refs.Publication
import Mathlib.Data.List.Dedup

namespace Heddle.Refs
open Heddle.Lib List

def Step.undoes : Step → Bool
  | .write (.restore _) | .syncWrite (.restore _) => true
  | .write .restorePacked | .syncWrite .restorePacked => true
  | .removeRestored _ | .removePacked => true
  | _ => false

def SingleFault (fails : Step → Bool) : Prop :=
  ∀ step step', fails step = true → fails step' = true → step = step'

theorem singleFault_none : SingleFault (fun _ => false) := fun _ _ h => nomatch h

/-- What a rollback leaves: a file is as it was, or holds what its plan kept of it. -/
def Restored (plans : List RefUpdatePlan) (store left : RefStore) : Prop :=
  left.packed = store.packed ∧ ∀ path, left.fileAt path = store.fileAt path ∨
    ∃ plan ∈ plans, plan.path = path ∧ left.fileAt path = plan.previousContent

/-- A file that is deleted belongs to no earlier plan. -/
def DeletesOnce (plans : List RefUpdatePlan) : Prop :=
  plans.Pairwise (fun earlier later => later.newContent = none → earlier.path ≠ later.path)

section Undo
variable {fails : Step → Bool}

theorem SingleFault.undo_ok (h : SingleFault fails) (hfails : fails step = true)
    (hstep : step.undoes = false) (step' : Step) (hstep' : step'.undoes = true) :
    fails step' = false := by
  apply eq_false_of_ne_true
  intro hfails'
  rw [h step step' hfails hfails', hstep'] at hstep
  cases hstep

theorem writeFileAtomic_ok (h : fails (.write site) = false) (h' : fails (.syncWrite site) = false) :
    writeFileAtomic fails site store written = (.ok (), written) := by
  have hruns : Runs fails (fun s => s = .write site ∨ s = .syncWrite site)
      (writeFileAtomic fails site store written) written (fun _ _ => True) :=
    writeFileAtomic_runs trivial trivial
  apply hruns.ok
  intro s hs
  rcases hs with hs | hs
  · exact hs ▸ h
  · exact hs ▸ h'

theorem stepThen_ok {next : RefStore → Outcome} (h : fails step = false) : stepThen fails step store next = next store := by
  unfold stepThen failOr
  rw [h]
  rfl

variable (hundo : ∀ step : Step, step.undoes = true → fails step = false)
include hundo

theorem restorePlan_ok (index : Nat) (plan : RefUpdatePlan) (store : RefStore) :
    ∃ left, restorePlan fails index plan store = (.ok (), left) ∧ left.packed = store.packed ∧
      ∀ path, left.fileAt path =
        if plan.path = path then plan.previousContent else store.fileAt path := by
  have hset (text : Option RefText) (path : RefPath) :
      (store.setFile plan.path text).fileAt path =
        if plan.path = path then text else store.fileAt path := by
    by_cases hpath : plan.path = path
    · rw [if_pos hpath, ← hpath, store.fileAt_setFile_self]
    · rw [if_neg hpath, store.fileAt_setFile_ne (Ne.symm hpath)]
  unfold restorePlan
  cases plan.previousContent with
  | some previous =>
    exact ⟨_, writeFileAtomic_ok (hundo _ rfl) (hundo _ rfl), store.packed_setFile _ _, hset _⟩
  | none =>
    by_cases hfile : (store.fileAt plan.path).isSome
    · simp only [if_pos hfile]
      exact ⟨_, stepThen_ok (hundo _ rfl), store.packed_setFile _ _, hset none⟩
    · simp only [if_neg hfile]
      refine ⟨store, rfl, rfl, fun path => ?_⟩
      by_cases hpath : plan.path = path
      · rw [if_pos hpath, ← hpath, Option.not_isSome_iff_eq_none.1 hfile]
      · rw [if_neg hpath]

theorem restorePacked_ok (snapshot : Option PackedRefs) (store : RefStore) :
    restorePacked fails snapshot store = (.ok (), { store with packed := snapshot }) := by
  unfold restorePacked
  cases snapshot with
  | some snapshot => exact writeFileAtomic_ok (hundo _ rfl) (hundo _ rfl)
  | none =>
    by_cases hpacked : store.packed.isSome
    · simp only [if_pos hpacked]
      exact stepThen_ok (hundo _ rfl)
    · simp only [if_neg hpacked]
      rw [← Option.not_isSome_iff_eq_none.1 hpacked]

theorem rollbackUpdates_ok (applied : List (Nat × RefUpdatePlan)) (snapshot : Option PackedRefs)
    (store : RefStore) :
    ∃ left, rollbackUpdates fails applied snapshot store = (.ok (), left) ∧
      left.packed = snapshot ∧
      ∀ path, ((∀ p ∈ applied, p.2.path ≠ path) ∧ left.fileAt path = store.fileAt path) ∨
        ∃ p ∈ applied, p.2.path = path ∧ left.fileAt path = p.2.previousContent := by
  induction applied generalizing store with
  | nil =>
    refine ⟨_, restorePacked_ok hundo snapshot store, rfl, fun path => .inl ⟨?_, ?_⟩⟩
    · intro p hp
      exact absurd hp not_mem_nil
    · cases path <;> rfl
  | cons p applied ih =>
    obtain ⟨index, plan⟩ := p
    obtain ⟨middle, hrestore, _, hmiddle⟩ := restorePlan_ok hundo index plan store
    obtain ⟨left, hrollback, hpacked, hleft⟩ := ih middle
    unfold rollbackUpdates
    rw [hrestore]
    refine ⟨left, hrollback, hpacked, fun path => ?_⟩
    rcases hleft path with ⟨hnone, hfile⟩ | ⟨p, hp, hpath, hfile⟩
    · rw [hmiddle] at hfile
      by_cases hpath : plan.path = path
      · rw [if_pos hpath] at hfile
        exact .inr ⟨(index, plan), mem_cons_self, hpath, hfile⟩
      · rw [if_neg hpath] at hfile
        exact .inl ⟨forall_mem_cons.2 ⟨hpath, hnone⟩, hfile⟩
    · exact .inr ⟨p, mem_cons_of_mem _ hp, hpath, hfile⟩

/-- The files that the applied plans do not name are still as they were before the batch. -/
theorem failWithRollback_restores (happlied : ∀ p ∈ applied, p.2 ∈ plans)
    (hfiles : ∀ path, (∀ p ∈ applied, p.2.path ≠ path) → s.fileAt path = store.fileAt path)
    (context : String) (error : RefError) :
    ∃ error' left, failWithRollback fails applied store.packed context error s =
      (.error error', left) ∧ Restored plans store left := by
  obtain ⟨left, hrollback, hpacked, hleft⟩ := rollbackUpdates_ok hundo applied store.packed s
  unfold failWithRollback
  rw [hrollback]
  refine ⟨error, left, rfl, hpacked, fun path => ?_⟩
  rcases hleft path with ⟨hnone, hfile⟩ | ⟨p, hp, hpath, hfile⟩
  · exact .inl (hfile.trans (hfiles path hnone))
  · exact .inr ⟨p.2, happlied p hp, hpath, hfile⟩

end Undo

section Publish
variable {fails : Step → Bool}

theorem applyStep_undoes (h : ApplyStep store index plan step) : step.undoes = false := by
  rcases h with ⟨_, hstep⟩ | ⟨_, _, hstep⟩
  · exact hstep ▸ rfl
  · exact hstep ▸ rfl

theorem applyPlans_runs (hfault : SingleFault fails) (all : List RefUpdatePlan) (store : RefStore)
    (index : Nat) (applied : List (Nat × RefUpdatePlan)) (s : RefStore)
    (happlied : ∀ p ∈ applied, p.2 ∈ all) (hplans : ∀ plan ∈ plans, plan ∈ all)
    (hdeletes : DeletesOnce plans)
    (hfiles : ∀ path, (∀ p ∈ applied, p.2.path ≠ path) → s.fileAt path = store.fileAt path)
    (hpending : ∀ plan ∈ plans, plan.newContent = none →
      s.fileAt plan.path = store.fileAt plan.path) :
    Runs fails (Takes (ApplyStep store) index plans)
      (applyPlans fails store.packed index applied plans s)
      (plans.foldl RefUpdatePlan.publish s) (fun _ left => Restored all store left) := by
  induction plans generalizing index applied s with
  | nil => exact .nothing fun _ => takes_nil
  | cons plan plans ih =>
    obtain ⟨hplan, hrest⟩ := forall_mem_cons.1 hplans
    obtain ⟨hfirst, hdeletes⟩ := pairwise_cons.1 hdeletes
    obtain ⟨hpendingFirst, hpending⟩ := forall_mem_cons.1 hpending
    have hsteps (step : Step) :
        ApplyStep s index plan step ↔ ApplyStep store index plan step := by
      unfold ApplyStep
      apply or_congr_right
      apply and_congr_right
      intro hnew
      rw [hpendingFirst hnew]
    have happly : Runs fails (ApplyStep store index plan)
        ((applyPlan fails index plan s).undo (failWithRollback fails applied store.packed
          ("refs update failed for " ++ plan.description)))
        (plan.publish s) (fun _ left => Restored all store left) := by
      apply ((applyPlan_runs index plan s).congr hsteps fun _ _ _ h => h).undo
      intro step error left hstep hfails hleft
      subst hleft
      have hundo := hfault.undo_ok hfails (applyStep_undoes hstep)
      exact failWithRollback_restores hundo happlied hfiles _ error
    have hnext := ih (index + 1) ((index, plan) :: applied) (plan.publish s)
      (forall_mem_cons.2 ⟨hplan, happlied⟩) hrest hdeletes ?_ ?_
    · apply (happly.andThen hnext).congr
      · intro step
        exact takes_cons.symm
      · intro step left _ hleft
        exact hleft
    · intro path hpath
      obtain ⟨hne, hpath⟩ := forall_mem_cons.1 hpath
      rw [fileAt_publish, if_neg hne]
      exact hfiles path hpath
    · intro later hlater hnew
      rw [fileAt_publish, if_neg (hfirst later hlater hnew)]
      exact hpending later hlater hnew

/-- The steps of a publish before the summary is written. -/
def PublishStep (plans : List RefUpdatePlan) (store : RefStore) (step : Step) : Prop :=
  Takes PrepareStep 0 plans step ∨ Takes StageStep 0 plans step ∨
  Takes (ApplyStep store) 0 plans step ∨ SyncStep plans step ∨ PackedStep plans store step

/-- What a failed publish leaves. After a failed directory sync the loose files are published and
the packed refs are not. -/
def PublishLeft (plans : List RefUpdatePlan) (store : RefStore) (step : Step) (left : RefStore) :
    Prop :=
  match step with
  | .syncDirectory _ => left.packed = store.packed ∧
      ∀ path, left.fileAt path = (writtenText path plans).getD (store.fileAt path)
  | _ => Restored plans store left

theorem restored_of_sameFiles (h : SameFiles store step left) : Restored plans store left :=
  ⟨h.2, fun path => .inl (h.1 path)⟩

theorem publishLeft_of_restored (h : Restored plans store left)
    (hstep : ∀ parent, step ≠ .syncDirectory parent) : PublishLeft plans store step left := by
  unfold PublishLeft
  split
  · rename_i parent
    exact absurd rfl (hstep parent)
  · exact h

theorem prepareStep_ne_sync (h : PrepareStep index plan step) : step ≠ .syncDirectory parent := by
  intro hsync
  obtain ⟨_, hstep⟩ := h
  rw [hsync] at hstep
  simp only [reduceCtorEq, and_false, or_self] at hstep

theorem stageStep_ne_sync (h : StageStep index plan step) : step ≠ .syncDirectory parent := by
  intro hsync
  obtain ⟨_, hstep⟩ := h
  rw [hsync] at hstep
  cases hstep

theorem applyStep_ne_sync (h : ApplyStep store index plan step) :
    step ≠ .syncDirectory parent := by
  intro hsync
  rcases h with ⟨_, hstep⟩ | ⟨_, _, hstep⟩
  · rw [hsync] at hstep
    cases hstep
  · rw [hsync] at hstep
    cases hstep

theorem packedStep_ne_sync (h : PackedStep plans store step) : step ≠ .syncDirectory parent := by
  intro hsync
  obtain ⟨_, _, hstep | hstep⟩ := h
  · rw [hsync] at hstep
    cases hstep
  · rw [hsync] at hstep
    cases hstep

theorem packedStep_undoes (h : PackedStep plans store step) : step.undoes = false := by
  obtain ⟨_, _, hstep | hstep⟩ := h
  · exact hstep ▸ rfl
  · exact hstep ▸ rfl

theorem mem_dirtyParents :
    parent ∈ dirtyParents plans ↔
      ∃ plan ∈ plans, plan.newContent.isSome ∧ parent = plan.path := by
  simp only [dirtyParents, mem_dedup, mem_map, mem_filter, and_assoc,
    eq_comm (a := parent)]

theorem mem_appliedPlans (h : p ∈ appliedPlans plans) : p.2 ∈ plans := by
  simp only [appliedPlans, mem_reverse, mem_map] at h
  obtain ⟨q, hq, rfl⟩ := h
  exact fst_mem_of_mem_zipIdx hq

theorem writtenText_none (h : ∀ p ∈ appliedPlans plans, p.2.path ≠ path) :
    writtenText path plans = none := by
  apply lastSome_eq_none_iff.2
  intro plan hplan
  rw [← zipIdx_map_fst 0 plans] at hplan
  obtain ⟨p, hp, rfl⟩ := mem_map.1 hplan
  have happlied : p.swap ∈ appliedPlans plans :=
    mem_reverse.2 (mem_map_of_mem hp)
  exact if_neg (h p.swap happlied)

theorem publishRefPlans_runs (hfault : SingleFault fails) (hdeletes : DeletesOnce plans)
    (names : RefNames) (store : RefStore) :
    Runs fails (PublishStep plans store) (publishRefPlans fails names plans store)
      (updateRefSummaryIndexWithDeltas names (published plans store) (fails .writeSummary)
        (plans.filterMap RefUpdatePlan.summaryDelta))
      (PublishLeft plans store) := by
  have hfile := fileAt_prepareAll plans store
  have hpacked := packed_prepareAll plans store
  generalize hprepared : plans.foldl RefUpdatePlan.prepare store = prepared at hfile hpacked
  generalize happlied : plans.foldl RefUpdatePlan.publish prepared = applied
  have hfile' (path : RefPath) :
      applied.fileAt path = (writtenText path plans).getD (store.fileAt path) := by
    rw [← happlied, fileAt_publishAll, hfile]
  have hpacked' : applied.packed = store.packed := by
    rw [← happlied, packed_publishAll, hpacked]
  have hprepare : Runs fails (Takes PrepareStep 0 plans) (preparePlans fails 0 plans store) prepared
      (PublishLeft plans store) := by
    apply (hprepared ▸ preparePlans_runs 0 plans store).congr (fun _ => .rfl)
    intro step left hstep hleft
    apply publishLeft_of_restored (restored_of_sameFiles hleft)
    obtain ⟨p, _, hp⟩ := hstep
    exact fun parent => prepareStep_ne_sync hp
  have hstage : Runs fails (Takes StageStep 0 plans) (stageTempFiles fails 0 plans prepared) prepared
      (PublishLeft plans store) := by
    apply (stageTempFiles_runs 0 plans prepared).congr (fun _ => .rfl)
    intro step left hstep hleft
    apply publishLeft_of_restored (restored_of_sameFiles (sameFiles_of_eq hleft hfile hpacked))
    obtain ⟨p, _, hp⟩ := hstep
    exact fun parent => stageStep_ne_sync hp
  have happly : Runs fails (Takes (ApplyStep store) 0 plans)
      (applyPlans fails prepared.packed 0 [] plans prepared) applied (PublishLeft plans store) := by
    have hruns := applyPlans_runs hfault plans store 0 [] prepared
      (fun p hp => absurd hp not_mem_nil) (fun _ hplan => hplan) hdeletes
      (fun path _ => hfile path) (fun plan _ _ => hfile plan.path)
    rw [hpacked]
    apply (happlied ▸ hruns).congr (fun _ => .rfl)
    intro step left hstep hleft
    apply publishLeft_of_restored hleft
    obtain ⟨p, _, hp⟩ := hstep
    exact fun parent => applyStep_ne_sync hp
  have hsync : Runs fails (SyncStep plans) (syncDirectories fails (dirtyParents plans) applied)
      applied (PublishLeft plans store) := by
    apply (syncDirectories_runs (dirtyParents plans) applied).congr
    · intro step
      simp only [mem_dirtyParents, SyncStep]
      constructor
      · intro h
        obtain ⟨_, ⟨plan, hplan, hnew, rfl⟩, hstep⟩ := h
        exact ⟨plan, hplan, hnew, hstep⟩
      · intro h
        obtain ⟨plan, hplan, hnew, hstep⟩ := h
        exact ⟨_, ⟨plan, hplan, hnew, rfl⟩, hstep⟩
    · intro step left hstep hleft
      obtain ⟨parent, _, rfl⟩ := hstep
      exact hleft ▸ ⟨hpacked', hfile'⟩
  have hremove : Runs fails (PackedStep plans store)
      ((applyPackedRemovals fails plans applied).undo (failWithRollback fails (appliedPlans plans)
        prepared.packed "packed refs update failed"))
      (published plans store) (PublishLeft plans store) := by
    have hruns : Runs fails _ _ _ _ := applyPackedRemovals_runs plans applied
    have hsteps (step : Step) : PackedStep plans applied step ↔ PackedStep plans store step := by
      rw [PackedStep, PackedStep, hpacked']
    rw [published, hprepared, happlied, hpacked]
    apply (hruns.congr hsteps fun _ _ _ h => h).undo
    intro step error left hstep hfails hleft
    have hundo := hfault.undo_ok hfails (packedStep_undoes hstep)
    have hfiles (path : RefPath) (hpath : ∀ p ∈ appliedPlans plans, p.2.path ≠ path) :
        left.fileAt path = store.fileAt path := by
      rw [hleft, hfile', writtenText_none hpath, Option.getD_none]
    obtain ⟨error', left', heq, hrestored⟩ := failWithRollback_restores hundo
      (fun p hp => mem_appliedPlans hp) hfiles "packed refs update failed" error
    exact ⟨error', left', heq,
      publishLeft_of_restored hrestored fun parent => packedStep_ne_sync hstep⟩
  have hall : Runs fails
      (fun step => Takes PrepareStep 0 plans step ∨ Takes StageStep 0 plans step ∨
        Takes (ApplyStep store) 0 plans step ∨ SyncStep plans step ∨
        PackedStep plans store step ∨ False)
      (publishRefPlans fails names plans store)
      (updateRefSummaryIndexWithDeltas names (published plans store) (fails .writeSummary)
        (plans.filterMap RefUpdatePlan.summaryDelta))
      (PublishLeft plans store) := by
    unfold publishRefPlans
    apply hprepare.andThen
    apply hstage.andThen
    apply happly.andThen
    apply hsync.andThen
    apply hremove.andThen
    exact .nothing fun _ => id
  apply hall.congr
  · intro step
    simp only [PublishStep, or_false]
  · intro step left _ hleft
    exact hleft

end Publish

end Heddle.Refs
