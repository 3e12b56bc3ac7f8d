import Heddle.Refs.FaithfulIndex

namespace Heddle.Refs
open Heddle.Lib Option
open List hiding after head isEmpty_iff keys set

section Steps
variable (names : RefNames) (store : RefStore)

def publishSteps (plans : List RefUpdatePlan) : List (RefStore → RefStore) :=
  plans.map (fun plan store => plan.prepare store) ++
    plans.map (fun plan store => plan.publish store) ++
    [removePacked plans, fun store => updateRefSummaryIndexWithDeltas names store false
      (plans.filterMap RefUpdatePlan.summaryDelta)]

def updateSteps (updates : List RefUpdate) : List (RefStore → RefStore) :=
  if updates.isEmpty then []
  else
    match planRefUpdates names store updates with
    | .error _ => []
    | .ok plans => publishSteps names plans

def rebuildStep (store : RefStore) : RefStore := rebuildRefSummaryIndex names store false

def setRemoteThreadSteps (remote thread : String) (state : StateId) :
    List (RefStore → RefStore) :=
  match refPath names (.remoteThread remote thread) with
  | .error _ => []
  | .ok path =>
    [fun store => store.createEntry path, fun store => store.setFile path (some (.state state)),
      rebuildStep names]

def deleteRemoteThreadSteps (remote thread : String) : List (RefStore → RefStore) :=
  match rawGet names store (.remoteThread remote thread) with
  | .error _ => []
  | .ok none => [rebuildStep names]
  | .ok (some _) =>
    [fun store => store.setFile (.entry (.remoteThread remote thread)) none, rebuildStep names]

def packSteps : List (RefStore → RefStore) :=
  match packedWithLoose names store with
  | .error _ => []
  | .ok (keys, packed) =>
    if packed.isEmpty then [rebuildStep names]
    else
      (fun store => { store with packed := some packed }) ::
        (keys.map (fun key store => removeLooseFile store key) ++ [rebuildStep names])

/-- The steps in which an operation changes the files. One that is refused takes none. -/
def RefOp.steps : RefOp → List (RefStore → RefStore)
  | .set (.remoteThread remote thread) state => setRemoteThreadSteps names remote thread state
  | .set key state => updateSteps names store [.point key .any (some state)]
  | .delete (.remoteThread remote thread) => deleteRemoteThreadSteps names store remote thread
  | .delete key =>
    match rawGet names store key with
    | .ok (some _) => updateSteps names store [.point key .any none]
    | _ => []
  | .update updates => updateSteps names store updates
  | .pack => packSteps names store

/-- A reader without the lock. It looks whether there is a loose file, reads that file, and else
reads the packed refs; each look can find other files. -/
def readRef (s₀ s₁ s₂ : RefStore) (key : RefKey) : Except RefError (Option StateId) := do
  let _ ← refPath names key
  if (s₀.loose key).isSome then
    match s₁.loose key with
    | none => .error .io
    | some _ => readStateIdAt names s₁ key
  else return s₂.packedRefs.get key

/-- Whatever the reader returns while the operation runs is the value before or the value after. -/
def ReadsLinearizably (op : RefOp) (key : RefKey) : Prop :=
  ∀ i j k value, i ≤ j → j ≤ k →
    readRef names (stateAfter (op.steps names store) store i)
      (stateAfter (op.steps names store) store j) (stateAfter (op.steps names store) store k) key =
      .ok value →
    rawGet names store key = .ok value ∨ rawGet names (op.run names store).2 key = .ok value

def Deletes (key : RefKey) : RefOp → Prop
  | .delete key' => key' = key
  | .update updates => ExpectationsHold names store updates ∧ PointsOnce updates ∧
      lastPoint key updates = some none
  | _ => False

/-- The operation deletes a ref whose loose file hides an older packed value. -/
def DeletesOverStale (op : RefOp) (key : RefKey) : Prop :=
  Deletes names store key op ∧ ∃ value stale, store.loose key = some (.state value) ∧
    store.packedRefs.get key = some stale ∧ value ≠ stale

end Steps

section Trace
variable {names : RefNames} {store : RefStore} {updates : List RefUpdate}

theorem runSteps_map (xs : List α) (store : RefStore) :
    runSteps (xs.map f) store = xs.foldl (fun store x => f x store) store := by
  unfold runSteps
  rw [foldl_map]

theorem runSteps_publishSteps (plans : List RefUpdatePlan) (store : RefStore) :
    runSteps (publishSteps names plans) store =
      updateRefSummaryIndexWithDeltas names (published plans store) false
        (plans.filterMap RefUpdatePlan.summaryDelta) := by
  unfold publishSteps
  rw [runSteps_append, runSteps_append, runSteps_map, runSteps_map]
  rfl

theorem runSteps_updateSteps (updates : List RefUpdate) :
    runSteps (updateSteps names store updates) store =
      (updateRefs (fun _ => false) names store updates).2 := by
  unfold updateSteps updateRefs
  cases updates with
  | nil => rfl
  | cons update updates =>
    simp only [isEmpty_cons, Bool.false_eq_true, if_false]
    rw [stepThen_ok rfl]
    cases hplan : planRefUpdates names store (update :: updates) with
    | error error => rfl
    | ok plans =>
      obtain ⟨hholds, honce, rfl⟩ := planRefUpdates_ok_iff.1 hplan
      have hdeletes : DeletesOnce (planned names store (update :: updates)) :=
        planned_deletesOnce honce
      have hok := (publishRefPlans_runs singleFault_none hdeletes names store).ok fun _ _ => rfl
      simp only
      rw [runSteps_publishSteps]
      exact (congrArg Prod.snd hok).symm

theorem runSteps_steps (op : RefOp) :
    runSteps (op.steps names store) store = (op.run names store).2 := by
  cases op with
  | set key state =>
    cases key with
    | thread name => exact runSteps_updateSteps _
    | marker name => exact runSteps_updateSteps _
    | remoteThread remote thread =>
      simp only [RefOp.steps, RefOp.run, setRef, setRemoteThreadSteps, setRemoteThread]
      cases refPath names (.remoteThread remote thread) <;> rfl
  | delete key =>
    cases key with
    | thread name =>
      simp only [RefOp.steps, RefOp.run, deleteRef]
      cases rawGet names store (.thread name) with
      | error error => rfl
      | ok value =>
        cases value with
        | none => rfl
        | some id => exact runSteps_updateSteps _
    | marker name =>
      simp only [RefOp.steps, RefOp.run, deleteRef]
      cases rawGet names store (.marker name) with
      | error error => rfl
      | ok value =>
        cases value with
        | none => rfl
        | some id => exact runSteps_updateSteps _
    | remoteThread remote thread =>
      simp only [RefOp.steps, RefOp.run, deleteRef, deleteRemoteThreadSteps, deleteRemoteThread]
      cases rawGet names store (.remoteThread remote thread) with
      | error error => rfl
      | ok value => cases value <;> rfl
  | update updates => exact runSteps_updateSteps updates
  | pack =>
    simp only [RefOp.steps, RefOp.run, packSteps, packRefs]
    cases packedWithLoose names store with
    | error error => rfl
    | ok found =>
      obtain ⟨keys, packed⟩ := found
      simp only
      split
      · rfl
      · rw [runSteps_cons, runSteps_append, runSteps_map]
        rfl

end Trace

section Views
variable {names : RefNames} {store : RefStore} {updates : List RefUpdate} {key : RefKey}

/-- The two places where a reader looks for a ref. -/
def refView (key : RefKey) (store : RefStore) : Option RefText × Option StateId :=
  (store.loose key, store.packedRefs.get key)

theorem refView_of_files (hfile : left.fileAt (.entry key) = store.fileAt (.entry key))
    (hpacked : left.packed = store.packed) : refView key left = refView key store := by
  unfold refView RefStore.packedRefs
  rw [hpacked]
  exact congrArg (fun text => (text, _)) hfile

section
variable (store : RefStore)

theorem refView_rebuild :
    refView key (rebuildStep names store) = refView key store :=
  refView_of_files (fileAt_rebuild names store false _) (packed_rebuild names store false)

theorem refView_updateSummary (deltas : List SummaryDelta) :
    refView key (updateRefSummaryIndexWithDeltas names store false deltas) = refView key store :=
  refView_of_files (fileAt_updateSummary names store false deltas _)
    (packed_updateSummary names store false deltas)

theorem refView_prepare (plan : RefUpdatePlan) :
    refView key (plan.prepare store) = refView key store :=
  refView_of_files (fileAt_prepare store plan _) (packed_prepare store plan)

theorem refView_publish (plan : RefUpdatePlan) :
    refView key (plan.publish store) =
      (if plan.path = .entry key then plan.newContent else store.loose key,
        store.packedRefs.get key) := by
  unfold refView RefStore.packedRefs
  rw [packed_publish]
  exact congrArg (fun text => (text, _)) (fileAt_publish store plan (.entry key))

theorem refView_removePacked (plans : List RefUpdatePlan) :
    refView key (removePacked plans store) =
      (store.loose key, if key ∈ plans.filterMap RefUpdatePlan.packedRemove then none
        else store.packedRefs.get key) := by
  unfold refView
  rw [packedGet_removePacked]
  exact congrArg (fun text => (text, _)) (fileAt_removePacked plans store (.entry key))

end

theorem keeps_of_view (h : ∀ step ∈ steps, ∀ store, refView key (step store) = refView key store) :
    Keeps (refView key) a steps := by
  intro step hstep store hstore
  exact (h step hstep store).trans hstore

theorem keeps_prepare (plans : List RefUpdatePlan) (a : Option RefText × Option StateId) :
    Keeps (refView key) a (plans.map fun plan store => plan.prepare store) := by
  apply keeps_of_view
  intro step hstep store
  obtain ⟨plan, _, rfl⟩ := mem_map.1 hstep
  exact refView_prepare store plan

theorem keeps_publish {plans : List RefUpdatePlan} (a : Option RefText × Option StateId)
    (h : ∀ plan ∈ plans, plan.path ≠ .entry key) :
    Keeps (refView key) a (plans.map fun plan store => plan.publish store) := by
  apply keeps_of_view
  intro step hstep store
  obtain ⟨plan, hplan, rfl⟩ := mem_map.1 hstep
  rw [refView_publish, if_neg (h plan hplan), refView]

theorem keeps_updateSummary (a : Option RefText × Option StateId) (deltas : List SummaryDelta) :
    Keeps (refView key) a
      [fun store => updateRefSummaryIndexWithDeltas names store false deltas] := by
  apply Keeps.singleton
  intro store hstore
  exact (refView_updateSummary store deltas).trans hstore

theorem keeps_rebuild (a : Option RefText × Option StateId) :
    Keeps (refView key) a [rebuildStep names] := by
  apply Keeps.singleton
  intro store hstore
  exact (refView_rebuild store).trans hstore

theorem mem_removals (h : key ∈ (planned names store updates).filterMap RefUpdatePlan.packedRemove) :
    ∃ expected, .point key expected none ∈ updates := by
  obtain ⟨plan, hplan, hkey⟩ := mem_filterMap.1 h
  obtain ⟨update, hmem, rfl⟩ := mem_map.1 hplan
  cases update with
  | head expected new => cases hkey
  | point key' expected new =>
    simp only [planOf, pointPlan, ite_none_right_eq_some, some.injEq,
      Bool.and_eq_true, isNone_iff_eq_none] at hkey
    obtain ⟨⟨⟨_, hnew⟩, _⟩, hkey⟩ := hkey
    rw [hnew, hkey] at hmem
    exact ⟨expected, hmem⟩

theorem pointKey_others (honce : PointsOnce (before ++ update :: after))
    (hkey : update.pointKey = some key) : ∀ other ∈ before ++ after, other.pointKey ≠ some key := by
  obtain ⟨_, hafter, hbefore⟩ := pairwise_append.1 (pairwise_filterMap.1 honce)
  obtain ⟨hupdate, _⟩ := pairwise_cons.1 hafter
  intro other hother hsame
  rcases mem_append.1 hother with h | h
  · exact hbefore other h update mem_cons_self key hsame key hkey rfl
  · exact hupdate other h key hkey key hsame rfl

theorem pointKey_of_updatedPoint (h : updatedPoint key update = some new) :
    update.pointKey = some key := by
  cases update with
  | head expected new' => cases h
  | point key' expected new' =>
    obtain ⟨hkey, _⟩ := ite_none_right_eq_some.1 h
    exact congrArg some hkey

theorem lastPoint_of_mem (honce : PointsOnce updates) (h : .point key expected new ∈ updates) :
    lastPoint key updates = some new := by
  obtain ⟨before, after, rfl⟩ := append_of_mem h
  have hothers := pointKey_others honce rfl
  apply lastSome_eq_some h
  · exact if_pos rfl
  · intro update hmem value hvalue
    rcases mem_append.1 hmem with hbefore | hmem
    · exact absurd (pointKey_of_updatedPoint hvalue) (hothers update (mem_append_left _ hbefore))
    · rcases mem_cons.1 hmem with rfl | hafter
      · exact (some.inj (ite_none_right_eq_some.1 hvalue).2).symm
      · exact absurd (pointKey_of_updatedPoint hvalue) (hothers update (mem_append_right _ hafter))

theorem planOf_path (h : update.pointKey ≠ some key) :
    (planOf names store update).path ≠ .entry key := by
  cases update with
  | head expected new => exact nofun
  | point key' expected new =>
    intro hpath
    exact h (congrArg some (RefPath.entry.inj hpath))

theorem keeps_planned (a : Option RefText × Option StateId)
    (h : ∀ update ∈ updates, update.pointKey ≠ some key) :
    Keeps (refView key) a ((planned names store updates).map fun plan store => plan.publish store) := by
  apply keeps_publish a
  intro plan hplan
  obtain ⟨update, hmem, rfl⟩ := mem_map.1 hplan
  exact planOf_path (h update hmem)

/-- A batch changes a ref that it names in two steps, those of the loose and of the packed file. -/
theorem publishSteps_phases (names : RefNames) (store : RefStore)
    (honce : PointsOnce updates) (hmem : .point key expected new ∈ updates) :
    Phases (refView key) (publishSteps names (planned names store updates)) store
      (store.loose key, store.packedRefs.get key)
      (new.map .state, store.packedRefs.get key)
      (new.map .state, (published (planned names store updates) store).packedRefs.get key) := by
  obtain ⟨before, after, rfl⟩ := append_of_mem hmem
  have hothers := pointKey_others honce rfl
  have hplans : planned names store (before ++ .point key expected new :: after) =
      planned names store before ++ planOf names store (.point key expected new) ::
        planned names store after := by
    rw [planned, map_append, map_cons, planned, planned]
  generalize hall : planned names store (before ++ .point key expected new :: after) = plans
    at hplans ⊢
  have hpublish : plans.map (fun plan store => plan.publish store) =
      (planned names store before).map (fun plan store => plan.publish store) ++
        (fun store' => (planOf names store (.point key expected new)).publish store') ::
          (planned names store after).map (fun plan store => plan.publish store) := by
    rw [hplans, map_append, map_cons]
  have hsteps : publishSteps names plans =
      (plans.map (fun plan store => plan.prepare store) ++
        (planned names store before).map (fun plan store => plan.publish store)) ++
      (fun store' => (planOf names store (.point key expected new)).publish store') ::
        ((planned names store after).map (fun plan store => plan.publish store) ++
          removePacked plans :: [fun store => updateRefSummaryIndexWithDeltas names store false
            (plans.filterMap RefUpdatePlan.summaryDelta)]) := by
    unfold publishSteps
    rw [hpublish]
    simp only [append_assoc, cons_append]
  rw [hsteps]
  apply phases_of_changes
  · apply (keeps_prepare plans _).append
    apply keeps_planned
    intro update hupdate
    exact hothers update (mem_append_left _ hupdate)
  · intro store' hview
    rw [refView_publish]
    exact congrArg₂ Prod.mk (if_pos rfl) (congrArg Prod.snd hview)
  · apply keeps_planned
    intro update hupdate
    exact hothers update (mem_append_right _ hupdate)
  · intro store' hview
    have hloose : store'.loose key = new.map .state := congrArg Prod.fst hview
    have hpacked : store'.packedRefs.get key = store.packedRefs.get key := congrArg Prod.snd hview
    rw [refView_removePacked, packedGet_published, hloose, hpacked]
  · exact keeps_updateSummary _ _
  · rfl

theorem publishSteps_keeps (h : lastPoint key updates = none) :
    Phases (refView key) (publishSteps names (planned names store updates)) store
      (refView key store) (refView key store) (refView key store) := by
  have hothers (update : RefUpdate) (hmem : update ∈ updates) : update.pointKey ≠ some key := by
    intro hkey
    have hnone := lastSome_eq_none_iff.1 h update hmem
    cases update with
    | head expected new => cases hkey
    | point key' expected new =>
      rw [updatedPoint, if_pos (some.inj hkey)] at hnone
      cases hnone
  have hremovals : key ∉ (planned names store updates).filterMap RefUpdatePlan.packedRemove := by
    intro hkey
    obtain ⟨expected, hmem⟩ := mem_removals hkey
    exact hothers _ hmem rfl
  apply phases_of_keeps _ rfl
  apply ((keeps_prepare _ _).append (keeps_planned _ hothers)).append
  apply keeps_of_view
  intro step hstep store'
  rcases mem_cons.1 hstep with rfl | hstep
  · rw [refView_removePacked, if_neg hremovals, refView]
  · rw [mem_singleton.1 hstep]
    exact refView_updateSummary store' _

/-- How an operation moves the two places of a ref while it runs. -/
inductive RefChange (store : RefStore) (key : RefKey) (deletes : Prop) :
    Option RefText × Option StateId → Option RefText × Option StateId → Prop where
  | unchanged : RefChange store key deletes (refView key store) (refView key store)
  | set (id : StateId) : RefChange store key deletes
      (some (.state id), store.packedRefs.get key) (some (.state id), store.packedRefs.get key)
  | delete (h : deletes) : RefChange store key deletes (none, store.packedRefs.get key) (none, none)
  | pack : RefChange store key deletes
      (store.loose key, (looseState store key).or (store.packedRefs.get key))
      (none, (looseState store key).or (store.packedRefs.get key))

def Changes (store : RefStore) (steps : List (RefStore → RefStore)) (key : RefKey)
    (deletes : Prop) : Prop :=
  ∃ b c, Phases (refView key) steps store (refView key store) b c ∧ RefChange store key deletes b c

theorem changes_of_keeps (h : Keeps (refView key) (refView key store) steps) :
    Changes store steps key deletes :=
  ⟨_, _, phases_of_keeps h rfl, .unchanged⟩

theorem updateSteps_eq (hholds : ExpectationsHold names store updates) (honce : PointsOnce updates)
    (hne : updates ≠ []) :
    updateSteps names store updates = publishSteps names (planned names store updates) := by
  have hplan := planRefUpdates_ok_iff.2 ⟨hholds, honce, rfl⟩
  unfold updateSteps
  rw [if_neg (by rwa [List.isEmpty_iff]), hplan]
  rfl

theorem updateSteps_rejected (h : ¬(ExpectationsHold names store updates ∧ PointsOnce updates)) :
    updateSteps names store updates = [] := by
  unfold updateSteps
  split
  · rfl
  · cases hplan : planRefUpdates names store updates with
    | error error => rfl
    | ok plans =>
      obtain ⟨hholds, honce, _⟩ := planRefUpdates_ok_iff.1 hplan
      exact absurd ⟨hholds, honce⟩ h

theorem updateSteps_delete (hholds : ExpectationsHold names store updates)
    (honce : PointsOnce updates) (h : lastPoint key updates = some none) :
    Phases (refView key) (updateSteps names store updates) store (refView key store)
      (none, store.packedRefs.get key) (none, none) := by
  obtain ⟨expected, hmem⟩ := exists_of_lastPoint h
  have hphases := publishSteps_phases names store honce hmem
  rw [packedGet_deleted hholds hmem] at hphases
  rw [updateSteps_eq hholds honce (ne_nil_of_mem hmem)]
  exact hphases

theorem updateSteps_changes (names : RefNames) (store : RefStore) (updates : List RefUpdate)
    (key : RefKey) :
    Changes store (updateSteps names store updates) key
      (Deletes names store key (.update updates)) := by
  by_cases hvalid : ExpectationsHold names store updates ∧ PointsOnce updates
  · obtain ⟨hholds, honce⟩ := hvalid
    cases hlast : lastPoint key updates with
    | none =>
      cases updates with
      | nil => exact changes_of_keeps .nil
      | cons update updates =>
        rw [updateSteps_eq hholds honce (cons_ne_nil _ _)]
        exact ⟨_, _, publishSteps_keeps hlast, .unchanged⟩
    | some new =>
      cases new with
      | none =>
        exact ⟨_, _, updateSteps_delete hholds honce hlast, .delete ⟨hholds, honce, hlast⟩⟩
      | some id =>
        obtain ⟨expected, hmem⟩ := exists_of_lastPoint hlast
        have hkept : key ∉ (planned names store updates).filterMap RefUpdatePlan.packedRemove := by
          intro hkey
          obtain ⟨expected', hdelete⟩ := mem_removals hkey
          rw [lastPoint_of_mem honce hdelete] at hlast
          cases hlast
        have hphases := publishSteps_phases names store honce hmem
        rw [packedGet_published, if_neg hkept] at hphases
        rw [updateSteps_eq hholds honce (ne_nil_of_mem hmem)]
        exact ⟨_, _, hphases, .set id⟩
  · rw [updateSteps_rejected hvalid]
    exact changes_of_keeps .nil

theorem refView_setFile_self (store : RefStore) (text : Option RefText) :
    refView key (store.setFile (.entry key) text) = (text, store.packedRefs.get key) := by
  unfold refView RefStore.packedRefs
  rw [RefStore.packed_setFile]
  exact congrArg (fun text => (text, _)) (store.fileAt_setFile_self (.entry key) text)

theorem refView_setFile_ne (store : RefStore) (h : key' ≠ key) (text : Option RefText) :
    refView key (store.setFile (.entry key') text) = refView key store :=
  refView_of_files
    (store.fileAt_setFile_ne (fun hpath => h (RefPath.entry.inj hpath).symm) text)
    (store.packed_setFile _ text)

section
variable (names : RefNames) (store : RefStore) (remote thread : String)

theorem setRemoteThreadSteps_changes (id : StateId) (key : RefKey) :
    Changes store (setRemoteThreadSteps names remote thread id) key deletes := by
  unfold setRemoteThreadSteps
  cases hname : refPath names (.remoteThread remote thread) with
  | error error => exact changes_of_keeps .nil
  | ok path =>
    cases refPath_ok hname
    have hcreate : Keeps (refView key) (refView key store)
        [fun store => store.createEntry (.entry (.remoteThread remote thread))] := by
      apply Keeps.singleton
      intro store' hview
      exact (refView_of_files (store'.fileAt_createEntry _ _) (store'.packed_createEntry _)).trans hview
    by_cases hkey : .remoteThread remote thread = key
    · subst hkey
      refine ⟨_, _, ?_, .set id⟩
      apply phases_of_changes hcreate _ .nil _ .nil rfl
      · intro store' hview
        rw [refView_setFile_self]
        exact congrArg (fun packed => (some (RefText.state id), packed)) (congrArg Prod.snd hview)
      · intro store' hview
        exact (refView_rebuild store').trans hview
    · apply changes_of_keeps
      apply hcreate.append
      apply keeps_of_view
      intro step hstep store'
      rcases mem_cons.1 hstep with rfl | hstep
      · exact refView_setFile_ne store' hkey _
      · rw [mem_singleton.1 hstep]
        exact refView_rebuild store'

theorem deleteRemoteThreadSteps_changes (key : RefKey) :
    Changes store (deleteRemoteThreadSteps names store remote thread) key
      (.remoteThread remote thread = key) := by
  unfold deleteRemoteThreadSteps
  cases hget : rawGet names store (.remoteThread remote thread) with
  | error error => exact changes_of_keeps .nil
  | ok value =>
    cases value with
    | none => exact changes_of_keeps (keeps_rebuild _)
    | some id =>
      by_cases hkey : .remoteThread remote thread = key
      · refine ⟨_, _, ?_, .delete hkey⟩
        subst hkey
        apply phases_of_changes .nil _ .nil _ .nil rfl
        · intro store' hview
          exact refView_setFile_self store' none
        · intro store' hview
          exact (refView_rebuild store').trans hview
      · apply changes_of_keeps
        apply keeps_of_view
        intro step hstep store'
        rcases mem_cons.1 hstep with rfl | hstep
        · exact refView_setFile_ne store' hkey none
        · rw [mem_singleton.1 hstep]
          exact refView_rebuild store'

end

theorem readStateIdAt_looseState (h : readStateIdAt names store key = .ok state) :
    state = looseState store key := by
  unfold readStateIdAt at h
  unfold looseState
  cases hloose : store.loose key with
  | none =>
    rw [hloose] at h
    exact (Except.ok.inj h).symm
  | some text =>
    rw [hloose] at h
    cases text with
    | state id => exact (Except.ok.inj h).symm
    | attached thread => cases h
    | garbled text => cases h

theorem packLoose_get (hpackable : ∀ name, (toKey name).packable = true)
    (h : packLoose names store toKey refNames packed = .ok packed') (key : RefKey) :
    packed'.get key =
      if key ∈ refNames.map toKey then (looseState store key).or (packed.get key)
      else packed.get key := by
  unfold packLoose at h
  induction refNames generalizing packed with
  | nil =>
    cases h
    rfl
  | cons name refNames ih =>
    rw [foldlM_cons] at h
    obtain ⟨middle, hstep, hrest⟩ := bind_eq_ok.1 h
    obtain ⟨_, _, hstep⟩ := bind_eq_ok.1 hstep
    obtain ⟨state, hstate, hstep⟩ := bind_eq_ok.1 hstep
    obtain rfl := readStateIdAt_looseState hstate
    have hmiddle : middle.get key =
        if key = toKey name then (looseState store key).or (packed.get key) else packed.get key := by
      cases hstep
      by_cases hkey : key = toKey name
      · rw [if_pos hkey, hkey]
        cases looseState store (toKey name) with
        | none => rfl
        | some id => exact PackedRefs.get_set_self packed (hpackable name) id
      · rw [if_neg hkey]
        cases looseState store (toKey name) with
        | none => rfl
        | some id => exact PackedRefs.get_set_ne packed hkey id
    rw [ih hrest, hmiddle]
    simp only [map_cons, mem_cons]
    by_cases hkey : key = toKey name
    · simp only [true_or, if_true, ← Option.or_assoc, Option.or_self, ite_self, hkey]
    · simp only [hkey, if_false, false_or]

theorem packedWithLoose_get (h : packedWithLoose names store = .ok (keys, packed)) (key : RefKey) :
    packed.get key =
      if key ∈ keys then (looseState store key).or (store.packedRefs.get key)
      else store.packedRefs.get key := by
  obtain ⟨threads, _, hrest⟩ := bind_eq_ok.1 h
  obtain ⟨middle, hthreads, hrest⟩ := bind_eq_ok.1 hrest
  obtain ⟨markers, _, hrest⟩ := bind_eq_ok.1 hrest
  obtain ⟨packed', hmarkers, hrest⟩ := bind_eq_ok.1 hrest
  cases hrest
  rw [packLoose_get (fun _ => rfl) hmarkers, packLoose_get (fun _ => rfl) hthreads]
  simp only [mem_append]
  by_cases hthread : key ∈ threads.map RefKey.thread
  · have hmarker : key ∉ markers.map RefKey.marker := by
      obtain ⟨name, _, rfl⟩ := mem_map.1 hthread
      intro hmem
      obtain ⟨_, _, heq⟩ := mem_map.1 hmem
      cases heq
    simp only [hthread, hmarker, if_true, if_false, true_or]
  · simp only [hthread, if_false, false_or]

theorem refView_removeLooseFile (store : RefStore) (key' : RefKey) :
    refView key (removeLooseFile store key') =
      (if key' = key then none else store.loose key, store.packedRefs.get key) := by
  unfold removeLooseFile
  by_cases hkey : key' = key
  · subst hkey
    rw [if_pos rfl]
    split
    · exact refView_setFile_self store none
    · rename_i hloose
      rw [refView, not_isSome_iff_eq_none.1 hloose]
  · rw [if_neg hkey]
    split
    · exact refView_setFile_ne store hkey none
    · rfl

theorem keeps_removeLooseFiles {keys : List RefKey} (h : key ∈ keys → a.1 = none) :
    Keeps (refView key) a (keys.map fun key store => removeLooseFile store key) := by
  intro step hstep store' hview
  obtain ⟨key', hmem, rfl⟩ := mem_map.1 hstep
  rw [refView_removeLooseFile, ← hview]
  by_cases hkey : key' = key
  · have hnone := h (hkey ▸ hmem)
    rw [← hview] at hnone
    rw [if_pos hkey, ← hnone]
    rfl
  · rw [if_neg hkey]
    rfl

theorem packSteps_changes (key : RefKey) : Changes store (packSteps names store) key deletes := by
  unfold packSteps
  cases hpacked : packedWithLoose names store with
  | error error => exact changes_of_keeps .nil
  | ok found =>
    obtain ⟨keys, packed⟩ := found
    have hget := packedWithLoose_get hpacked key
    simp only
    split
    · exact changes_of_keeps (keeps_rebuild _)
    · by_cases hkey : key ∈ keys
      · obtain ⟨before, after, rfl, hbefore⟩ := eq_append_cons_of_mem hkey
        rw [if_pos hkey] at hget
        refine ⟨_, _, ?_, .pack⟩
        rw [map_append, map_cons, append_assoc, cons_append]
        refine phases_of_changes .nil (fun store' hview => ?_) (keeps_removeLooseFiles fun hmem =>
          absurd hmem hbefore) (fun store' hview => ?_)
          ((keeps_removeLooseFiles fun _ => rfl).append (keeps_rebuild _)) rfl
        · exact congrArg₂ Prod.mk (congrArg Prod.fst hview) hget
        · rw [refView_removeLooseFile, if_pos rfl]
          exact congrArg (fun packed => (none, packed)) (congrArg Prod.snd hview)
      · rw [if_neg hkey] at hget
        apply changes_of_keeps
        have hsave : Keeps (refView key) (refView key store)
            [fun store => { store with packed := some packed }] := by
          apply Keeps.singleton
          intro store' hview
          exact congrArg₂ Prod.mk (congrArg Prod.fst hview) hget
        exact hsave.append ((keeps_removeLooseFiles fun hmem => absurd hmem hkey).append
          (keeps_rebuild _))

end Views

section Reads
variable {names : RefNames} {store : RefStore} {key : RefKey}

theorem run_changes (op : RefOp) (key : RefKey) :
    Changes store (op.steps names store) key (Deletes names store key op) := by
  cases op with
  | set key' id =>
    have hupdate (expected : RefExpectation StateId) :
        Changes store (updateSteps names store [.point key' expected (some id)]) key False := by
      obtain ⟨b, c, hphases, hchange⟩ :=
        updateSteps_changes names store [.point key' expected (some id)] key
      refine ⟨b, c, hphases, ?_⟩
      cases hchange with
      | unchanged => exact .unchanged
      | set id => exact .set id
      | pack => exact .pack
      | delete h =>
        obtain ⟨expected, hmem⟩ := exists_of_lastPoint h.2.2
        cases mem_singleton.1 hmem
    cases key' with
    | thread name => exact hupdate .any
    | marker name => exact hupdate .any
    | remoteThread remote thread => exact setRemoteThreadSteps_changes names store remote thread id key
  | delete key' =>
    have hupdate :
        Changes store (updateSteps names store [.point key' .any none]) key (key' = key) := by
      obtain ⟨b, c, hphases, hchange⟩ := updateSteps_changes names store [.point key' .any none] key
      refine ⟨b, c, hphases, ?_⟩
      cases hchange with
      | unchanged => exact .unchanged
      | set id => exact .set id
      | pack => exact .pack
      | delete h =>
        obtain ⟨expected, hmem⟩ := exists_of_lastPoint h.2.2
        cases mem_singleton.1 hmem
        exact .delete rfl
    have hpoint : Changes store (match rawGet names store key' with
        | .ok (some _) => updateSteps names store [.point key' .any none]
        | _ => []) key (key' = key) := by
      split
      · exact hupdate
      · exact changes_of_keeps .nil
    cases key' with
    | thread name => exact hpoint
    | marker name => exact hpoint
    | remoteThread remote thread => exact deleteRemoteThreadSteps_changes names store remote thread key
  | update updates => exact updateSteps_changes names store updates key
  | pack => exact packSteps_changes key

def viewValue (view : Option RefText × Option StateId) : Option StateId :=
  match view.1 with
  | some (.state id) => some id
  | _ => view.2

theorem rawGet_view (hname : refPath names key = .ok (.entry key))
    (h : (refView key store).1 = none ∨ ∃ id, (refView key store).1 = some (.state id)) :
    rawGet names store key = .ok (viewValue (refView key store)) := by
  rcases h with hnone | ⟨id, hsome⟩
  · have hfile : store.loose key = (none : Option StateId).map .state := hnone
    rw [rawGet_of_loose hname hfile, viewValue, hnone]
    rfl
  · have hfile : store.loose key = (some id).map .state := hsome
    rw [rawGet_of_loose hname hfile, viewValue, hsome]
    rfl

theorem readRef_ok (h : readRef names s₀ s₁ s₂ key = .ok value) :
    ((refView key s₀).1 = none ∧ value = (refView key s₂).2) ∨
      ((refView key s₀).1 ≠ none ∧ ∃ id, (refView key s₁).1 = some (.state id) ∧ value = some id) := by
  obtain ⟨_, _, h⟩ := bind_eq_ok.1 h
  by_cases hloose : (s₀.loose key).isSome
  · rw [if_pos hloose] at h
    refine .inr ⟨isSome_iff_ne_none.1 hloose, ?_⟩
    unfold refView
    unfold readStateIdAt at h
    cases htext : s₁.loose key with
    | none =>
      rw [htext] at h
      cases h
    | some text =>
      rw [htext] at h
      cases text with
      | state id =>
        cases h
        exact ⟨id, rfl, rfl⟩
      | attached thread => cases h
      | garbled text => cases h
  · rw [if_neg hloose] at h
    exact .inl ⟨not_isSome_iff_eq_none.1 hloose, (Except.ok.inj h).symm⟩

theorem readRef_same (names : RefNames) (store : RefStore) (key : RefKey) :
    readRef names store store store key = rawGet names store key := by
  unfold readRef rawGet readStateIdAt
  cases refPath names key with
  | error error => rfl
  | ok path =>
    cases hloose : store.loose key with
    | none => rfl
    | some text => cases text <;> rfl

theorem phase_cases {n m₁ m₂ : Nat} (h : x = if n ≤ m₁ then a else if n ≤ m₂ then b else c) :
    (n ≤ m₁ ∧ x = a) ∨ (m₁ < n ∧ n ≤ m₂ ∧ x = b) ∨ (m₁ < n ∧ m₂ < n ∧ x = c) := by
  split at h
  · exact .inl ⟨‹_›, h⟩
  · split at h
    · exact .inr (.inl ⟨by omega, ‹_›, h⟩)
    · exact .inr (.inr ⟨by omega, by omega, h⟩)

theorem first_look {i m₁ m₂ : Nat}
    (h : (i ≤ m₁ ∧ x = a) ∨ (m₁ < i ∧ i ≤ m₂ ∧ x = b) ∨ (m₁ < i ∧ m₂ < i ∧ x = c)) (hi : i ≤ m₁) :
    x = a := by
  rcases h with ⟨_, h⟩ | ⟨hgt, _⟩ | ⟨hgt, _⟩
  · exact h
  · omega
  · omega

theorem viewValue_refView (store : RefStore) (key : RefKey) :
    viewValue (refView key store) = (looseState store key).or (store.packedRefs.get key) := by
  unfold viewValue refView looseState
  cases store.loose key with
  | none => rfl
  | some text => cases text <;> rfl

/-- The reader's first look is at `i`, its second at `j` and its third at `k`. -/
theorem read_in_phases {i j k m₁ m₂ : Nat} (hchange : RefChange store key deletes b c)
    (hstate : store.loose key = (looseState store key).map .state)
    (hstale : deletes → ∀ id stale, store.loose key = some (.state id) →
      store.packedRefs.get key = some stale → id = stale)
    (hi : (i ≤ m₁ ∧ x = refView key store) ∨ (m₁ < i ∧ i ≤ m₂ ∧ x = b) ∨ (m₁ < i ∧ m₂ < i ∧ x = c))
    (hj : (j ≤ m₁ ∧ y = refView key store) ∨ (m₁ < j ∧ j ≤ m₂ ∧ y = b) ∨ (m₁ < j ∧ m₂ < j ∧ y = c))
    (hk : (k ≤ m₁ ∧ z = refView key store) ∨ (m₁ < k ∧ k ≤ m₂ ∧ z = b) ∨ (m₁ < k ∧ m₂ < k ∧ z = c))
    (hij : i ≤ j) (hjk : j ≤ k) (hread : (x.1 = none ∧ value = z.2) ∨
      (x.1 ≠ none ∧ ∃ id, y.1 = some (.state id) ∧ value = some id)) :
    value = viewValue (refView key store) ∨
      value = viewValue c ∧ (c.1 = none ∨ ∃ id, c.1 = some (.state id)) := by
  have hloose (id : StateId) (h : (refView key store).1 = some (.state id)) :
      viewValue (refView key store) = some id := by
    rw [viewValue, h]
  have hnone (h : (refView key store).1 = none) :
      viewValue (refView key store) = store.packedRefs.get key := by
    rw [viewValue, h]
    rfl
  cases hchange with
  | unchanged =>
    have hx : x = refView key store := by
      rcases hi with ⟨_, h⟩ | ⟨_, _, h⟩ | ⟨_, _, h⟩ <;> exact h
    have hy : y = refView key store := by
      rcases hj with ⟨_, h⟩ | ⟨_, _, h⟩ | ⟨_, _, h⟩ <;> exact h
    have hz : z = refView key store := by
      rcases hk with ⟨_, h⟩ | ⟨_, _, h⟩ | ⟨_, _, h⟩ <;> exact h
    subst hx hy hz
    rcases hread with ⟨habsent, rfl⟩ | ⟨_, id, hfound, rfl⟩
    · exact .inl (hnone habsent).symm
    · exact .inl (hloose id hfound).symm
  | set id =>
    rcases hread with ⟨habsent, rfl⟩ | ⟨_, id', hfound, rfl⟩
    · have hold : (refView key store).1 = none := by
        rcases hi with ⟨_, rfl⟩ | ⟨_, _, rfl⟩ | ⟨_, _, rfl⟩
        · exact habsent
        · cases habsent
        · cases habsent
      have hz : z.2 = store.packedRefs.get key := by
        rcases hk with ⟨_, rfl⟩ | ⟨_, _, rfl⟩ | ⟨_, _, rfl⟩ <;> rfl
      exact .inl (hz.trans (hnone hold).symm)
    · rcases hj with ⟨_, rfl⟩ | ⟨_, _, rfl⟩ | ⟨_, _, rfl⟩
      · exact .inl (hloose id' hfound).symm
      · cases hfound
        exact .inr ⟨rfl, .inr ⟨_, rfl⟩⟩
      · cases hfound
        exact .inr ⟨rfl, .inr ⟨_, rfl⟩⟩
  | delete h =>
    rcases hread with ⟨habsent, rfl⟩ | ⟨_, id, hfound, rfl⟩
    · rcases hk with ⟨hlt, rfl⟩ | ⟨_, _, rfl⟩ | ⟨_, _, rfl⟩
      · have hold : (refView key store).1 = none :=
          first_look hi (hij.trans (hjk.trans hlt)) ▸ habsent
        exact .inl (hnone hold).symm
      · cases hstateKey : looseState store key with
        | none =>
          rw [hstateKey] at hstate
          exact .inl (hnone hstate).symm
        | some id =>
          rw [hstateKey] at hstate
          cases hpacked : store.packedRefs.get key with
          | none => exact .inr ⟨rfl, .inl rfl⟩
          | some stale =>
            rw [hloose id hstate, hstale h id stale hstate hpacked]
            exact .inl rfl
      · exact .inr ⟨rfl, .inl rfl⟩
    · rcases hj with ⟨_, rfl⟩ | ⟨_, _, rfl⟩ | ⟨_, _, rfl⟩
      · exact .inl (hloose id hfound).symm
      · cases hfound
      · cases hfound
  | pack =>
    have hpacked := viewValue_refView store key
    rcases hread with ⟨habsent, rfl⟩ | ⟨_, id, hfound, rfl⟩
    · rcases hk with ⟨hlt, rfl⟩ | ⟨_, _, rfl⟩ | ⟨_, _, rfl⟩
      · have hold : (refView key store).1 = none :=
          first_look hi (hij.trans (hjk.trans hlt)) ▸ habsent
        exact .inl (hnone hold).symm
      · exact .inl hpacked.symm
      · exact .inl hpacked.symm
    · rcases hj with ⟨_, rfl⟩ | ⟨_, _, rfl⟩ | ⟨_, _, rfl⟩
      · exact .inl (hloose id hfound).symm
      · exact .inl (hloose id hfound).symm
      · cases hfound

/-- The run of a delete: the loose file goes first, and the packed value is seen in between. -/
theorem deletes_phases {id stale : StateId} (hreadable : Readable names store) (hdeletes : Deletes names store key op)
    (hloose : store.loose key = some (.state id)) (hpacked : store.packedRefs.get key = some stale) :
    Phases (refView key) (op.steps names store) store (refView key store)
      (none, store.packedRefs.get key) (none, none) := by
  cases op with
  | set key' id => cases hdeletes
  | pack => cases hdeletes
  | update updates => exact updateSteps_delete hdeletes.1 hdeletes.2.1 hdeletes.2.2
  | delete key' =>
    cases hdeletes
    have hname := hreadable.names key (mem_entries_of_loose (hloose ▸ rfl))
    have hfile : store.loose key = (some id).map .state := hloose
    have hget := rawGet_of_loose hname hfile
    have hholds : ExpectationsHold names store [.point key .any none] := by
      intro update hmem
      rw [mem_singleton.1 hmem]
      exact ⟨_, hget, rfl⟩
    have hphases := updateSteps_delete hholds (nodup_singleton key)
      (lastPoint_of_mem (nodup_singleton key) mem_cons_self)
    cases key with
    | thread name =>
      simp only [RefOp.steps, hget]
      exact hphases
    | marker name =>
      simp only [RefOp.steps, hget]
      exact hphases
    | remoteThread remote thread => cases hpacked

/-- A reader without the lock sees an older value exactly while a ref is deleted whose loose file
hides an older packed value. -/
theorem reads_linearizable_iff (names : RefNames) (ops : List RefOp) (op : RefOp) (key : RefKey) :
    ReadsLinearizably names (runOps names {} ops) op key ↔
      ¬DeletesOverStale names (runOps names {} ops) op key := by
  have hindexed : Indexed names (runOps names {} ops) := runOps_indexed empty_indexed ops
  have hreadable := hindexed.readable
  generalize runOps names {} ops = store at hreadable ⊢
  constructor
  · intro hlinear hstale
    obtain ⟨hdeletes, id, stale, hloose, hpacked, hne⟩ := hstale
    have hname := hreadable.names key (mem_entries_of_loose (hloose ▸ rfl))
    obtain ⟨m₁, m₂, hlt, hfinal, hphases⟩ := deletes_phases hreadable hdeletes hloose hpacked
    have hmiddle := hphases m₂
    rw [if_neg (by omega), if_pos (Nat.le_refl m₂), hpacked] at hmiddle
    have hread : rawGet names (stateAfter (op.steps names store) store m₂) key =
        .ok (some stale) := by
      rw [rawGet_view hname (.inl (congrArg Prod.fst hmiddle)), hmiddle]
      rfl
    have hbefore : rawGet names store key = .ok (some id) := by
      rw [rawGet_view hname (.inr ⟨id, hloose⟩), viewValue, refView, hloose]
    have hafter : rawGet names (op.run names store).2 key = .ok none := by
      rw [runSteps_steps] at hfinal
      rw [rawGet_view hname (.inl (congrArg Prod.fst hfinal)), hfinal]
      rfl
    rw [← readRef_same] at hread
    rcases hlinear m₂ m₂ m₂ (some stale) (Nat.le_refl _) (Nat.le_refl _) hread with h | h
    · rw [hbefore] at h
      cases h
      exact hne rfl
    · rw [hafter] at h
      cases h
  · intro hstale i j k value hij hjk hread
    obtain ⟨path, hname, _⟩ := bind_eq_ok.1 hread
    cases refPath_ok hname
    obtain ⟨b, c, ⟨m₁, m₂, hlt, hfinal, hphases⟩, hchange⟩ := run_changes op key
    rw [runSteps_steps] at hfinal
    have hbefore : rawGet names store key = .ok (viewValue (refView key store)) := by
      apply rawGet_view hname
      have hstate := hreadable.states key
      cases hloose : looseState store key with
      | none =>
        rw [hloose] at hstate
        exact .inl hstate
      | some id =>
        rw [hloose] at hstate
        exact .inr ⟨id, hstate⟩
    have hold (h : Deletes names store key op) (id stale : StateId)
        (hloose : store.loose key = some (.state id))
        (hpacked : store.packedRefs.get key = some stale) : id = stale :=
      not_not.1 fun hne => hstale ⟨h, id, stale, hloose, hpacked, hne⟩
    rcases read_in_phases hchange (hreadable.states key) hold (phase_cases (hphases i))
      (phase_cases (hphases j)) (phase_cases (hphases k)) hij hjk (readRef_ok hread) with
      rfl | ⟨rfl, hplace⟩
    · exact .inl hbefore
    · rw [← hfinal] at hplace ⊢
      exact .inr (rawGet_view hname hplace)

/-- A delete of a ref that was packed and then set again: a reader between the two files finds the
value that was packed. -/
theorem reads_not_linearizable :
    ¬ReadsLinearizably plainNames (runOps plainNames {}
        [.set (.thread "main") (numberedState 1), .pack, .set (.thread "main") (numberedState 2)])
      (.delete (.thread "main")) (.thread "main") := by
  intro h
  rcases h 2 2 2 (some (numberedState 1)) (Nat.le_refl _) (Nat.le_refl _) (by decide) with h | h
  · exact absurd h (by decide)
  · exact absurd h (by decide)

end Reads

end Heddle.Refs
