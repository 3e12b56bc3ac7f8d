import Heddle.Refs.Planning
import Heddle.Refs.Rollback

namespace Heddle.Refs
open Heddle.Lib List Option

def updatedPoint (key : RefKey) : RefUpdate → Option (Option StateId)
  | .point key' _ new => if key' = key then some new else none
  | .head _ _ => none

def updatedHead : RefUpdate → Option Head
  | .point _ _ _ => none
  | .head _ new => some new

/-- The last value that the updates give a ref: an id, or none when they delete it. -/
def lastPoint (key : RefKey) (updates : List RefUpdate) : Option (Option StateId) :=
  lastSome (updatedPoint key) updates

def lastHead (updates : List RefUpdate) : Option Head := lastSome updatedHead updates

section Values
variable (names : RefNames)

def SameValues (store left : RefStore) : Prop :=
  (∀ key, rawGet names left key = rawGet names store key) ∧
    readHeadState names left = readHeadState names store

def Updated (store : RefStore) (updates : List RefUpdate) (left : RefStore) : Prop :=
  (∀ key, rawGet names left key = (lastPoint key updates).elim (rawGet names store key) .ok) ∧
  readHeadState names left = (lastHead updates).elim (readHeadState names store)
    (fun new => .ok ⟨new, true, some new.toText⟩)

/-- The last HEAD that the updates write can be read back. -/
def HeadReadsBack (updates : List RefUpdate) : Prop :=
  ∀ thread, lastHead updates = some (.attached thread) →
    names.fromGitBranch thread ∧ names.requireUserRefName thread

variable {names}

theorem rawGet_congr (hfile : left.loose key = store.loose key)
    (hpacked : left.packedRefs.get key = store.packedRefs.get key) :
    rawGet names left key = rawGet names store key := by
  unfold rawGet readStateIdAt
  rw [hfile, hpacked]

theorem rawGet_of_loose {value : Option StateId} (hname : refPath names key = .ok path)
    (hfile : store.loose key = value.map .state) :
    rawGet names store key = .ok (value.or (store.packedRefs.get key)) := by
  unfold rawGet readStateIdAt
  rw [hname, hfile]
  cases value <;> rfl

theorem packedGet_of_rawGet_none (h : rawGet names store key = .ok none) :
    store.packedRefs.get key = none := by
  obtain ⟨_, _, h⟩ := bind_eq_ok.1 h
  obtain ⟨value, _, h⟩ := bind_eq_ok.1 h
  cases value with
  | none => exact Except.ok.inj h
  | some id => cases h

theorem rawGet_of_restored (hget : rawGet names store key = .ok current)
    (hfile : left.loose key = current.map .state)
    (hpacked : left.packedRefs.get key = store.packedRefs.get key) :
    rawGet names left key = .ok current := by
  rw [rawGet_of_loose (refPath_of_rawGet hget) hfile, hpacked]
  cases current with
  | none => rw [packedGet_of_rawGet_none hget, or_none]
  | some id => rfl

theorem readHeadState_congr (h : left.head = store.head) :
    readHeadState names left = readHeadState names store := by
  unfold readHeadState
  rw [h]

theorem readHeadState_of_head (h : store.head = some (Head.toText new)) :
    readHeadState names store = .ok ⟨new, true, some new.toText⟩ ↔ ∀ thread, new = .attached thread →
      names.fromGitBranch thread ∧ names.requireUserRefName thread := by
  unfold readHeadState
  rw [h]
  cases new with
  | detached id => exact iff_of_true rfl nofun
  | attached thread =>
    by_cases hname : names.fromGitBranch thread ∧ names.requireUserRefName thread
    · refine iff_of_true ?_ fun _ heq => by cases heq; exact hname
      exact bind_eq_ok.2 ⟨_, if_pos hname, rfl⟩
    · refine iff_of_false (fun hread => ?_) fun hall => hname (hall thread rfl)
      obtain ⟨_, hparse, _⟩ := bind_eq_ok.1 hread
      rw [Head.toText, parseHeadContents, if_neg hname] at hparse
      cases hparse

end Values

section Batch
variable (names : RefNames) (store : RefStore) (updates : List RefUpdate)

def planned : List RefUpdatePlan := updates.map (planOf names store)

/-- The file system steps of a batch whose expectations hold. The summary, which can be lost, is not
among them. -/
def BatchStep (step : Step) : Prop :=
  updates ≠ [] ∧ (step = .lockRefs ∨ PublishStep (planned names store updates) store step)

/-- Some ref reads differently once the loose files are published, before packed refs are removed. -/
def LooseChange : Prop :=
  (∃ key new, lastPoint key updates = some new ∧
    rawGet names store key ≠ .ok (new.or (store.packedRefs.get key))) ∨
  ∃ new, lastHead updates = some new ∧ store.head ≠ some new.toText

variable {names store updates}

section
variable (names : RefNames) (store : RefStore) (updates : List RefUpdate)

theorem writtenText_point (key : RefKey) :
    writtenText (.entry key) (planned names store updates) =
      (lastPoint key updates).map (Option.map .state) := by
  unfold writtenText planned lastPoint
  rw [lastSome_map, ← lastSome_map_value]
  congr 1
  funext update
  cases update with
  | point key' expected new =>
    simp only [Function.comp_apply, planOf, pointPlan, updatedPoint, RefPath.entry.injEq]
    split <;> rfl
  | head expected new =>
    simp only [Function.comp_apply, planOf, headPlan, updatedPoint, reduceCtorEq, if_false,
      map_none]

theorem writtenText_head :
    writtenText .head (planned names store updates) =
      (lastHead updates).map (fun new => some new.toText) := by
  unfold writtenText planned lastHead
  rw [lastSome_map, ← lastSome_map_value]
  congr 1
  funext update
  cases update with
  | point key' expected new =>
    simp only [Function.comp_apply, planOf, pointPlan, updatedHead, reduceCtorEq, if_false,
      map_none]
  | head expected new =>
    simp only [Function.comp_apply, planOf, headPlan, updatedHead, if_true, map_some]

end

theorem exists_of_lastPoint (h : lastPoint key updates = some new) :
    ∃ expected, .point key expected new ∈ updates := by
  obtain ⟨update, hmem, hupdate⟩ := exists_of_lastSome h
  cases update with
  | point key' expected new' =>
    obtain ⟨hkey, hnew⟩ := ite_none_right_eq_some.1 hupdate
    rw [hkey, some.inj hnew] at hmem
    exact ⟨expected, hmem⟩
  | head expected new' => cases hupdate

theorem readHeadState_of_holds (h : ExpectationsHold names store updates)
    (hlast : lastHead updates = some new) : ∃ current, readHeadState names store = .ok current := by
  obtain ⟨update, hmem, hupdate⟩ := exists_of_lastSome hlast
  cases update with
  | point key expected new' => cases hupdate
  | head expected new' =>
    obtain ⟨current, hcurrent, _⟩ := h _ hmem
    exact ⟨current, hcurrent⟩

theorem rawGet_of_holds (h : ExpectationsHold names store updates)
    (hmem : .point key expected new ∈ updates) : ∃ current, rawGet names store key = .ok current := by
  obtain ⟨current, hcurrent, _⟩ := h _ hmem
  exact ⟨current, hcurrent⟩

theorem packedGet_deleted (hholds : ExpectationsHold names store updates)
    (hmem : .point key expected none ∈ updates) :
    (published (planned names store updates) store).packedRefs.get key = none := by
  rw [packedGet_published]
  split
  · rfl
  · rename_i hkept
    obtain ⟨current, hcurrent⟩ := rawGet_of_holds hholds hmem
    cases hkey : key.packable with
    | false => exact PackedRefs.get_not_packable _ hkey
    | true =>
      cases current with
      | none => exact packedGet_of_rawGet_none hcurrent
      | some id =>
        apply absurd _ hkept
        apply mem_filterMap.2
        refine ⟨planOf names store (.point key expected none), mem_map_of_mem hmem, ?_⟩
        simp only [planOf, pointPlan, hcurrent, okOr, hkey, isNone_none, isSome_some,
          Bool.and_true, if_true]

theorem packedGet_kept (h : lastPoint key updates = none) :
    (published (planned names store updates) store).packedRefs.get key =
      store.packedRefs.get key := by
  rw [packedGet_published, if_neg]
  intro hremoved
  obtain ⟨plan, hplan, hkey⟩ := mem_filterMap.1 hremoved
  obtain ⟨update, hmem, rfl⟩ := mem_map.1 hplan
  have hnone := lastSome_eq_none_iff.1 h update hmem
  cases update with
  | point key' expected new =>
    simp only [planOf, pointPlan, ite_none_right_eq_some, some.injEq] at hkey
    rw [updatedPoint, if_pos hkey.2] at hnone
    cases hnone
  | head expected new => cases hkey

section
variable (hholds : ExpectationsHold names store updates)
include hholds

theorem published_updated_iff
    (hfile : ∀ path, left.fileAt path = (published (planned names store updates) store).fileAt path)
    (hpacked : left.packed = (published (planned names store updates) store).packed) :
    Updated names store updates left ↔ HeadReadsBack names updates := by
  have hpoints : ∀ key,
      rawGet names left key = (lastPoint key updates).elim (rawGet names store key) .ok := by
    intro key
    have hget : left.packedRefs.get key =
        (published (planned names store updates) store).packedRefs.get key := by
      rw [RefStore.packedRefs, hpacked, ← RefStore.packedRefs]
    have hloose : left.loose key =
        ((lastPoint key updates).map (Option.map .state)).getD (store.loose key) := by
      rw [← writtenText_point names store]
      exact (hfile (.entry key)).trans (fileAt_published _ store _)
    cases hlast : lastPoint key updates with
    | none =>
      rw [hlast] at hloose
      exact rawGet_congr hloose (hget.trans (packedGet_kept hlast))
    | some new =>
      obtain ⟨expected, hmem⟩ := exists_of_lastPoint hlast
      obtain ⟨current, hcurrent⟩ := rawGet_of_holds hholds hmem
      rw [hlast] at hloose
      rw [rawGet_of_loose (refPath_of_rawGet hcurrent) hloose, hget]
      cases new with
      | none => rw [packedGet_deleted hholds hmem, or_none, elim_some]
      | some id => rfl
  refine (and_iff_right hpoints).trans ?_
  have hhead : left.head = ((lastHead updates).map (fun new => some new.toText)).getD store.head := by
    rw [← writtenText_head names store]
    exact (hfile .head).trans (fileAt_published _ store _)
  cases hlast : lastHead updates with
  | none =>
    rw [hlast] at hhead
    exact iff_of_true (readHeadState_congr hhead) fun _ hnew => by cases hlast.symm.trans hnew
  | some new =>
    rw [hlast] at hhead
    rw [elim_some, readHeadState_of_head hhead, HeadReadsBack, hlast]
    simp only [Option.some.injEq]

theorem restored_sameValues
    (h : Restored (planned names store updates) store left) : SameValues names store left := by
  obtain ⟨hpacked, hfiles⟩ := h
  constructor
  · intro key
    have hget : left.packedRefs.get key = store.packedRefs.get key := by
      rw [RefStore.packedRefs, hpacked, ← RefStore.packedRefs]
    rcases hfiles (.entry key) with hfile | ⟨plan, hplan, hpath, hfile⟩
    · exact rawGet_congr hfile hget
    · obtain ⟨update, hmem, rfl⟩ := mem_map.1 hplan
      cases update with
      | point key' expected new =>
        cases hpath
        obtain ⟨current, hcurrent⟩ := rawGet_of_holds hholds hmem
        rw [planOf, hcurrent] at hfile
        rw [hcurrent]
        exact rawGet_of_restored hcurrent hfile hget
      | head expected new => cases hpath
  · apply readHeadState_congr
    rcases hfiles .head with hfile | ⟨plan, hplan, hpath, hfile⟩
    · exact hfile
    · obtain ⟨update, hmem, rfl⟩ := mem_map.1 hplan
      cases update with
      | point key' expected new => cases hpath
      | head expected new => exact hfile

/-- A failed directory sync leaves every ref as it was exactly when publishing the loose files
changed no ref. -/
theorem syncLeft_sameValues_iff (hpacked : left.packed = store.packed)
    (hfile : ∀ path, left.fileAt path =
      (writtenText path (planned names store updates)).getD (store.fileAt path)) :
    SameValues names store left ↔ ¬LooseChange names store updates := by
  have hget (key : RefKey) : left.packedRefs.get key = store.packedRefs.get key := by
    rw [RefStore.packedRefs, hpacked, ← RefStore.packedRefs]
  have hloose (key : RefKey) : left.loose key =
      ((lastPoint key updates).map (Option.map .state)).getD (store.loose key) := by
    rw [← writtenText_point names store]
    exact hfile (.entry key)
  have hhead : left.head = ((lastHead updates).map (fun new => some new.toText)).getD store.head := by
    rw [← writtenText_head names store]
    exact hfile .head
  have hpoint (key : RefKey) (new : Option StateId) (hlast : lastPoint key updates = some new) :
      rawGet names left key = .ok (new.or (store.packedRefs.get key)) := by
    obtain ⟨expected, hmem⟩ := exists_of_lastPoint hlast
    obtain ⟨current, hcurrent⟩ := rawGet_of_holds hholds hmem
    have hlooseNew := hloose key
    rw [hlast] at hlooseNew
    rw [rawGet_of_loose (refPath_of_rawGet hcurrent) hlooseNew, hget]
  constructor
  · intro hsame hchange
    rcases hchange with ⟨key, new, hlast, hne⟩ | ⟨new, hlast, hne⟩
    · exact hne ((hsame.1 key).symm.trans (hpoint key new hlast))
    · rw [hlast] at hhead
      obtain ⟨current, hcurrent⟩ := readHeadState_of_holds hholds hlast
      have hleft := readHeadState_raw (hsame.2.trans hcurrent)
      exact hne ((readHeadState_raw hcurrent).symm.trans (hleft.trans hhead))
  · intro hchange
    rw [LooseChange, not_or] at hchange
    obtain ⟨hpoints, hheads⟩ := hchange
    constructor
    · intro key
      cases hlast : lastPoint key updates with
      | none =>
        have hlooseOld := hloose key
        rw [hlast] at hlooseOld
        exact rawGet_congr hlooseOld (hget key)
      | some new =>
        rw [hpoint key new hlast]
        exact (not_not.1 fun hne => hpoints ⟨key, new, hlast, hne⟩).symm
    · apply readHeadState_congr
      cases hlast : lastHead updates with
      | none =>
        rw [hhead, hlast]
        rfl
      | some new =>
        rw [hhead, hlast]
        exact (not_not.1 fun hne => hheads ⟨new, hlast, hne⟩).symm

end

end Batch

section Update
variable {fails : Step → Bool} {names : RefNames} {store : RefStore} {updates : List RefUpdate}

theorem planned_deletesOnce (h : PointsOnce updates) :
    DeletesOnce (planned names store updates) := by
  apply pairwise_map.2
  apply (pairwise_filterMap.1 h).imp
  intro earlier later hne hnew hpath
  cases later with
  | head expected new => cases hnew
  | point key expected new =>
    cases earlier with
    | head expected' new' => cases hpath
    | point key' expected' new' => exact hne key' rfl key rfl (RefPath.entry.inj hpath)

theorem pointsOnce_of_refsOnce (h : RefsOnce updates) : PointsOnce updates := by
  apply pairwise_filterMap.2
  apply (pairwise_map.1 h).imp
  intro earlier later hne key hkey key' hkey' heq
  cases earlier with
  | head expected new => cases hkey
  | point key₁ expected new =>
    cases later with
    | head expected new => cases hkey'
    | point key₂ expected' new' =>
      cases hkey
      cases hkey'
      exact hne (congrArg RefPath.entry heq)

theorem updateRefs_rejects (fails : Step → Bool)
    (h : ¬(ExpectationsHold names store updates ∧ PointsOnce updates)) :
    ∃ error, updateRefs fails names store updates = (.error error, store) := by
  unfold updateRefs
  cases updates with
  | nil => exact absurd ⟨fun _ hmem => absurd hmem not_mem_nil, nodup_nil⟩ h
  | cons update updates =>
    simp only [isEmpty_cons, Bool.false_eq_true, if_false]
    by_cases hlock : fails .lockRefs = true
    · exact ⟨.io, if_pos hlock⟩
    · rw [stepThen_ok (eq_false_of_ne_true hlock)]
      cases hplan : planRefUpdates names store (update :: updates) with
      | error error => exact ⟨error, rfl⟩
      | ok plans =>
        obtain ⟨hholds, honce, _⟩ := planRefUpdates_ok_iff.1 hplan
        exact absurd ⟨hholds, honce⟩ h

def updatedFiles (fails : Step → Bool) (names : RefNames) (store : RefStore)
    (updates : List RefUpdate) : RefStore :=
  if updates.isEmpty then store
  else
    let plans := planned names store updates
    updateRefSummaryIndexWithDeltas names (published plans store) (fails .writeSummary)
      (plans.filterMap RefUpdatePlan.summaryDelta)

theorem updateRefs_runs (hfault : SingleFault fails) (hholds : ExpectationsHold names store updates)
    (honce : PointsOnce updates) :
    Runs fails (BatchStep names store updates) (updateRefs fails names store updates)
      (updatedFiles fails names store updates) (PublishLeft (planned names store updates) store) := by
  have hplan := planRefUpdates_ok_iff.2 ⟨hholds, honce, rfl⟩
  unfold updateRefs updatedFiles
  cases updates with
  | nil => exact .nothing fun _ hstep => hstep.1 rfl
  | cons update updates =>
    simp only [isEmpty_cons, Bool.false_eq_true, if_false]
    have hdeletes : DeletesOnce (planned names store (update :: updates)) :=
      planned_deletesOnce honce
    have hpublish := publishRefPlans_runs hfault hdeletes names store
    generalize updateRefSummaryIndexWithDeltas names _ _ _ = done at hpublish ⊢
    have hlock : PublishLeft (planned names store (update :: updates)) store .lockRefs store :=
      ⟨rfl, fun _ => .inl rfl⟩
    apply Runs.congr
    · apply Runs.failOr hlock
      simp only [hplan]
      exact hpublish
    · intro step
      simp only [BatchStep, ne_eq, reduceCtorEq, not_false_eq_true, true_and]
    · intro step left _ hleft
      exact hleft

theorem updatedFiles_updated_iff (hholds : ExpectationsHold names store updates) :
    Updated names store updates (updatedFiles fails names store updates) ↔
      HeadReadsBack names updates := by
  unfold updatedFiles
  cases updates with
  | nil => exact iff_of_true ⟨fun _ => rfl, rfl⟩ nofun
  | cons update updates =>
    simp only [isEmpty_cons, Bool.false_eq_true, if_false]
    apply published_updated_iff hholds
    · exact fileAt_updateSummary names _ _ _
    · exact packed_updateSummary names _ _ _

/-- A batch of updates is atomic. `fails` says which file system steps fail. -/
structure AtomicUpdate (fails : Step → Bool) (names : RefNames) (store : RefStore)
    (updates : List RefUpdate) : Prop where
  sound : (updateRefs fails names store updates).1 = .ok () →
    ExpectationsHold names store updates ∧ RefsOnce updates
  complete : (∀ step, fails step = false) → ExpectationsHold names store updates →
    RefsOnce updates → (updateRefs fails names store updates).1 = .ok ()
  updated : (updateRefs fails names store updates).1 = .ok () →
    Updated names store updates (updateRefs fails names store updates).2
  unchanged : (updateRefs fails names store updates).1 ≠ .ok () →
    SameValues names store (updateRefs fails names store updates).2

/-- The three ways in which a batch is not atomic: a directory sync fails after files were renamed,
HEAD is updated twice, or what is written to HEAD is refused when it is read back. -/
def BreaksAtomicity (fails : Step → Bool) (names : RefNames) (store : RefStore)
    (updates : List RefUpdate) : Prop :=
  ExpectationsHold names store updates ∧ PointsOnce updates ∧
    ((∃ parent, BatchStep names store updates (.syncDirectory parent) ∧
        fails (.syncDirectory parent) = true ∧ LooseChange names store updates) ∨
      ¬(RefsOnce updates ∧ HeadReadsBack names updates) ∧
        ∀ step, BatchStep names store updates step → fails step = false)

theorem atomic_of_rejected (h : ¬(ExpectationsHold names store updates ∧ PointsOnce updates)) :
    AtomicUpdate fails names store updates := by
  obtain ⟨error, heq⟩ := updateRefs_rejects fails h
  constructor
  · intro hok
    rw [heq] at hok
    cases hok
  · intro _ hholds honce
    exact absurd ⟨hholds, pointsOnce_of_refsOnce honce⟩ h
  · intro hok
    rw [heq] at hok
    cases hok
  · intro _
    rw [heq]
    exact ⟨fun _ => rfl, rfl⟩

theorem atomic_of_applied_iff (hholds : ExpectationsHold names store updates)
    (heq : updateRefs fails names store updates = (.ok (), updatedFiles fails names store updates)) :
    AtomicUpdate fails names store updates ↔ RefsOnce updates ∧ HeadReadsBack names updates := by
  have hupdated : Updated names store updates (updatedFiles fails names store updates) ↔
      HeadReadsBack names updates := updatedFiles_updated_iff hholds
  constructor
  · intro h
    have hleft := h.updated (congrArg Prod.fst heq)
    rw [heq] at hleft
    exact ⟨(h.sound (congrArg Prod.fst heq)).2, hupdated.1 hleft⟩
  · rintro ⟨honce, hreads⟩
    constructor
    · intro _
      exact ⟨hholds, honce⟩
    · intro _ _ _
      exact congrArg Prod.fst heq
    · intro _
      rw [heq]
      exact hupdated.2 hreads
    · intro hne
      exact absurd (congrArg Prod.fst heq) hne

theorem atomic_of_failed_iff (hfails : fails step = true)
    (heq : updateRefs fails names store updates = (.error error, left)) :
    AtomicUpdate fails names store updates ↔ SameValues names store left := by
  have hne : (updateRefs fails names store updates).1 ≠ .ok () := by
    rw [heq]
    exact nofun
  constructor
  · intro h
    have hsame := h.unchanged hne
    rw [heq] at hsame
    exact hsame
  · intro hsame
    constructor
    · intro hok
      exact absurd hok hne
    · intro hnone
      rw [hnone step] at hfails
      cases hfails
    · intro hok
      exact absurd hok hne
    · intro _
      rw [heq]
      exact hsame

theorem updateRefs_atomic_iff (fails : Step → Bool) (names : RefNames) (store : RefStore)
    (updates : List RefUpdate) (hfault : SingleFault fails) :
    AtomicUpdate fails names store updates ↔ ¬BreaksAtomicity fails names store updates := by
  by_cases hvalid : ExpectationsHold names store updates ∧ PointsOnce updates
  · obtain ⟨hholds, honce⟩ := hvalid
    rcases updateRefs_runs hfault hholds honce with
      ⟨hok, hnone⟩ | ⟨step, error, left, hstep, hfails, herror, hleft⟩
    · rw [atomic_of_applied_iff hholds hok]
      constructor
      · intro hrefs hbreaks
        rcases hbreaks.2.2 with ⟨parent, hsync, hfails, _⟩ | ⟨htwice, _⟩
        · rw [hnone _ hsync] at hfails
          cases hfails
        · exact htwice hrefs
      · intro hbreaks
        exact not_not.1 fun htwice => hbreaks ⟨hholds, honce, .inr ⟨htwice, hnone⟩⟩
    · rw [atomic_of_failed_iff hfails herror]
      have hbreaks : BreaksAtomicity fails names store updates ↔
          ∃ parent, step = .syncDirectory parent ∧ LooseChange names store updates := by
        constructor
        · intro h
          rcases h.2.2 with ⟨parent, _, hsync, hchange⟩ | ⟨_, hnone⟩
          · exact ⟨parent, hfault step _ hfails hsync, hchange⟩
          · rw [hnone step hstep] at hfails
            cases hfails
        · intro h
          obtain ⟨parent, rfl, hchange⟩ := h
          exact ⟨hholds, honce, .inl ⟨parent, hstep, hfails, hchange⟩⟩
      rw [hbreaks]
      unfold PublishLeft at hleft
      split at hleft
      · rename_i parent
        rw [syncLeft_sameValues_iff hholds hleft.1 hleft.2]
        have hsync : (∃ parent', Step.syncDirectory parent = .syncDirectory parent' ∧
            LooseChange names store updates) ↔ LooseChange names store updates :=
          ⟨fun h => h.choose_spec.2, fun h => ⟨parent, rfl, h⟩⟩
        rw [hsync]
      · rename_i hother
        have hne : ¬∃ parent, step = .syncDirectory parent ∧ LooseChange names store updates :=
          fun h => hother h.choose h.choose_spec.1
        exact iff_of_true (restored_sameValues hholds hleft) hne
  · exact iff_of_true (atomic_of_rejected hvalid) fun hbreaks => hvalid ⟨hbreaks.1, hbreaks.2.1⟩

end Update

/-- A rename that fails after another one went through is undone. -/
theorem updateRefs_atomic_renameFails :
    AtomicUpdate (fun step => step = .rename 1) plainNames {}
      [.point (.thread "main") .missing (some (numberedState 1)), .head .any (.attached "main")] := by
  apply (updateRefs_atomic_iff _ _ _ _ ?_).2
  · intro hbreaks
    rcases hbreaks.2.2 with ⟨parent, _, hfails, _⟩ | ⟨htwice, _⟩
    · cases of_decide_eq_true hfails
    · exact htwice ⟨by decide, fun _ _ => ⟨rfl, rfl⟩⟩
  · intro step step' hstep hstep'
    exact (of_decide_eq_true hstep).trans (of_decide_eq_true hstep').symm

def gitNames : RefNames := { plainNames with fromGitBranch := fun name => name ≠ "a..b" }

/-- A failed directory sync leaves the new thread in place, two updates of HEAD are accepted, and so
is a HEAD that cannot be read back. -/
theorem updateRefs_not_atomic :
    ¬AtomicUpdate (fun step => step = .syncDirectory (.entry (.thread "main"))) plainNames {}
      [.point (.thread "main") .missing (some (numberedState 1))] ∧
    ¬AtomicUpdate (fun _ => false) plainNames {}
      [.head .any (.attached "a"), .head .any (.attached "b")] ∧
    ¬AtomicUpdate (fun _ => false) gitNames {} [.head .any (.attached "a..b")] := by
  refine ⟨?_, ?_, ?_⟩
  · intro h
    have hsame := (h.unchanged (by decide)).1 (.thread "main")
    exact absurd hsame (by decide)
  · intro h
    exact absurd (h.sound (by decide)).2 (by decide)
  · intro h
    exact absurd (h.updated (by decide)).2 (by decide)

end Heddle.Refs
