import Heddle.Timeline.JournalCrashes

namespace Heddle.Timeline
open Heddle.Lib List

section Rearranged
variable (blake3 : Bytes → ContentHash) (msgpack : TimelineMsgpack)

/-- The store is kept, with the operations that it had at the start and no other. -/
structure Rearranged (track : Prop) (start disk : TimelineDisk) : Prop where
  kept : Kept blake3 msgpack track start disk
  same : ∀ opId, Canonical disk opId ↔ Canonical start opId

/-- A pack that has the name of the one to be built has its operations. -/
def NamesApart (packName : PackNaming) (aggressive : Bool) (disk : TimelineDisk) : Prop :=
  ∀ operations ∈ canonicalOperations blake3 msgpack disk,
    ∀ found ∈ disk.packs.lookup (packName aggressive operations), found = operations

end Rearranged

theorem canonical_iff : Canonical disk opId ↔
    (disk.ops.lookup opId).isSome ∨ ∃ name operations,
      disk.packs.lookup name = some operations ∧ name ∈ disk.packIndexes ∧
        opId ∈ operations.map Prod.fst := by
  unfold Canonical
  apply or_congr Iff.rfl
  constructor
  · intro h
    obtain ⟨op, hop, hid⟩ := h
    obtain ⟨name, operations, hpack, hindex, hop⟩ := mem_packedOperations.1 hop
    exact ⟨name, operations, hpack, hindex, mem_map.2 ⟨op, hop, hid⟩⟩
  · intro h
    obtain ⟨name, operations, hpack, hindex, hop⟩ := h
    obtain ⟨op, hop, hid⟩ := mem_map.1 hop
    exact ⟨op, mem_packedOperations.2 ⟨name, operations, hpack, hindex, hop⟩, hid⟩

section Steps
variable {blake3 : Bytes → ContentHash} {msgpack : TimelineMsgpack} {track : Prop} {start disk : TimelineDisk}

section
variable (h : Rearranged blake3 msgpack track start disk)
include h

theorem Rearranged.setInstalls (installs : List PackInstall) :
    Rearranged blake3 msgpack track start { disk with packInstalls := installs } :=
  ⟨h.kept.rearrange (fun _ => Iff.rfl) rfl rfl rfl (fun _ _ hop => hop) h.kept.intact.packed, h.same⟩

theorem Rearranged.erasePack (hstill : ∀ opId, Canonical disk opId →
      Canonical { disk with packs := disk.packs.erase name } opId) :
    Rearranged blake3 msgpack track start { disk with packs := disk.packs.erase name } := by
  have hlookup : ∀ other operations, (disk.packs.erase name).lookup other = some operations →
      disk.packs.lookup other = some operations := by
    intro other operations hpack
    rw [Table.lookup_erase] at hpack
    split at hpack
    · cases hpack
    · exact hpack
  have hsame : ∀ opId, Canonical { disk with packs := disk.packs.erase name } opId ↔
      Canonical disk opId := by
    intro opId
    refine ⟨fun hop => ?_, hstill opId⟩
    rcases canonical_iff.1 hop with hop | ⟨other, operations, hpack, hindex, hop⟩
    · exact .inl hop
    · exact canonical_iff.2 (.inr ⟨other, operations, hlookup other operations hpack, hindex, hop⟩)
  exact ⟨h.kept.rearrange hsame rfl rfl rfl (fun _ _ hop => hop)
    fun other operations hpack => h.kept.intact.packed other operations (hlookup _ _ hpack),
    fun opId => (hsame opId).trans (h.same opId)⟩

theorem Rearranged.insertPack (habsent : disk.packs.lookup name = none)
    (hops : ∀ op ∈ operations, Valid blake3 msgpack op.1 op.2 ∧ Canonical start op.1) :
    Rearranged blake3 msgpack track start
      { disk with packs := disk.packs.insert name operations } := by
  have hlookup : ∀ other found, (disk.packs.insert name operations).lookup other = some found →
      other = name ∧ found = operations ∨ disk.packs.lookup other = some found := by
    intro other found hpack
    rw [Table.lookup_insert] at hpack
    split at hpack
    case isTrue hother => exact .inl ⟨hother, (Option.some.inj hpack).symm⟩
    case isFalse => exact .inr hpack
  have hsame : ∀ opId, Canonical { disk with packs := disk.packs.insert name operations } opId ↔
      Canonical disk opId := by
    intro opId
    constructor
    · intro hop
      rcases canonical_iff.1 hop with hop | ⟨other, found, hpack, hindex, hin⟩
      · exact .inl hop
      · rcases hlookup other found hpack with ⟨_, rfl⟩ | hpack
        · obtain ⟨op, hmem, rfl⟩ := mem_map.1 hin
          exact (h.same op.1).2 (hops op hmem).2
        · exact canonical_iff.2 (.inr ⟨other, found, hpack, hindex, hin⟩)
    · intro hop
      rcases canonical_iff.1 hop with hop | ⟨other, found, hpack, hindex, hop⟩
      · exact .inl hop
      · have hother : other ≠ name := by
          rintro rfl
          rw [habsent] at hpack
          cases hpack
        have hpack' : (disk.packs.insert name operations).lookup other = some found := by
          rw [Table.lookup_insert_ne hother]
          exact hpack
        exact canonical_iff.2 (.inr ⟨other, found, hpack', hindex, hop⟩)
  refine ⟨h.kept.rearrange hsame rfl rfl rfl (fun _ _ hop => hop) ?_,
    fun opId => (hsame opId).trans (h.same opId)⟩
  intro other found hpack
  rcases hlookup other found hpack with ⟨rfl, rfl⟩ | hpack
  · exact fun op hop => ⟨(hops op hop).1, (h.same op.1).2 (hops op hop).2⟩
  · exact h.kept.intact.packed other found hpack

theorem Rearranged.setIndexes
    (hkeeps : ∀ name ∈ disk.packIndexes, disk.packs.lookup name ≠ none → name ∈ indexes) :
    Rearranged blake3 msgpack track start { disk with packIndexes := indexes } := by
  have hsame : ∀ opId, Canonical { disk with packIndexes := indexes } opId ↔
      Canonical disk opId := by
    intro opId
    constructor
    · intro hop
      rcases canonical_iff.1 hop with hop | ⟨name, operations, hpack, _, hin⟩
      · exact .inl hop
      · obtain ⟨op, hmem, rfl⟩ := mem_map.1 hin
        exact (h.kept.intact.packed name operations hpack op hmem).2
    · intro hop
      rcases canonical_iff.1 hop with hop | ⟨name, operations, hpack, hindex, hop⟩
      · exact .inl hop
      · refine canonical_iff.2 (.inr ⟨name, operations, hpack, hkeeps name hindex ?_, hop⟩)
        rw [hpack]
        exact Option.some_ne_none _
  exact ⟨h.kept.rearrange hsame rfl rfl rfl (fun _ _ hop => hop) h.kept.intact.packed,
    fun opId => (hsame opId).trans (h.same opId)⟩

theorem Rearranged.eraseOperation (hpacked : ∃ op ∈ disk.packedOperations, op.1 = opId) :
    Rearranged blake3 msgpack track start { disk with ops := disk.ops.erase opId } := by
  have hsame : ∀ other, Canonical { disk with ops := disk.ops.erase opId } other ↔
      Canonical disk other := by
    intro other
    by_cases hother : other = opId
    · subst hother
      exact iff_of_true (.inr hpacked) (.inr hpacked)
    · change ((disk.ops.erase opId).lookup other).isSome = true ∨ _ ↔ _
      rw [Table.lookup_erase_ne hother]
      exact Iff.rfl
  refine ⟨h.kept.rearrange hsame rfl rfl rfl ?_ h.kept.intact.packed,
    fun other => (hsame other).trans (h.same other)⟩
  intro other bytes hop
  change (disk.ops.erase opId).lookup other = some bytes at hop
  rw [Table.lookup_erase] at hop
  split at hop
  · cases hop
  · exact hop

end

end Steps

section Sections
variable {blake3 : Bytes → ContentHash} {msgpack : TimelineMsgpack} {track : Prop} {start : TimelineDisk}

theorem rearrange_step {P Q : TimelineDisk → Prop}
    (h : ∀ disk, Rearranged blake3 msgpack track start disk → P disk →
      Rearranged blake3 msgpack track start (f disk) ∧ Q (f disk)) :
    Script.Runs (Rearranged blake3 msgpack track start)
      (fun disk => Rearranged blake3 msgpack track start disk ∧ P disk) (Script.step f)
      (fun disk => Rearranged blake3 msgpack track start disk ∧ Q disk) :=
  Script.Runs.step (fun _ hdisk => hdisk.1) (fun disk hdisk => (h disk hdisk.1 hdisk.2).1)
    fun disk hdisk => h disk hdisk.1 hdisk.2

/-- Afterwards the pack is there only if it was a pair. -/
theorem removeUnpairedPack_runs (name : String) (pair : Prop) :
    Script.Runs (Rearranged blake3 msgpack track start)
      (fun disk => Rearranged blake3 msgpack track start disk ∧
        (disk.hasPack name ∧ name ∈ disk.packIndexes → pair))
      (removeUnpairedPack name)
      (fun disk => Rearranged blake3 msgpack track start disk ∧
        (¬pair → disk.packs.lookup name = none)) := by
  apply Script.Runs.choose
  rintro disk ⟨hdisk, hpair⟩
  split
  case isTrue hunpaired =>
    have herased : Rearranged blake3 msgpack track start
        { disk with packs := disk.packs.erase name } := by
      apply hdisk.erasePack
      intro opId hop
      rcases canonical_iff.1 hop with hop | ⟨other, operations, hpack, hindex, hin⟩
      · exact .inl hop
      · have hother : other ≠ name := by
          rintro rfl
          exact hunpaired.2 hindex
        have hpack' : (disk.packs.erase name).lookup other = some operations := by
          rw [Table.lookup_erase_ne hother]
          exact hpack
        exact canonical_iff.2 (.inr ⟨other, operations, hpack', hindex, hin⟩)
    have hgone : (disk.packs.erase name).lookup name = none := Table.lookup_erase_self ..
    apply Script.Runs.step
    · rintro _ rfl
      exact hdisk
    · rintro _ rfl
      exact herased
    · rintro _ rfl
      exact ⟨herased, fun _ => hgone⟩
  case isFalse hkeep =>
    apply Script.Runs.skip
    · rintro _ rfl
      exact hdisk
    · rintro _ rfl
      refine ⟨hdisk, fun hnot => Option.not_isSome_iff_eq_none.1 fun hpack => ?_⟩
      exact hkeep ⟨hpack, fun hindex => hnot (hpair ⟨hpack, hindex⟩)⟩

theorem removePack_runs (name : String) :
    Script.Runs (Rearranged blake3 msgpack track start)
      (Rearranged blake3 msgpack track start) (removeUnpairedPack name)
      (Rearranged blake3 msgpack track start) :=
  (removeUnpairedPack_runs name True).weaken (fun _ h => ⟨h, fun _ => trivial⟩) fun _ h => h.1

theorem publishPackIndex_runs {P : TimelineDisk → Prop} (installId name : String)
    (hP : ∀ disk, P disk → P ((publishPackIndex installId name).final disk)) :
    Script.Runs (Rearranged blake3 msgpack track start)
      (fun disk => Rearranged blake3 msgpack track start disk ∧ P disk)
      (publishPackIndex installId name)
      (fun disk => Rearranged blake3 msgpack track start disk ∧ P disk ∧
        name ∈ disk.packIndexes) := by
  apply rearrange_step
  intro disk hdisk hp
  have hindexes : Rearranged blake3 msgpack track start
      { disk with packIndexes := name :: disk.packIndexes.filter (· ≠ name) } := by
    apply hdisk.setIndexes
    intro other hindex _
    by_cases hother : other = name
    · rw [hother]
      exact .head _
    · exact .tail _ (mem_filter.2 ⟨hindex, decide_eq_true hother⟩)
  exact ⟨hindexes.setInstalls _, hP disk hp, .head _⟩

theorem removeIntent_runs {P : TimelineDisk → Prop} (installId : String)
    (hP : ∀ disk, P disk → P ((removeIntent installId).final disk)) :
    Script.Runs (Rearranged blake3 msgpack track start)
      (fun disk => Rearranged blake3 msgpack track start disk ∧ P disk)
      (removeIntent installId)
      (fun disk => Rearranged blake3 msgpack track start disk ∧ P disk) :=
  rearrange_step fun disk hdisk hp => ⟨hdisk.setInstalls _, hP disk hp⟩

theorem recoverOneIntent_runs (expired : PackInstall → Bool) (install : PackInstall) :
    Script.Runs (Rearranged blake3 msgpack track start)
      (Rearranged blake3 msgpack track start) (recoverOneIntent expired install)
      (Rearranged blake3 msgpack track start) := by
  have hremove : Script.Runs (Rearranged blake3 msgpack track start)
      (Rearranged blake3 msgpack track start) (removeIntent install.installId)
      (Rearranged blake3 msgpack track start) :=
    Script.Runs.step (fun _ h => h) (fun _ h => h.setInstalls _) fun _ h => h.setInstalls _
  have hunstage : Script.Runs (Rearranged blake3 msgpack track start)
      (Rearranged blake3 msgpack track start) (removeStaging install.installId)
      (Rearranged blake3 msgpack track start) :=
    Script.Runs.step (fun _ h => h) (fun _ h => h.setInstalls _) fun _ h => h.setInstalls _
  have hpublish := (@publishPackIndex_runs blake3 msgpack track start (fun _ => True)
    install.installId install.packName fun _ _ => trivial).weaken (fun _ h => ⟨h, trivial⟩)
      fun _ h => h.1
  have hskip : Script.Runs (Rearranged blake3 msgpack track start)
      (Rearranged blake3 msgpack track start) Script.skip
      (Rearranged blake3 msgpack track start) := Script.Runs.skip (fun _ h => h) fun _ h => h
  apply Script.Runs.choose
  intro disk hdisk
  have hthis : ∀ found, found = disk → Rearranged blake3 msgpack track start found := by
    rintro _ rfl
    exact hdisk
  split
  · exact (hunstage.andThen hremove).weaken hthis fun _ h => h
  · split
    · exact (hpublish.andThen hremove).weaken hthis fun _ h => h
    · split
      · exact ((removePack_runs install.packName).andThen (hunstage.andThen hremove)).weaken hthis
          fun _ h => h
      · exact hskip.weaken hthis fun _ h => h

theorem recoverPackInstallIntents_runs (expired : PackInstall → Bool) :
    Script.Runs (Rearranged blake3 msgpack track start)
      (Rearranged blake3 msgpack track start) (recoverPackInstallIntents expired)
      (Rearranged blake3 msgpack track start) := by
  apply Script.Runs.choose
  intro disk hdisk
  apply (Script.Runs.each (fun _ h => h)
    fun install _ => recoverOneIntent_runs expired install).weaken _ fun _ h => h
  rintro _ rfl
  exact hdisk

theorem pruneUnpairedPacks_runs :
    Script.Runs (Rearranged blake3 msgpack track start)
      (Rearranged blake3 msgpack track start) pruneUnpairedPacks
      (Rearranged blake3 msgpack track start) := by
  apply Script.Runs.choose
  intro disk hdisk
  apply (Script.Runs.each (fun _ h => h) fun name _ => removePack_runs name).weaken _ fun _ h => h
  rintro _ rfl
  exact hdisk

theorem pruneLooseOperations_runs :
    Script.Runs (Rearranged blake3 msgpack track start)
      (Rearranged blake3 msgpack track start) (pruneLooseOperations blake3)
      (Rearranged blake3 msgpack track start) := by
  have hone : ∀ op, Script.Runs (Rearranged blake3 msgpack track start)
      (Rearranged blake3 msgpack track start) (pruneLooseOperation blake3 op)
      (Rearranged blake3 msgpack track start) := by
    intro op
    apply Script.Runs.choose
    intro disk hdisk
    split
    case isTrue hcopy =>
      have hpacked := hdisk.eraseOperation ⟨_, packed_of_readPacked hcopy, rfl⟩
      apply Script.Runs.step
      · rintro _ rfl
        exact hdisk
      · rintro _ rfl
        exact hpacked
      · rintro _ rfl
        exact hpacked
    case isFalse =>
      apply Script.Runs.skip
      · rintro _ rfl
        exact hdisk
      · rintro _ rfl
        exact hdisk
  apply Script.Runs.choose
  intro disk hdisk
  apply (Script.Runs.each (fun _ h => h) fun op _ => hone op).weaken _ fun _ h => h
  rintro _ rfl
  exact hdisk

def Installed (name : String) (operations : List (TimelineOperationId × Bytes)) (disk : TimelineDisk) :
    Prop :=
  disk.packs.lookup name = some operations ∧ name ∈ disk.packIndexes

theorem installPack_runs
    (hops : ∀ op ∈ operations, Valid blake3 msgpack op.1 op.2 ∧ Canonical start op.1)
    (installId name : String) :
    Script.Runs (Rearranged blake3 msgpack track start)
      (fun disk => Rearranged blake3 msgpack track start disk ∧
        ∀ found ∈ disk.packs.lookup name, found = operations)
      (installPackBytesJournaled installId name operations)
      (fun disk => Rearranged blake3 msgpack track start disk ∧
        Installed name operations disk) := by
  apply Script.Runs.choose
  rintro disk ⟨hdisk, hsame⟩
  split
  case isTrue hpaired =>
    obtain ⟨found, hfound⟩ := Option.isSome_iff_exists.1 hpaired.1
    obtain rfl := hsame found hfound
    apply Script.Runs.skip
    · rintro _ rfl
      exact hdisk
    · rintro _ rfl
      exact ⟨hdisk, hfound, hpaired.2⟩
  case isFalse hunpaired =>
    have hremove := @removeUnpairedPack_runs blake3 msgpack track start
      name False
    have hintent : Script.Runs (Rearranged blake3 msgpack track start)
        (fun disk => Rearranged blake3 msgpack track start disk ∧
          (¬False → disk.packs.lookup name = none))
        (writeIntent installId name)
        (fun disk => Rearranged blake3 msgpack track start disk ∧
          disk.packs.lookup name = none) :=
      rearrange_step fun _ h habsent => ⟨h.setInstalls _, habsent id⟩
    have hpublish : Script.Runs (Rearranged blake3 msgpack track start)
        (fun disk => Rearranged blake3 msgpack track start disk ∧
          disk.packs.lookup name = none)
        (publishPack name operations)
        (fun disk => Rearranged blake3 msgpack track start disk ∧
          disk.packs.lookup name = some operations) :=
      rearrange_step fun _ h habsent =>
        ⟨h.insertPack habsent hops, Table.lookup_insert_self ..⟩
    have hindex := @publishPackIndex_runs blake3 msgpack track start
      (fun disk => disk.packs.lookup name = some operations)
      installId name fun _ hlookup => hlookup
    have hdone := @removeIntent_runs blake3 msgpack track start
      (Installed name operations) installId fun _ h => h
    apply (((hremove.andThen hintent).andThen hpublish).andThen (hindex.andThen hdone)).weaken
    · rintro _ rfl
      exact ⟨hdisk, hunpaired⟩
    · exact fun _ h => h

theorem retirePack_runs (hall : ∀ opId, Canonical start opId → opId ∈ operations.map Prod.fst)
    (hne : old ≠ name) :
    Script.Runs (Rearranged blake3 msgpack track start)
      (fun disk => Rearranged blake3 msgpack track start disk ∧
        Installed name operations disk)
      (retirePack old)
      (fun disk => Rearranged blake3 msgpack track start disk ∧
        Installed name operations disk) := by
  have hremove : Script.Runs (Rearranged blake3 msgpack track start)
      (fun disk => Rearranged blake3 msgpack track start disk ∧
        Installed name operations disk)
      (removePack old)
      (fun disk => Rearranged blake3 msgpack track start disk ∧
        Installed name operations disk ∧ disk.packs.lookup old = none) := by
    apply rearrange_step
    intro disk hdisk hinstalled
    have hpack : (disk.packs.erase old).lookup name = some operations := by
      rw [Table.lookup_erase_ne hne.symm]
      exact hinstalled.1
    refine ⟨hdisk.erasePack fun opId hop => ?_, ⟨hpack, hinstalled.2⟩, Table.lookup_erase_self ..⟩
    exact canonical_iff.2 (.inr ⟨name, operations, hpack, hinstalled.2,
      hall opId ((hdisk.same opId).1 hop)⟩)
  have hindex : Script.Runs (Rearranged blake3 msgpack track start)
      (fun disk => Rearranged blake3 msgpack track start disk ∧
        Installed name operations disk ∧ disk.packs.lookup old = none)
      (removePackIndex old)
      (fun disk => Rearranged blake3 msgpack track start disk ∧
        Installed name operations disk) := by
    apply rearrange_step
    intro disk hdisk h
    obtain ⟨hinstalled, hgone⟩ := h
    constructor
    · apply hdisk.setIndexes
      intro other hother hpack
      refine mem_filter.2 ⟨hother, decide_eq_true ?_⟩
      rintro rfl
      exact hpack hgone
    · exact ⟨hinstalled.1, mem_filter.2 ⟨hinstalled.2, decide_eq_true hne.symm⟩⟩
  exact hremove.andThen hindex

theorem mem_of_mapM {xs : List α} {ys : List β} (h : xs.mapM f = some ys) :
    (∀ x ∈ xs, ∃ y ∈ ys, f x = some y) ∧ ∀ y ∈ ys, ∃ x ∈ xs, f x = some y := by
  induction xs generalizing ys with
  | nil =>
    obtain rfl := Option.some.inj h
    exact ⟨fun _ hmem => absurd hmem not_mem_nil, fun _ hmem => absurd hmem not_mem_nil⟩
  | cons x xs ih =>
    rw [mapM_cons] at h
    obtain ⟨y, hy, h⟩ := Option.bind_eq_some_iff.1 h
    obtain ⟨rest, hrest, h⟩ := Option.bind_eq_some_iff.1 h
    obtain rfl := Option.some.inj h
    obtain ⟨hforth, hback⟩ := ih hrest
    constructor
    · intro a ha
      rcases mem_cons.1 ha with rfl | ha
      · exact ⟨y, .head _, hy⟩
      · obtain ⟨b, hb, hab⟩ := hforth a ha
        exact ⟨b, .tail _ hb, hab⟩
    · intro b hb
      rcases mem_cons.1 hb with rfl | hb
      · exact ⟨x, .head _, hy⟩
      · obtain ⟨a, ha, hab⟩ := hback b hb
        exact ⟨a, .tail _ ha, hab⟩

theorem canonicalOperations_spec (h : Intact blake3 msgpack disk)
    (hops : canonicalOperations blake3 msgpack disk = some operations) :
    (∀ op ∈ operations, Valid blake3 msgpack op.1 op.2 ∧ Canonical disk op.1) ∧
      ∀ opId, Canonical disk opId → opId ∈ operations.map Prod.fst := by
  unfold canonicalOperations at hops
  split at hops
  case isTrue => cases hops
  case isFalse =>
    obtain ⟨packed, hpacked, hops⟩ := Option.bind_eq_some_iff.1 hops
    split at hops
    case isTrue => cases hops
    case isFalse =>
      obtain rfl := Option.some.inj hops
      obtain ⟨hforth, hback⟩ := mem_of_mapM hpacked
      constructor
      · intro op hop
        rcases mem_append.1 (mem_sortBy.1 hop) with hop | hop
        · have hlookup := Table.lookup_eq_some.2 hop
          exact ⟨h.loose op.1 op.2 hlookup, .inl (Option.isSome_iff_exists.2 ⟨op.2, hlookup⟩)⟩
        · obtain ⟨opId, _, hread⟩ := hback op (mem_of_mem_filter hop)
          obtain ⟨bytes, hbytes, rfl⟩ := Option.map_eq_some_iff.1 hread
          have hmem := packed_of_readPacked hbytes
          exact ⟨h.packed_valid hmem, .inr ⟨_, hmem, rfl⟩⟩
      · intro opId hop
        rw [mem_map]
        cases hlookup : disk.ops.lookup opId with
        | some bytes =>
          exact ⟨(opId, bytes), mem_sortBy.2 (mem_append_left _
            (Table.lookup_eq_some.1 hlookup)), rfl⟩
        | none =>
          obtain ⟨op, hmem, hid⟩ := hop.resolve_left (by
            rw [hlookup]
            exact Bool.false_ne_true)
          obtain ⟨found, hfound, hread⟩ := hforth opId
            (mem_dedup.2 (mem_map.2 ⟨op, hmem, hid⟩))
          obtain ⟨bytes, _, rfl⟩ := Option.map_eq_some_iff.1 hread
          refine ⟨(opId, bytes), mem_sortBy.2 (mem_append_right _
            (mem_filter.2 ⟨hfound, ?_⟩)), rfl⟩
          rw [hlookup]
          rfl

theorem packOperations_runs (aggressive : Bool) (installId : String) :
    Script.Runs (Rearranged blake3 msgpack track start)
      (fun disk => Rearranged blake3 msgpack track start disk ∧
        NamesApart blake3 msgpack packName aggressive disk)
      (packOperations blake3 msgpack packName aggressive installId)
      (Rearranged blake3 msgpack track start) := by
  apply Script.Runs.choose
  rintro disk ⟨hdisk, hnames⟩
  have hskip : Script.Runs (Rearranged blake3 msgpack track start)
      (fun found => found = disk) Script.skip (Rearranged blake3 msgpack track start) := by
    apply Script.Runs.skip
    · rintro _ rfl
      exact hdisk
    · rintro _ rfl
      exact hdisk
  cases hoperations : canonicalOperations blake3 msgpack disk with
  | none => exact hskip
  | some operations =>
    obtain ⟨hops, hall⟩ := canonicalOperations_spec hdisk.kept.intact hoperations
    simp only
    split
    case isTrue => exact hskip
    case isFalse =>
      have hinstall := @installPack_runs blake3 msgpack track start operations
        (fun op hop => ⟨(hops op hop).1, (hdisk.same op.1).1 (hops op hop).2⟩) installId
        (packName aggressive operations)
      have hretire : Script.Runs (Rearranged blake3 msgpack track start)
          (fun found => Rearranged blake3 msgpack track start found ∧
            Installed (packName aggressive operations) operations found)
          (retireOldPacks blake3 disk.pairedPacks (packName aggressive operations) operations)
          (Rearranged blake3 msgpack track start) := by
        apply Script.Runs.choose
        intro found hfound
        have hthis : ∀ same, same = found → Rearranged blake3 msgpack track start same ∧
            Installed (packName aggressive operations) operations same := by
          rintro _ rfl
          exact hfound
        split
        case isTrue =>
          apply (Script.Runs.each (fun _ h => h.1) fun old hold => ?_).weaken hthis fun _ h => h.1
          apply retirePack_runs
          · exact fun opId hop => hall opId ((hdisk.same opId).2 hop)
          · exact of_decide_eq_true (mem_filter.1 hold).2
        case isFalse => exact Script.Runs.skip (fun same h => (hthis same h).1) fun same h =>
          (hthis same h).1
      apply (hinstall.andThen hretire).weaken
      · rintro _ rfl
        exact ⟨hdisk, hnames operations hoperations⟩
      · exact fun _ h => h

end Sections

end Heddle.Timeline
