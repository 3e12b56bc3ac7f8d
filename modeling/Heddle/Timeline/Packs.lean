import Heddle.Timeline.Store
import Mathlib.Data.List.Dedup

namespace Heddle.Timeline
open Heddle.Lib

def TimelineDisk.pairedPacks (disk : TimelineDisk) : List String :=
  ((sortBy Prod.fst disk.packs.entries).map Prod.fst).filter (· ∈ disk.packIndexes)

def TimelineDisk.hasPack (disk : TimelineDisk) (packName : String) : Prop :=
  (disk.packs.lookup packName).isSome

instance (disk : TimelineDisk) (packName : String) : Decidable (disk.hasPack packName) :=
  inferInstanceAs (Decidable ((disk.packs.lookup packName).isSome = true))

section Install
open Script

def removePack (packName : String) : Script TimelineDisk :=
  step fun disk => { disk with packs := disk.packs.erase packName }

def removePackIndex (packName : String) : Script TimelineDisk :=
  step fun disk => { disk with packIndexes := disk.packIndexes.filter (· ≠ packName) }

def writeIntent (installId packName : String) : Script TimelineDisk :=
  step fun disk =>
    { disk with packInstalls := disk.packInstalls ++ [⟨installId, packName, true⟩] }

def removeIntent (installId : String) : Script TimelineDisk :=
  step fun disk =>
    { disk with packInstalls := disk.packInstalls.filter fun found => found.installId ≠ installId }

def unstageIndex (installId : String) (installs : List PackInstall) : List PackInstall :=
  installs.map fun found =>
    if found.installId = installId then { found with indexStaged := false } else found

def removeStaging (installId : String) : Script TimelineDisk :=
  step fun disk => { disk with packInstalls := unstageIndex installId disk.packInstalls }

def publishPack (packName : String) (operations : List (TimelineOperationId × Bytes)) :
    Script TimelineDisk :=
  step fun disk => { disk with packs := disk.packs.insert packName operations }

def publishPackIndex (installId packName : String) : Script TimelineDisk :=
  step fun disk =>
    { disk with
      packIndexes := packName :: disk.packIndexes.filter (· ≠ packName)
      packInstalls := unstageIndex installId disk.packInstalls }

/-- A pack without its index goes away. -/
def removeUnpairedPack (packName : String) : Script TimelineDisk := choose fun disk =>
  if disk.hasPack packName ∧ packName ∉ disk.packIndexes then removePack packName else skip

/-- The name of a pack is its hash, so one that is there with its index is the same pack. -/
def installPackBytesJournaled (installId packName : String)
    (operations : List (TimelineOperationId × Bytes)) : Script TimelineDisk := choose fun disk =>
  if disk.hasPack packName ∧ packName ∈ disk.packIndexes then skip
  else (((removeUnpairedPack packName).andThen (writeIntent installId packName)).andThen
    (publishPack packName operations)).andThen
      ((publishPackIndex installId packName).andThen (removeIntent installId))

def abortInstall (install : PackInstall) : Script TimelineDisk :=
  (removeUnpairedPack install.packName).andThen
    ((removeStaging install.installId).andThen (removeIntent install.installId))

/-- Goes on with an install when only its index is missing, and gives it up when it is too old. -/
def recoverOneIntent (expired : PackInstall → Bool) (install : PackInstall) :
    Script TimelineDisk := choose fun disk =>
  if disk.hasPack install.packName ∧ install.packName ∈ disk.packIndexes then
    (removeStaging install.installId).andThen (removeIntent install.installId)
  else if disk.hasPack install.packName ∧ install.indexStaged then
    (publishPackIndex install.installId install.packName).andThen (removeIntent install.installId)
  else if expired install then abortInstall install
  else skip

def recoverPackInstallIntents (expired : PackInstall → Bool) : Script TimelineDisk :=
  choose fun disk => each (recoverOneIntent expired) disk.packInstalls

end Install

section Maintain
open Script
variable (blake3 : Bytes → ContentHash) (msgpack : TimelineMsgpack)

def Valid (opId : TimelineOperationId) (bytes : Bytes) : Prop :=
  TimelineOperationId.forBytes blake3 bytes = opId ∧
    (TimelineOperationEnvelope.decode msgpack bytes).isSome

instance (opId : TimelineOperationId) (bytes : Bytes) : Decidable (Valid blake3 msgpack opId bytes) :=
  inferInstanceAs (Decidable (_ ∧ _))

/-- The packed operations and the loose ones; `none` when a file is corrupt or two differ. -/
def canonicalOperations (disk : TimelineDisk) : Option (List (TimelineOperationId × Bytes)) := do
  if ∃ op ∈ disk.ops.entries, ¬Valid blake3 msgpack op.1 op.2 then none
  let packed ← (disk.packedOperations.map Prod.fst).dedup.mapM fun opId =>
    (disk.readPackedOperation blake3 opId).map fun bytes => (opId, bytes)
  if ∃ op ∈ packed, ∃ loose ∈ disk.ops.lookup op.1, loose ≠ op.2 then none
  some (sortBy Prod.fst
    (disk.ops.entries ++ packed.filter fun op => (disk.ops.lookup op.1).isNone))

/-- The pack file goes first. -/
def retirePack (packName : String) : Script TimelineDisk :=
  (removePack packName).andThen (removePackIndex packName)

/-- What the new pack resolves is checked before the old packs are retired. -/
def retireOldPacks (oldPacks : List String) (packName : String)
    (operations : List (TimelineOperationId × Bytes)) : Script TimelineDisk := choose fun disk =>
  if operations.all fun op => disk.readPackedOperation blake3 op.1 = some op.2 then
    each retirePack (oldPacks.filter (· ≠ packName))
  else skip

/-- The name of the pack that is built from some operations, aggressively or not. -/
abbrev PackNaming := Bool → List (TimelineOperationId × Bytes) → String

def packOperations (packName : PackNaming) (aggressive : Bool) (installId : String) :
    Script TimelineDisk := choose fun disk =>
  match canonicalOperations blake3 msgpack disk with
  | none => skip
  | some operations =>
    if (disk.ops.entries.isEmpty ∧ disk.pairedPacks.length ≤ 1) ∨ operations.isEmpty then skip
    else (installPackBytesJournaled installId (packName aggressive operations) operations).andThen
      (retireOldPacks blake3 disk.pairedPacks (packName aggressive operations) operations)

def pruneLooseOperation (op : TimelineOperationId × Bytes) : Script TimelineDisk :=
  choose fun disk =>
    if disk.readPackedOperation blake3 op.1 = some op.2 then
      step fun disk => { disk with ops := disk.ops.erase op.1 }
    else skip

def pruneLooseOperations : Script TimelineDisk := choose fun disk =>
  each (pruneLooseOperation blake3) (sortBy Prod.fst disk.ops.entries)

def pruneUnpairedPacks : Script TimelineDisk := choose fun disk =>
  each removeUnpairedPack (disk.packs.entries.map Prod.fst)

end Maintain

end Heddle.Timeline
