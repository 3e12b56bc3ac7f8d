import Heddle.SourceTarget.Read
import Mathlib.Data.List.Infix

namespace Heddle.SourceTarget
open Heddle.Lib Heddle.PartialTree List

abbrev Change := ContentHash × Option ContentHash

def Bindings.putAll (m : Bindings) (changes : List Change) : Bindings :=
  changes.foldl (fun m change => m.put change.1 change.2) m

structure Version where
  root : Option ContentHash
  bindings : Bindings

section Batch
variable {blake3 : Bytes → ContentHash} {store : MapStore S E}
  {contents : S → ContentHash → Option Bytes} {W : Set Bytes} {also : MapError E → Prop}

/-- The nodes of every map that a batch goes through are encoded in `W`. -/
def BatchWithin (blake3 : Bytes → ContentHash) (W : Set Bytes) (m : Bindings) (changes : List Change) :
    Prop :=
  ∀ done, done <+: changes → Within blake3 W levels 0 (m.putAll done)

/-- A batch makes a map that a count of 64 bits does not hold. -/
def Overflows (m : Bindings) (changes : List Change) : Prop :=
  ∃ done, done <+: changes ∧ 2 ^ 64 ≤ (m.putAll done).entries.length

def batchCost (changes : List Change) : Nat × Nat := (changes.map fun _ => updateCost levels).sum

theorem updateAll_ends (hlawful : store.Lawful contents) (hinj : Set.InjOn (blobHash blake3) W)
    (hkept : Kept blake3 contents w.store m) (hsound : Sound blake3 contents W w.store)
    (hwithin : BatchWithin blake3 W m changes) (halso : Overflows m changes → also overflow) :
    Ends (accounting blake3 contents W also) (batchCost changes)
      (SourceTargetMap.updateAll blake3 store (canonRoot blake3 m) changes) w
      fun root w' => root = canonRoot blake3 (m.putAll changes) ∧
        Kept blake3 contents w'.store (m.putAll changes) := by
  refine (Ends.foldlM (I := fun done root w' => Sound blake3 contents W w'.store ∧
    root = canonRoot blake3 (m.putAll done) ∧ Kept blake3 contents w'.store (m.putAll done))
    ⟨hsound, rfl, hkept⟩ ?_).mono le_rfl ?_
  · intro done change rest hsplit root t ⟨hsound', hroot, hkept'⟩
    have hprefix : done ++ [change] <+: changes := by
      rw [hsplit]
      exact ⟨rest, by rw [append_assoc, singleton_append]⟩
    have hput : (m.putAll done).put change.1 change.2 = m.putAll (done ++ [change]) := by
      rw [Bindings.putAll, Bindings.putAll, foldl_append]
      rfl
    have hwithin' := hwithin _ hprefix
    rw [← hput] at hwithin'
    rw [hroot]
    refine (update_ends hlawful hinj hkept' hsound' hwithin' ?_).mono le_rfl ?_
    · intro hge
      exact halso ⟨_, hprefix, hput ▸ hge⟩
    rw [hput]
    intro root' t' hkeeps ⟨hroot', hkept''⟩
    exact ⟨(hkeeps.1 hsound').1, hroot', hkept''⟩
  · intro root w' _ ⟨_, hroot, hkept'⟩
    exact ⟨hroot, hkept'⟩

section Outcome
variable {m : Bindings} {changes : List Change} {w w' : Work S}
  (hlawful : store.Lawful contents) (hinj : Set.InjOn (blobHash blake3) W)
  (hkept : Kept blake3 contents w.store m) (hsound : Sound blake3 contents W w.store)
  (hwithin : BatchWithin blake3 W m changes)
include hlawful hinj hkept hsound hwithin

theorem updateAll_ok (hrun : (SourceTargetMap.updateAll blake3 store (canonRoot blake3 m) changes).run w =
      (.ok root, w')) : Sound blake3 contents W w'.store ∧ Grows contents w.store w'.store ∧
    root = canonRoot blake3 (m.putAll changes) ∧ Kept blake3 contents w'.store (m.putAll changes) := by
  have hends : Ends (accounting blake3 contents W fun _ => True) _ _ w _ :=
    updateAll_ends hlawful hinj hkept hsound hwithin fun _ => trivial
  obtain ⟨hkeeps, hroot⟩ := hends.of_ok hrun
  obtain ⟨hsound', hgrow⟩ := hkeeps.1 hsound
  exact ⟨hsound', hgrow, hroot⟩

theorem updateAll_error (hrun : (SourceTargetMap.updateAll blake3 store (canonRoot blake3 m) changes).run w =
      (.error e, w')) : Sound blake3 contents W w'.store ∧ Grows contents w.store w'.store := by
  have hends : Ends (accounting blake3 contents W fun _ => True) _ _ w _ :=
    updateAll_ends hlawful hinj hkept hsound hwithin fun _ => trivial
  exact (hends.of_error hrun).1.1 hsound

end Outcome

end Batch

section Run
variable (blake3 : Bytes → ContentHash) (store : MapStore S E)
  (contents : S → ContentHash → Option Bytes) (W : Set Bytes)

/-- Batches of updates from the empty map on, each on any root returned before it; one that fails
returns none. Between them the store may be used otherwise, as long as it goes on holding what it
holds. -/
inductive Run (start : S) : S → List Version → Prop where
  | start : Run start start [⟨none, SortedMap.empty⟩]
  | batch : Run start s versions → version ∈ versions →
    BatchWithin blake3 W version.bindings changes →
    (SourceTargetMap.updateAll blake3 store version.root changes).run ⟨s, budget⟩ = (.ok root, w) →
    Run start w.store (versions ++ [⟨root, version.bindings.putAll changes⟩])
  | failed : Run start s versions → version ∈ versions →
    BatchWithin blake3 W version.bindings changes →
    (SourceTargetMap.updateAll blake3 store version.root changes).run ⟨s, budget⟩ = (.error e, w) →
    Run start w.store versions
  | other : Run start s versions →
    (Sound blake3 contents W s → Sound blake3 contents W s' ∧ Grows contents s s') →
    Run start s' versions

/-- A root answers for its map. Each call returns what the map says, or an error of the store or of a
budget smaller than the cost of the call. -/
structure Serves (s : S) (version : Version) : Prop where
  root_canonical : version.root = canonRoot blake3 version.bindings
  root_none : version.root = none ↔ ∀ key, version.bindings.get key = none
  get : ∀ key budget, Ends (accounting blake3 contents W fun _ => False) (1 + levels, 0)
    (SourceTargetMap.get blake3 store version.root key) ⟨s, budget⟩
    fun value _ => value = version.bindings.get key
  entries : ∀ limit budget, Ends (accounting blake3 contents W fun e =>
      e = .readBudget ∧ limit < version.bindings.entries.length)
    (walkCost version.bindings.entries.length)
    (SourceTargetMap.entries blake3 store version.root limit) ⟨s, budget⟩
    fun result _ => result = version.bindings.entries
  visitEntries : ∀ (V : Type) visitor (P : List Binding → V → Prop) start budget,
    @Visits S E blake3 V contents W visitor P → P [] start →
    Ends (accounting blake3 contents W fun _ => False) (walkCost version.bindings.entries.length)
      (SourceTargetMap.visitEntries blake3 store version.root visitor start) ⟨s, budget⟩
      fun v _ => ∃ order, order.Perm version.bindings.entries ∧ P order v
  updateAll : ∀ changes budget, BatchWithin blake3 W version.bindings changes →
    Ends (accounting blake3 contents W fun e => e = overflow ∧ Overflows version.bindings changes)
      (batchCost changes) (SourceTargetMap.updateAll blake3 store version.root changes) ⟨s, budget⟩
      fun root _ => root = canonRoot blake3 (version.bindings.putAll changes) ∧
        ((∀ key, (version.bindings.putAll changes).get key = version.bindings.get key) →
          root = version.root)

variable {blake3 store contents W}

theorem run_kept (hlawful : store.Lawful contents) (hinj : Set.InjOn (blobHash blake3) W)
    (hsound : Sound blake3 contents W start) (hrun : Run blake3 store contents W start s versions) :
    Sound blake3 contents W s ∧ ∀ version ∈ versions,
      version.root = canonRoot blake3 version.bindings ∧ Kept blake3 contents s version.bindings := by
  induction hrun with
  | start =>
    refine ⟨hsound, ?_⟩
    intro version hversion
    rw [mem_singleton.1 hversion]
    exact ⟨rfl, stored_of_nil rfl, by decide⟩
  | @batch s versions version changes budget root w _ hversion hwithin hupdate ih =>
    obtain ⟨hsound', hkept⟩ := ih
    obtain ⟨hroot, hversionKept⟩ := hkept version hversion
    rw [hroot] at hupdate
    obtain ⟨hsound'', hgrow, hroot', hkept'⟩ :=
      updateAll_ok hlawful hinj hversionKept hsound' hwithin hupdate
    refine ⟨hsound'', ?_⟩
    intro other hother
    rcases mem_append.1 hother with hother | hother
    · exact ⟨(hkept other hother).1, (hkept other hother).2.grows hgrow⟩
    · rw [mem_singleton.1 hother]
      exact ⟨hroot', hkept'⟩
  | @failed s versions version changes budget e w _ hversion hwithin hupdate ih =>
    obtain ⟨hsound', hkept⟩ := ih
    obtain ⟨hroot, hversionKept⟩ := hkept version hversion
    rw [hroot] at hupdate
    obtain ⟨hsound'', hgrow⟩ := updateAll_error hlawful hinj hversionKept hsound' hwithin hupdate
    exact ⟨hsound'', fun other hother =>
      ⟨(hkept other hother).1, (hkept other hother).2.grows hgrow⟩⟩
  | other _ hstep ih =>
    obtain ⟨hsound', hkept⟩ := ih
    obtain ⟨hsound'', hgrow⟩ := hstep hsound'
    exact ⟨hsound'', fun version hversion =>
      ⟨(hkept version hversion).1, (hkept version hversion).2.grows hgrow⟩⟩

theorem canonRoot_eq_none_iff :
    canonRoot blake3 m = none ↔ ∀ key, m.get key = none := by
  rw [canonRoot, Option.map_eq_none_iff, canonLink_eq_none]
  constructor
  · intro hnil key
    rw [SortedMap.get, hnil]
    rfl
  · intro h
    have hempty : m = SortedMap.empty := SortedMap.ext_get fun key => (h key).trans rfl
    rw [hempty]
    rfl

/-- In every state of every run, every root that was returned answers for its map; budgets that cover
a call leave only the store to fail; and a decoded node re-encodes to the bytes it came from. -/
theorem sourceTargetMap_refines (hlawful : store.Lawful contents)
    (hinj : Set.InjOn (blobHash blake3) W) (hsound : Sound blake3 contents W start)
    (hrun : Run blake3 store contents W start s versions) :
    (∀ version ∈ versions, Serves blake3 store contents W s version) ∧
      (∀ (also : MapError E → Prop) cost budget e, budget.Covers cost → Excused also cost budget e →
        also e ∨ ∃ failure, e = .storage failure) ∧
      ∀ bytes route node, decode bytes route = .ok node → node.encode = bytes := by
  obtain ⟨hsound', hkept⟩ := run_kept hlawful hinj hsound hrun
  refine ⟨?_, fun also cost budget e hcovers h => h.of_covers hcovers,
    fun bytes route node h => (decode_ok_iff.1 h).1.symm⟩
  intro version hversion
  obtain ⟨hroot, hversionKept⟩ := hkept version hversion
  refine ⟨hroot, ?_, ?_, ?_, ?_, ?_⟩
  · rw [hroot]
    exact canonRoot_eq_none_iff
  · intro key budget
    rw [hroot]
    exact get_ends hlawful hversionKept hsound'
  · intro limit budget
    rw [hroot]
    exact entries_ends hlawful hversionKept hsound' fun hlt => ⟨rfl, hlt⟩
  · intro V visitor P first budget hvisits hfirst
    rw [hroot]
    exact visitEntries_ends hlawful hvisits hfirst hversionKept hsound'
  · intro changes budget hwithin
    rw [hroot]
    refine (updateAll_ends hlawful hinj hversionKept hsound' hwithin fun h => ⟨rfl, h⟩).mono le_rfl ?_
    intro root w' _ ⟨hroot', _⟩
    refine ⟨hroot', ?_⟩
    intro hsame
    rw [hroot', SortedMap.ext_get hsame]

end Run

section Witness

def memoryStore : MapStore (ContentHash → Option Bytes) Empty where
  read address _ s := (.ok (s address), s)
  write address bytes s := (.ok (), Function.update s address (some bytes))

theorem memoryStore_lawful : memoryStore.Lawful id where
  read_keeps := rfl
  read_ok := fun h => (Except.ok.inj h).symm
  write_other := fun h => Function.update_of_ne h _ _
  write_here := .inr (Function.update_self _ _ _)
  write_ok := fun _ _ => Function.update_self _ _ _

def slotKey (slot : Nat) : ContentHash := ⟨(Vector.replicate 32 0).setIfInBounds 0 (.ofNat (8 * slot))⟩

/-- One binding more than a leaf holds, each in a slot of its own. -/
def splitChanges : List Change := (List.range 9).map fun slot => (slotKey slot, some zeroHash)

def mergeChanges : List Change := [(slotKey 0, none)]

def splitNodes : List Bytes :=
  (splitChanges ++ mergeChanges).inits.map (fun changes =>
    (canonNode polyHash levels 0 (Bindings.putAll SortedMap.empty changes)).encode) ++
  (Bindings.putAll SortedMap.empty splitChanges).entries.map fun entry => (Node.leaf [entry]).encode

theorem length_putAll_le (m : Bindings) (changes : List Change) :
    (m.putAll changes).entries.length ≤ m.entries.length + changes.length := by
  induction changes generalizing m with
  | nil => exact le_rfl
  | cons change changes ih =>
    have hput := m.length_put_le change.1 change.2
    have hrest := ih (m.put change.1 change.2)
    rw [length_cons]
    exact hrest.trans (by omega)

/-- In a store that never fails a run goes on with every batch. -/
theorem memoryRun_batch (hinj : Set.InjOn (blobHash blake3) W) (hsound : Sound blake3 id W start)
    (hrun : Run blake3 memoryStore id W start s versions) (hversion : version ∈ versions)
    (hwithin : BatchWithin blake3 W version.bindings changes)
    (hfew : version.bindings.entries.length + changes.length < 2 ^ 64) :
    ∃ s' root, Run blake3 memoryStore id W start s'
      (versions ++ [⟨root, version.bindings.putAll changes⟩]) := by
  obtain ⟨hsound', hkept⟩ := run_kept memoryStore_lawful hinj hsound hrun
  obtain ⟨hroot, hversionKept⟩ := hkept version hversion
  let cost := batchCost changes
  let w : Work (ContentHash → Option Bytes) :=
    ⟨s, ⟨cost.1, cost.1 * maxNodeBytes, cost.2, cost.2 * maxNodeBytes⟩⟩
  have hcovers : w.budget.Covers cost := ⟨le_rfl, le_rfl, le_rfl, le_rfl⟩
  have hends : Ends (accounting blake3 id W fun _ => Overflows version.bindings changes) cost
      (SourceTargetMap.updateAll blake3 memoryStore version.root changes) w fun _ _ => True := by
    rw [hroot]
    exact (updateAll_ends memoryStore_lawful hinj hversionKept hsound' hwithin id).mono le_rfl
      fun _ _ _ _ => trivial
  rcases hresult : (SourceTargetMap.updateAll blake3 memoryStore version.root changes).run w with
    ⟨error | root, w'⟩
  · have hexcused : Excused (fun _ => Overflows version.bindings changes) cost w.budget error :=
      (hends.of_error hresult).2
    obtain ⟨done, hdone, hlarge⟩ | ⟨failure, _⟩ := hexcused.of_covers hcovers
    · have hlen := length_putAll_le version.bindings done
      have hshort := hdone.length_le
      omega
    · exact failure.elim
  · exact ⟨w'.store, root, hrun.batch hversion hwithin hresult⟩

theorem splitNodes_apart : Set.InjOn (blobHash polyHash) {bytes | bytes ∈ splitNodes} := by
  have hapart : splitNodes.Pairwise fun bytes bytes' =>
      blobHash polyHash bytes = blobHash polyHash bytes' → bytes = bytes' := by decide +kernel
  have hsymm : Std.Symm fun bytes bytes' : Bytes =>
      blobHash polyHash bytes = blobHash polyHash bytes' → bytes = bytes' :=
    ⟨fun _ _ h heq => (h heq.symm).symm⟩
  exact fun _ hbytes _ hbytes' => hapart.forall_of_forall (fun _ _ _ => rfl) hbytes hbytes'

theorem within_single {W : Set Bytes} (hone : m.entries.length ≤ 1)
    (h : ∀ entry ∈ m.entries, (Node.leaf [entry]).encode ∈ W) : Within polyHash W below depth m := by
  have hnode : ∀ {below depth} {m : Bindings}, m.entries.length ≤ 1 →
      (∀ entry ∈ m.entries, (Node.leaf [entry]).encode ∈ W) → m.entries ≠ [] →
        (canonNode polyHash below depth m).encode ∈ W := by
    intro below depth m hone h hne
    obtain ⟨entry, hentry⟩ := length_eq_one_iff.1 (hone.antisymm (length_pos_iff.2 hne))
    rw [canonNode_small polyHash _ _ (hone.trans (by decide)), hentry]
    exact h entry (hentry ▸ mem_cons_self)
  induction below generalizing depth m with
  | zero => exact hnode hone h
  | succ below ih =>
    refine ⟨hnode hone h, ?_⟩
    intro slot _
    apply ih
    · exact (length_filter_le _ _).trans hone
    · exact fun entry hentry => h entry (mem_of_mem_filter hentry)

def splitBindings : Bindings := Bindings.putAll SortedMap.empty splitChanges

theorem splitBindings_entries :
    (splitChanges ++ mergeChanges).inits.map
        (fun changes => (Bindings.putAll SortedMap.empty changes).entries) =
      ((List.range 10).map fun n => splitBindings.entries.take n) ++ [splitBindings.entries.drop 1] :=
  rfl

theorem splitBindings_under :
    (List.range 32).map (fun slot => (splitBindings.under 0 slot).entries) =
      (List.range 32).map fun slot => (splitBindings.entries.drop slot).take 1 := rfl

theorem within_split (h : changes <+: splitChanges ++ mergeChanges) :
    Within polyHash {bytes | bytes ∈ splitNodes} levels 0 (Bindings.putAll SortedMap.empty changes) := by
  have hmem := (mem_inits _ _).2 h
  have hsublist : (Bindings.putAll SortedMap.empty changes).entries <+ splitBindings.entries := by
    have hin := mem_map_of_mem (f := fun changes => (Bindings.putAll SortedMap.empty changes).entries) hmem
    rw [splitBindings_entries, mem_append, mem_map, mem_singleton] at hin
    obtain ⟨n, _, htake⟩ | hdrop := hin
    · rw [← htake]
      exact take_sublist n _
    · rw [hdrop]
      exact drop_sublist 1 _
  refine ⟨fun _ => mem_append_left _ (mem_map_of_mem hmem), ?_⟩
  intro slot hslot
  have hunder : ((Bindings.putAll SortedMap.empty changes).under 0 slot).entries <+
      (splitBindings.entries.drop slot).take 1 := by
    rw [← map_inj_left.1 splitBindings_under slot (mem_range.2 hslot)]
    exact hsublist.filter _
  apply within_single (hunder.length_le.trans (length_take_le 1 _))
  intro entry hentry
  have hmem := mem_of_mem_drop (mem_of_mem_take (hunder.subset hentry))
  exact mem_append_right _ (mem_map_of_mem hmem)

/-- The ninth binding splits the leaf, and the removal of the first makes it a leaf again. -/
theorem sourceTargetMap_refines_splitLeaf : ∃ s root root',
    Run polyHash memoryStore id {bytes | bytes ∈ splitNodes} (fun _ => none) s
      [⟨none, SortedMap.empty⟩, ⟨root, Bindings.putAll SortedMap.empty splitChanges⟩,
        ⟨root', (Bindings.putAll SortedMap.empty splitChanges).putAll mergeChanges⟩] ∧
    Serves polyHash memoryStore id {bytes | bytes ∈ splitNodes} s
      ⟨root', (Bindings.putAll SortedMap.empty splitChanges).putAll mergeChanges⟩ := by
  have hsplit : BatchWithin polyHash {bytes | bytes ∈ splitNodes} SortedMap.empty splitChanges :=
    fun done hdone => within_split (hdone.trans (prefix_append _ _))
  have hmerge : BatchWithin polyHash {bytes | bytes ∈ splitNodes}
      (Bindings.putAll SortedMap.empty splitChanges) mergeChanges := by
    intro done hdone
    rw [Bindings.putAll, Bindings.putAll, ← foldl_append]
    exact within_split ((prefix_append_right_inj _).2 hdone)
  have hsound : Sound polyHash id {bytes | bytes ∈ splitNodes} (fun _ => none) := nofun
  obtain ⟨s, root, hfirst⟩ :=
    memoryRun_batch splitNodes_apart hsound .start mem_cons_self hsplit (by decide +kernel)
  have hfew := Nat.add_le_add_right (length_putAll_le SortedMap.empty splitChanges) mergeChanges.length
  obtain ⟨s', root', hrun⟩ := memoryRun_batch splitNodes_apart hsound hfirst
    (mem_cons_of_mem _ mem_cons_self) hmerge (hfew.trans_lt (by decide))
  refine ⟨s', root, root', hrun, ?_⟩
  apply (sourceTargetMap_refines memoryStore_lawful splitNodes_apart hsound hrun).1
  exact mem_append_right _ mem_cons_self

end Witness

end Heddle.SourceTarget
