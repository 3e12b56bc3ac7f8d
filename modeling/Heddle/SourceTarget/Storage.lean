import Mathlib.Algebra.Order.Monoid.Prod
import Heddle.SourceTarget.Canonical
import Mathlib.Algebra.Group.Prod

namespace Heddle.SourceTarget
open Heddle.Lib

/-- What the map relies on of a store: what it holds is what it was given, reads change nothing, and
a write that fails may still have happened. -/
structure MapStore.Lawful (store : MapStore S E) (contents : S → ContentHash → Option Bytes) : Prop where
  read_keeps : contents (store.read address limit s).2 = contents s
  read_ok : (store.read address limit s).1 = .ok found → found = contents s address
  write_other : other ≠ address →
    contents (store.write address bytes s).2 other = contents s other
  write_here : contents (store.write address bytes s).2 address = contents s address ∨
    contents (store.write address bytes s).2 address = some bytes
  write_ok : (store.write address bytes s).1 = .ok () →
    contents s address = none ∨ contents s address = some bytes →
      contents (store.write address bytes s).2 address = some bytes

def overflow {E : Type} : MapError E := .invalidNode "subtree count overflow"

section Storage
variable (blake3 : Bytes → ContentHash) (contents : S → ContentHash → Option Bytes)
  (W : Set Bytes)

def Sound (s : S) : Prop :=
  ∀ hash bytes, contents s hash = some bytes → bytes ∈ W ∧ blobHash blake3 bytes = hash

def Grows (s s' : S) : Prop :=
  ∀ hash bytes, contents s hash = some bytes → contents s' hash = some bytes

/-- The budget is enough for a number of reads and a number of writes of the largest nodes. -/
structure MapBudget.Covers (budget : MapBudget) (cost : Nat × Nat) : Prop where
  nodeReads : cost.1 ≤ budget.nodeReads
  readBytes : cost.1 * maxNodeBytes ≤ budget.readBytes
  nodeWrites : cost.2 ≤ budget.nodeWrites
  writeBytes : cost.2 * maxNodeBytes ≤ budget.writeBytes

/-- At most `cost` is spent. -/
structure MapBudget.Spent (cost : Nat × Nat) (b b' : MapBudget) : Prop where
  nodeReads : b.nodeReads ≤ b'.nodeReads + cost.1
  readBytes : b.readBytes ≤ b'.readBytes + cost.1 * maxNodeBytes
  nodeWrites : b.nodeWrites ≤ b'.nodeWrites + cost.2
  writeBytes : b.writeBytes ≤ b'.writeBytes + cost.2 * maxNodeBytes

/-- The errors that are not the map's fault: the store failed, the budget is smaller than the cost, or
one of those that `also` names. -/
def Excused (also : MapError E → Prop) (cost : Nat × Nat) (budget : MapBudget) (e : MapError E) :
    Prop :=
  also e ∨ match e with
    | .storage _ => True
    | .readBudget => budget.nodeReads < cost.1 ∨ budget.readBytes < cost.1 * maxNodeBytes
    | .writeBudget => budget.nodeWrites < cost.2 ∨ budget.writeBytes < cost.2 * maxNodeBytes
    | _ => False

theorem Excused.of_covers (h : Excused also cost budget e) (hcovers : budget.Covers cost) :
    also e ∨ ∃ failure, e = .storage failure := by
  obtain ⟨hnodeReads, hreadBytes, hnodeWrites, hwriteBytes⟩ := hcovers
  refine h.imp_right ?_
  cases e with
  | storage failure => exact fun _ => ⟨failure, rfl⟩
  | readBudget =>
    intro h
    rcases h with h | h
    · exact absurd hnodeReads (Nat.not_le.2 h)
    · exact absurd hreadBytes (Nat.not_le.2 h)
  | writeBudget =>
    intro h
    rcases h with h | h
    · exact absurd hnodeWrites (Nat.not_le.2 h)
    · exact absurd hwriteBytes (Nat.not_le.2 h)
  | missingNode _ => exact False.elim
  | hashMismatch _ => exact False.elim
  | invalidNode _ => exact False.elim

def accounting (also : MapError E → Prop) : Accounting (Work S) (MapError E) (Nat × Nat) where
  keeps cost w w' := (Sound blake3 contents W w.store →
    Sound blake3 contents W w'.store ∧ Grows contents w.store w'.store) ∧
      w.budget.Spent cost w'.budget
  excused cost w e := Excused also cost w.budget e
  keeps_zero := ⟨fun h => ⟨h, fun _ _ hbytes => hbytes⟩, ⟨le_rfl, Nat.le_add_right _ _, le_rfl,
    Nat.le_add_right _ _⟩⟩
  keeps_add := by
    intro a s t b u hst htu
    refine ⟨?_, ?_⟩
    · intro hs
      obtain ⟨ht, hgrow⟩ := hst.1 hs
      obtain ⟨hu, hgrow'⟩ := htu.1 ht
      exact ⟨hu, fun hash bytes h => hgrow' hash bytes (hgrow hash bytes h)⟩
    · obtain ⟨h1, h2, h3, h4⟩ := hst.2
      obtain ⟨h1', h2', h3', h4'⟩ := htu.2
      refine ⟨?_, ?_, ?_, ?_⟩
      · rw [Prod.fst_add]
        omega
      · rw [Prod.fst_add, Nat.add_mul]
        omega
      · rw [Prod.snd_add]
        omega
      · rw [Prod.snd_add, Nat.add_mul]
        omega
  keeps_mono := by
    intro a b s t hab h
    obtain ⟨h1, h2, h3, h4⟩ := h.2
    have hreads := Nat.mul_le_mul_right maxNodeBytes hab.1
    have hwrites := Nat.mul_le_mul_right maxNodeBytes hab.2
    have hfst := hab.1
    have hsnd := hab.2
    exact ⟨h.1, by omega, by omega, by omega, by omega⟩
  excused_mono := by
    intro a b s e hab h
    refine h.imp_right ?_
    have hreads := Nat.mul_le_mul_right maxNodeBytes hab.1
    have hwrites := Nat.mul_le_mul_right maxNodeBytes hab.2
    have hfst := hab.1
    have hsnd := hab.2
    cases e with
    | readBudget => exact fun h => h.imp (fun h => h.trans_le hfst) fun h => h.trans_le hreads
    | writeBudget => exact fun h => h.imp (fun h => h.trans_le hsnd) fun h => h.trans_le hwrites
    | _ => exact id
  excused_after := by
    intro a s t b e hst h
    obtain ⟨h1, h2, h3, h4⟩ := hst.2
    refine h.imp_right ?_
    cases e with
    | readBudget =>
      change t.budget.nodeReads < b.1 ∨ t.budget.readBytes < b.1 * maxNodeBytes →
        s.budget.nodeReads < (a + b).1 ∨ s.budget.readBytes < (a + b).1 * maxNodeBytes
      rw [Prod.fst_add, Nat.add_mul]
      omega
    | writeBudget =>
      change t.budget.nodeWrites < b.2 ∨ t.budget.writeBytes < b.2 * maxNodeBytes →
        s.budget.nodeWrites < (a + b).2 ∨ s.budget.writeBytes < (a + b).2 * maxNodeBytes
      rw [Prod.snd_add, Nat.add_mul]
      omega
    | _ => exact id

end Storage

section Primitives
variable {blake3 : Bytes → ContentHash} {store : MapStore S E}
  {contents : S → ContentHash → Option Bytes} {W : Set Bytes} {also : MapError E → Prop}
  (hlawful : store.Lawful contents) {w : Work S}

def Holds (blake3 : Bytes → ContentHash) (contents : S → ContentHash → Option Bytes) (s : S)
    (node : Node) : Prop :=
  contents s (blobHash blake3 node.encode) = some node.encode

theorem Holds.grows (hgrow : Grows contents s s') (h : Holds blake3 contents s node) :
    Holds blake3 contents s' node := hgrow _ _ h

include hlawful

theorem chargedRead_ends (hbytes : contents w.store address = some bytes)
    (hlen : bytes.length ≤ maxNodeBytes) :
    Ends (accounting blake3 contents W also) (1, 0) (chargedRead store address) w
      fun found _ => found = bytes := by
  have hmax : 0 < maxNodeBytes := by decide
  by_cases hbudget : w.budget.nodeReads = 0 ∨ w.budget.readBytes = 0
  · have hrun : (chargedRead store address).run w = (.error .readBudget, w) := if_pos hbudget
    apply Ends.error hrun
    · exact (accounting blake3 contents W also).keeps_mono (by decide) (Accounting.keeps_zero _)
    · right
      change w.budget.nodeReads < 1 ∨ w.budget.readBytes < 1 * maxNodeBytes
      omega
  · obtain ⟨result, s', hread, hkeep, hresult⟩ : ∃ result s',
        store.read address (min w.budget.readBytes maxNodeBytes) w.store = (result, s') ∧
          contents s' = contents w.store ∧ ∀ found, result = .ok found → found = some bytes := by
      refine ⟨_, _, rfl, hlawful.read_keeps, ?_⟩
      intro found hfound
      rw [hlawful.read_ok hfound, hbytes]
    have hkeeps : ∀ readBytes, w.budget.readBytes ≤ readBytes + maxNodeBytes →
        (accounting blake3 contents W also).keeps (1, 0) w
          ⟨s', { w.budget with nodeReads := w.budget.nodeReads - 1, readBytes }⟩ := by
      intro readBytes hle
      refine ⟨?_, ?_, ?_, le_rfl, Nat.le_add_right _ _⟩
      · intro hsound
        rw [Sound, Grows, hkeep]
        exact ⟨hsound, fun _ _ h => h⟩
      · change w.budget.nodeReads ≤ w.budget.nodeReads - 1 + 1
        omega
      · rw [Nat.one_mul]
        exact hle
    have hrun : (chargedRead store address).run w = _ := if_neg hbudget
    rw [hread] at hrun
    cases result with
    | error e => exact Ends.error hrun (hkeeps _ (Nat.le_add_right _ _)) (.inr trivial)
    | ok found =>
      obtain rfl := hresult found rfl
      by_cases hlimit : min w.budget.readBytes maxNodeBytes < bytes.length
      · apply Ends.error (hrun.trans (if_pos hlimit)) (hkeeps _ (Nat.le_add_right _ _))
        right
        change w.budget.nodeReads < 1 ∨ w.budget.readBytes < 1 * maxNodeBytes
        omega
      · exact Ends.ok (hrun.trans (if_neg hlimit)) (hkeeps (w.budget.readBytes - bytes.length) (by omega)) rfl

theorem load_ends (hholds : Holds blake3 contents w.store node) (hformed : node.WellFormed route)
    (hexpected : ∀ count ∈ expectedCount, node.count = some count) :
    Ends (accounting blake3 contents W also) (1, 0)
      (load blake3 store (blobHash blake3 node.encode) expectedCount route) w
      fun found _ => found = node := by
  apply (chargedRead_ends hlawful hholds (encode_length_le hformed)).bind (b := 0)
  intro bytes w' _ hbytes
  subst hbytes
  apply (Ends.failIf fun h => absurd rfl h).bind (b := 0)
  intro _ w' _ _
  rw [decode_ok_iff.2 ⟨rfl, hformed⟩, Effect.ofExcept, pure_bind]
  apply (Ends.failIf _).bind (b := 0)
  · intro _ w' _ _
    exact Ends.pure rfl
  · intro ⟨count, hcount, hne⟩
    exact absurd (hexpected count hcount) hne

theorem chargedWrite_ends (hinj : Set.InjOn (blobHash blake3) W)
    (hsound : Sound blake3 contents W w.store) (hbytes : bytes ∈ W)
    (hlen : bytes.length ≤ maxNodeBytes) :
    Ends (accounting blake3 contents W also) (0, 1)
      (chargedWrite store (blobHash blake3 bytes) bytes) w
      fun _ w' => contents w'.store (blobHash blake3 bytes) = some bytes := by
  by_cases hbudget : w.budget.nodeWrites = 0 ∨ w.budget.writeBytes < bytes.length
  · have hrun : (chargedWrite store (blobHash blake3 bytes) bytes).run w = (.error .writeBudget, w) :=
      if_pos hbudget
    apply Ends.error hrun
    · exact (accounting blake3 contents W also).keeps_mono (by decide) (Accounting.keeps_zero _)
    · right
      change w.budget.nodeWrites < 1 ∨ w.budget.writeBytes < 1 * maxNodeBytes
      omega
  · have hfree : contents w.store (blobHash blake3 bytes) = none ∨
        contents w.store (blobHash blake3 bytes) = some bytes := by
      cases hfound : contents w.store (blobHash blake3 bytes) with
      | none => exact .inl rfl
      | some found =>
        obtain ⟨hmem, haddress⟩ := hsound _ _ hfound
        rw [hinj hmem hbytes haddress]
        exact .inr rfl
    obtain ⟨result, s', hwrite, hother, hhere, hok⟩ : ∃ result s',
        store.write (blobHash blake3 bytes) bytes w.store = (result, s') ∧
          (∀ other, other ≠ blobHash blake3 bytes → contents s' other = contents w.store other) ∧
          (contents s' (blobHash blake3 bytes) = contents w.store (blobHash blake3 bytes) ∨
            contents s' (blobHash blake3 bytes) = some bytes) ∧
          (result = .ok () → contents s' (blobHash blake3 bytes) = some bytes) :=
      ⟨_, _, rfl, fun _ h => hlawful.write_other h, hlawful.write_here,
        fun h => hlawful.write_ok h hfree⟩
    have hkeeps : (accounting blake3 contents W also).keeps (0, 1) w ⟨s', { w.budget with
        nodeWrites := w.budget.nodeWrites - 1
        writeBytes := w.budget.writeBytes - bytes.length }⟩ := by
      refine ⟨fun _ => ⟨?_, ?_⟩, le_rfl, Nat.le_add_right _ _, ?_, ?_⟩
      · intro address found hfound
        by_cases haddress : address = blobHash blake3 bytes
        · subst haddress
          rcases hhere with hsame | hnew
          · exact hsound _ _ (hsame ▸ hfound)
          · obtain rfl := Option.some.inj (hnew.symm.trans hfound)
            exact ⟨hbytes, rfl⟩
        · exact hsound _ _ (hother _ haddress ▸ hfound)
      · intro address found hfound
        by_cases haddress : address = blobHash blake3 bytes
        · subst haddress
          rcases hhere with hsame | hnew
          · exact hsame.trans hfound
          · rcases hfree with hnone | hsome
            · cases hnone.symm.trans hfound
            · rw [hnew, ← hsome, hfound]
        · exact (hother _ haddress).trans hfound
      · change w.budget.nodeWrites ≤ w.budget.nodeWrites - 1 + 1
        omega
      · change w.budget.writeBytes ≤ w.budget.writeBytes - bytes.length + 1 * maxNodeBytes
        omega
    have hrun : (chargedWrite store (blobHash blake3 bytes) bytes).run w = _ := if_neg hbudget
    rw [hwrite] at hrun
    cases result with
    | error e => exact Ends.error hrun hkeeps (.inr trivial)
    | ok u => exact Ends.ok hrun hkeeps (hok rfl)

omit hlawful in
theorem checkedCount_ends (halso : node.count = none → also overflow) :
    Ends (accounting blake3 contents W also) 0 (checkedCount node : MapM S E Nat) w
      fun count w' => node.count = some count ∧ w' = w := by
  rw [checkedCount]
  cases hcount : node.count with
  | none => exact Ends.throw (.inl (halso hcount))
  | some count => exact Ends.pure ⟨rfl, rfl⟩

theorem persist_ends (hinj : Set.InjOn (blobHash blake3) W)
    (hsound : Sound blake3 contents W w.store) (hnode : node.encode ∈ W)
    (hlen : ∀ count, node.count = some count → node.encode.length ≤ maxNodeBytes)
    (halso : node.count = none → also overflow) :
    Ends (accounting blake3 contents W also) (0, 1) (persist blake3 store node) w
      fun link w' => node.count = some link.count ∧ link.hash = blobHash blake3 node.encode ∧
        Holds blake3 contents w'.store node := by
  apply (checkedCount_ends halso).bind (b := (0, 1))
  intro count w' _ ⟨hcount, hsame⟩
  subst hsame
  apply (chargedWrite_ends hlawful hinj hsound hnode (hlen count hcount)).bind (b := 0)
  intro _ w'' _ hholds
  exact Ends.pure ⟨hcount, rfl, hholds⟩

end Primitives

section Trie
variable (blake3 : Bytes → ContentHash) (contents : S → ContentHash → Option Bytes)
  (W : Set Bytes)

/-- The store holds every node of the map's trie. -/
def Stored (s : S) : Nat → Nat → Bindings → Prop
  | 0, depth, m => m.entries ≠ [] → Holds blake3 contents s (canonNode blake3 0 depth m)
  | below + 1, depth, m =>
    (m.entries ≠ [] → Holds blake3 contents s (canonNode blake3 (below + 1) depth m)) ∧
      (leafEntries < m.entries.length → ∀ slot < 32, Stored s below (depth + 1) (m.under depth slot))

/-- The nodes of the map's parts, wherever a route leads, are encoded in `W`. -/
def Within : Nat → Nat → Bindings → Prop
  | 0, depth, m => m.entries ≠ [] → (canonNode blake3 0 depth m).encode ∈ W
  | below + 1, depth, m =>
    (m.entries ≠ [] → (canonNode blake3 (below + 1) depth m).encode ∈ W) ∧
      ∀ slot < 32, Within below (depth + 1) (m.under depth slot)

variable {blake3 contents W}

theorem Stored.holds (h : Stored blake3 contents s below depth m) (hne : m.entries ≠ []) :
    Holds blake3 contents s (canonNode blake3 below depth m) := by
  cases below with
  | zero => exact h hne
  | succ below => exact h.1 hne

theorem Within.mem (h : Within blake3 W below depth m) (hne : m.entries ≠ []) :
    (canonNode blake3 below depth m).encode ∈ W := by
  cases below with
  | zero => exact h hne
  | succ below => exact h.1 hne

theorem Stored.grows (hgrow : Grows contents s s') (h : Stored blake3 contents s below depth m) :
    Stored blake3 contents s' below depth m := by
  induction below generalizing depth m with
  | zero => exact fun hne => (h hne).grows hgrow
  | succ below ih =>
    refine ⟨fun hne => (h.1 hne).grows hgrow, ?_⟩
    intro hlarge slot hslot
    exact ih (h.2 hlarge slot hslot)

theorem stored_of_nil (h : m.entries = []) : Stored blake3 contents s below depth m := by
  cases below with
  | zero => exact fun hne => absurd h hne
  | succ below =>
    refine ⟨fun hne => absurd h hne, ?_⟩
    intro hlarge
    rw [h] at hlarge
    exact absurd hlarge (Nat.not_lt_zero _)

theorem stored_of_small (hsmall : m.entries.length ≤ leafEntries)
    (h : Holds blake3 contents s (.leaf m.entries)) : Stored blake3 contents s below depth m := by
  rw [← canonNode_small blake3 below depth hsmall] at h
  cases below with
  | zero => exact fun _ => h
  | succ below => exact ⟨fun _ => h, fun hlarge => absurd hsmall (Nat.not_le.2 hlarge)⟩

theorem load_canonNode_ends (hlawful : store.Lawful contents) (hfits : Fits route m)
    (hlen : route.length + below = levels) (hnil : m.entries ≠ [])
    (hlt : m.entries.length < 2 ^ 64) (hexpected : ∀ count ∈ expected, count = m.entries.length)
    (hstored : Stored blake3 contents w.store below route.length m) :
    Ends (accounting blake3 contents W also) (1, 0)
      (load blake3 store (blobHash blake3 (canonNode blake3 below route.length m).encode) expected
        route) w fun node _ => node = canonNode blake3 below route.length m := by
  apply load_ends hlawful (hstored.holds hnil) (canonNode_wellFormed blake3 hfits hlen hnil hlt)
  intro count hcount
  rw [count_canonNode blake3 hfits hlen, if_pos hlt, hexpected count hcount]

end Trie

end Heddle.SourceTarget
