import Heddle.SourceTarget.Storage
import Mathlib.Algebra.BigOperators.Ring.List

namespace Heddle.SourceTarget
open Heddle.Lib List

theorem sum_fst (xs : List α) (f : α → Nat) : (xs.map fun x => ((0, f x) : Nat × Nat)).sum =
    (0, (xs.map f).sum) := by
  induction xs with
  | nil => rfl
  | cons x xs ih => rw [map_cons, sum_cons, ih, map_cons, sum_cons, Prod.mk_add_mk]

theorem Fits.put (h : Fits route m) (hkey : outsideRoute route key = false)
    (value : Option ContentHash) :
    Fits route (m.put key value) := by
  intro entry hentry
  rcases SortedMap.mem_put.1 hentry with ⟨hsame, _⟩ | ⟨_, hmem⟩
  · rw [hsame]
    exact hkey
  · exact h entry hmem

section Update
variable {blake3 : Bytes → ContentHash} {store : MapStore S E}
  {contents : S → ContentHash → Option Bytes} {W : Set Bytes} {also : MapError E → Prop}
  (hlawful : store.Lawful contents) (hinj : Set.InjOn (blobHash blake3) W) {w : Work S}
include hlawful hinj

section
variable (hfits : Fits route m) (hlen : route.length + below = levels) (hne : m.entries ≠ [])
  (hwithin : Within blake3 W below route.length m) (hsound : Sound blake3 contents W w.store)
  (halso : 2 ^ 64 ≤ m.entries.length → also overflow)
include hfits hlen hne hwithin hsound halso

theorem persist_canonNode_ends :
    Ends (accounting blake3 contents W also) (0, 1)
      (persist blake3 store (canonNode blake3 below route.length m)) w
      fun link w' => canonLink blake3 below route.length m = some link ∧
        Holds blake3 contents w'.store (canonNode blake3 below route.length m) ∧
        m.entries.length < 2 ^ 64 := by
  have hcount := count_canonNode blake3 hfits hlen
  refine (persist_ends hlawful hinj hsound (hwithin.mem hne) ?_ ?_).mono le_rfl ?_
  · intro count hsome
    rw [hcount] at hsome
    split at hsome
    · rename_i hlt
      exact encode_length_le (canonNode_wellFormed blake3 hfits hlen hne hlt)
    · cases hsome
  · intro hnone
    rw [hcount] at hnone
    split at hnone
    · cases hnone
    · rename_i hge
      exact halso (Nat.not_lt.1 hge)
  · intro link w' _ ⟨hsome, hhash, hholds⟩
    rw [hcount] at hsome
    split at hsome
    · rename_i hlt
      refine ⟨?_, hholds, hlt⟩
      rw [canonLink_of_ne blake3 hne, ← hhash, Option.some.inj hsome]
    · cases hsome

theorem build_ends :
    Ends (accounting blake3 contents W also) (0, 1 + below * m.entries.length)
      (build blake3 store below m.entries route.length) w
      fun link w' => canonLink blake3 below route.length m = some link ∧
        Stored blake3 contents w'.store below route.length m ∧ m.entries.length < 2 ^ 64 := by
  induction below generalizing m route w with
  | zero =>
    have hsmall : m.entries.length ≤ leafEntries :=
      (hfits.length_le hlen).trans (by decide)
    rw [build, if_pos hsmall, ← canonNode_small blake3 0 route.length hsmall]
    refine (persist_canonNode_ends hlawful hinj hfits hlen hne hwithin hsound halso).mono
      ⟨le_rfl, Nat.le_add_right _ _⟩ ?_
    rintro link w' _ ⟨hlink, hholds, hlt⟩
    rw [canonNode_small blake3 _ _ hsmall] at hholds
    exact ⟨hlink, stored_of_small hsmall hholds, hlt⟩
  | succ below ih =>
    rw [build]
    by_cases hsmall : m.entries.length ≤ leafEntries
    · rw [if_pos hsmall, ← canonNode_small blake3 (below + 1) route.length hsmall]
      refine (persist_canonNode_ends hlawful hinj hfits hlen hne hwithin hsound halso).mono ?_ ?_
      · exact ⟨le_rfl, Nat.le_add_right _ _⟩
      · rintro link w' _ ⟨hlink, hholds, hlt⟩
        rw [canonNode_small blake3 _ _ hsmall] at hholds
        exact ⟨hlink, stored_of_small hsmall hholds, hlt⟩
    · rw [if_neg hsmall]
      have hlarge := Nat.not_le.1 hsmall
      have hcost : (0, 1 + (below + 1) * m.entries.length) =
          ((List.range 32).map fun slot => ((0, (m.under route.length slot).entries.length * (below + 1)) :
            Nat × Nat)).sum + (0, 1) := by
        rw [sum_fst, sum_map_mul_right, sum_under, Prod.mk_add_mk]
        congr 1
        ring
      rw [hcost]
      refine Ends.bind (Q := fun children w' =>
        children = canonChildren blake3 below route.length m ∧
          Sound blake3 contents W w'.store ∧
          ∀ slot < 32, Stored blake3 contents w'.store below (route.length + 1)
            (m.under route.length slot)) ?_ ?_
      · rw [groups, foldlM_map]
        refine (Ends.foldlM (I := fun before children w' =>
          children = before.filterMap (canonChild blake3 below route.length m) ∧
            Sound blake3 contents W w'.store ∧
            ∀ slot ∈ before, Stored blake3 contents w'.store below (route.length + 1)
              (m.under route.length slot)) ⟨rfl, hsound, fun _ h => absurd h not_mem_nil⟩ ?_).mono le_rfl ?_
        · rintro before slot after hslots children t ⟨hchildren, hsound', hstored⟩
          have hslot : slot < 32 := by
            apply mem_range.1
            rw [hslots]
            exact mem_append_right _ mem_cons_self
          change Ends _ _ (if (m.under route.length slot).entries = [] then pure children
            else do
              let link ← build blake3 store below (m.under route.length slot).entries (route.length + 1)
              return children ++ [⟨slot, link⟩]) t _
          have hchild : (before ++ [slot]).filterMap (canonChild blake3 below route.length m) =
              children ++ (canonChild blake3 below route.length m slot).toList := by
            rw [hchildren, filterMap_append]
            rfl
          rw [hchild]
          by_cases hnil : (m.under route.length slot).entries = []
          · rw [if_pos hnil]
            refine Ends.weaken (Ends.pure ?_) zero_le
            refine ⟨?_, hsound', ?_⟩
            · rw [canonChild, (canonLink_eq_none blake3).2 hnil]
              exact (append_nil children).symm
            · intro other hother
              rcases mem_append.1 hother with hother | hother
              · exact hstored other hother
              · rw [mem_singleton.1 hother]
                exact stored_of_nil hnil
          · rw [if_neg hnil]
            have hlen' : (route ++ [slot]).length = route.length + 1 := length_append
            have hbuild := ih (hfits.under slot) (by omega) hnil (by rw [hlen']; exact hwithin.2 slot hslot)
              hsound' fun hge => halso (hge.trans (length_under_le _ _ _))
            rw [hlen'] at hbuild
            have hpos := length_pos_of_ne_nil hnil
            refine Ends.weaken (hbuild.bind (b := 0) ?_) ⟨le_rfl, ?_⟩
            · rintro link u hkeeps ⟨hlink, hstored', _⟩
              obtain ⟨hsound'', hgrow⟩ := hkeeps.1 hsound'
              apply Ends.pure
              refine ⟨?_, hsound'', ?_⟩
              · rw [canonChild, hlink]
                rfl
              · intro other hother
                rcases mem_append.1 hother with hother | hother
                · exact (hstored other hother).grows hgrow
                · rw [mem_singleton.1 hother]
                  exact hstored'
            · change 1 + below * _ + 0 ≤ _ * (below + 1)
              rw [Nat.mul_comm, Nat.mul_succ, Nat.add_zero, Nat.add_comm]
              exact Nat.add_le_add_left hpos _
        · rintro children w' _ ⟨hchildren, hsound', hstored⟩
          exact ⟨hchildren, hsound', fun slot hslot => hstored slot (mem_range.2 hslot)⟩
      · rintro children w' _ ⟨hchildren, hsound', hstored⟩
        subst hchildren
        rw [← canonNode_large blake3 hlarge]
        refine (persist_canonNode_ends hlawful hinj hfits hlen hne hwithin hsound' halso).mono le_rfl ?_
        rintro link w'' hkeeps ⟨hlink, hholds, hlt⟩
        refine ⟨hlink, ⟨fun _ => hholds, ?_⟩, hlt⟩
        intro _ slot hslot
        exact (hstored slot hslot).grows (hkeeps.1 hsound').2

end

/-- What an update leaves of a map's trie: the link to its root node, in a store that holds it. -/
def Updated (blake3 : Bytes → ContentHash) (contents : S → ContentHash → Option Bytes) (below : Nat)
    (depth : Nat) (m : Bindings) (link : Option Link) (w : Work S) : Prop :=
  link = canonLink blake3 below depth m ∧ Stored blake3 contents w.store below depth m ∧
    m.entries.length < 2 ^ 64

/-- How a parent or a caller names a map's root node. -/
def Names (blake3 : Bytes → ContentHash) (below depth : Nat) (m : Bindings)
    (old : Option (ContentHash × Option Nat)) : Prop :=
  ∃ expected, (∀ count ∈ expected, count = m.entries.length) ∧
    old = (canonLink blake3 below depth m).map fun link => (link.hash, expected)

theorem updateNode_small_ends (hfits : Fits route m) (hkey : outsideRoute route key = false)
    (hlen : route.length + below = levels) (hsmall : m.entries.length ≤ leafEntries)
    (hold : Names blake3 below route.length m old)
    (hwithin : Within blake3 W below route.length (m.put key value))
    (hsound : Sound blake3 contents W w.store)
    (hstored : Stored blake3 contents w.store below route.length m) :
    Ends (accounting blake3 contents W also) (1, 1 + below * 9)
      (updateNode blake3 store descend key value old route) w
      (Updated blake3 contents below route.length (m.put key value)) := by
  have hnine : (m.put key value).entries.length ≤ 9 :=
    (m.length_put_le key value).trans (Nat.succ_le_succ hsmall)
  have hfits' := hfits.put hkey value
  have halso : 2 ^ 64 ≤ (m.put key value).entries.length → also overflow :=
    fun hge => absurd (hge.trans hnine) (by decide)
  have hlt : m.entries.length < 2 ^ 64 := hsmall.trans_lt (by decide)
  obtain ⟨expected, hexpected, rfl⟩ := hold
  by_cases hnil : m.entries = []
  · rw [(canonLink_eq_none blake3).2 hnil]
    cases value with
    | none =>
      have hget : m.get key = none := by
        rw [SortedMap.get, hnil]
        rfl
      have hsame : m.put key none = m := by
        rw [← hget, m.put_get]
      refine Ends.weaken (Ends.pure ?_) zero_le
      rw [hsame]
      exact ⟨((canonLink_eq_none blake3).2 hnil).symm, stored_of_nil hnil, hlt⟩
    | some v =>
      have hentries : (m.put key (some v)).entries = [(key, v)] := by
        change putBy Prod.fst key (some (key, v)) m.entries = _
        rw [hnil]
        rfl
      have hsmall' : (m.put key (some v)).entries.length ≤ leafEntries := by
        rw [hentries]
        exact (by decide : 1 ≤ leafEntries)
      have hne : (m.put key (some v)).entries ≠ [] := by
        rw [hentries]
        exact cons_ne_nil _ _
      have hpersist := persist_canonNode_ends hlawful hinj hfits' hlen hne hwithin hsound halso
      rw [canonNode_small blake3 _ _ hsmall'] at hpersist
      change Ends _ _ (do
        let link ← persist blake3 store (.leaf [(key, v)])
        return some link) w _
      rw [← hentries]
      refine Ends.weaken (hpersist.bind (b := 0) ?_) ⟨Nat.zero_le _, Nat.le_add_right _ _⟩
      rintro link w' _ ⟨hlink, hholds, hlt'⟩
      exact Ends.pure ⟨hlink.symm, stored_of_small hsmall' hholds, hlt'⟩
  · rw [canonLink_of_ne blake3 hnil, canonNode_small blake3 _ _ hsmall]
    have hholds := hstored.holds hnil
    have hformed := canonNode_wellFormed blake3 hfits hlen hnil hlt
    rw [canonNode_small blake3 _ _ hsmall] at hholds hformed
    have hload : Ends (accounting blake3 contents W also) (1, 0)
        (load blake3 store (blobHash blake3 (Node.leaf m.entries).encode) expected route) w
        fun node _ => node = .leaf m.entries :=
      load_ends hlawful hholds hformed fun count hcount => congrArg some (hexpected count hcount).symm
    refine Ends.weaken (Ends.bind (b := (0, 1 + below * 9)) hload ?_) ⟨le_rfl, (zero_add _).le⟩
    intro node w' hkeeps hnode
    subst hnode
    obtain ⟨hsound', hgrow⟩ := hkeeps.1 hsound
    refine Ends.weaken (Ends.bind (b := (0, 1 + below * 9)) (checkedCount_ends fun h => by cases h) ?_)
      (zero_add _).le
    rintro count w'' _ ⟨hcount, hsame⟩
    subst hsame
    obtain rfl := Option.some.inj hcount
    have hedit := editEntries_put m key value
    simp only
    cases hedited : editEntries m.entries key value with
    | none =>
      rw [hedited] at hedit
      refine Ends.weaken (Ends.pure ?_) zero_le
      simp only at hedit
      rw [hedit]
      refine ⟨?_, hstored.grows hgrow, hlt⟩
      rw [canonLink_of_ne blake3 hnil, canonNode_small blake3 _ _ hsmall]
    | some edited =>
      rw [hedited] at hedit
      simp only at hedit
      subst hedit
      simp only
      by_cases hempty : (m.put key value).entries = []
      · rw [if_pos hempty]
        refine Ends.weaken (Ends.pure ?_) zero_le
        exact ⟨((canonLink_eq_none blake3).2 hempty).symm, stored_of_nil hempty,
          hnine.trans_lt (by decide)⟩
      · rw [if_neg hempty]
        have hbelow : levels - route.length = below := by omega
        rw [hbelow]
        have hbuild := build_ends hlawful hinj hfits' hlen hempty hwithin hsound' halso
        refine Ends.weaken (hbuild.bind (b := 0) ?_) ⟨le_rfl, ?_⟩
        · rintro link t _ ⟨hlink, hstored', hlt'⟩
          exact Ends.pure ⟨hlink.symm, hstored', hlt'⟩
        · exact Nat.add_le_add_left (Nat.mul_le_mul_left below hnine) 1

omit hinj in
theorem collect_ends (hfits : Fits route m)
    (hchild : child ∈ canonChildren blake3 below route.length m)
    (hstored : Stored blake3 contents w.store below (route.length + 1)
      (m.under route.length child.slot))
    (hroom : entries.length + (m.under route.length child.slot).entries.length ≤ leafEntries) :
    Ends (accounting blake3 contents W also) (1, 0)
      (collect blake3 store child.link (route ++ [child.slot]) entries) w
      fun all _ => all = entries ++ (m.under route.length child.slot).entries := by
  have hlink := ((mem_canonChildren blake3).1 hchild).2
  have hfits' := hfits.under child.slot
  generalize m.under route.length child.slot = part at *
  have hsmall : part.entries.length ≤ leafEntries := (Nat.le_add_left _ _).trans hroom
  have hnil : part.entries ≠ [] := by
    intro hnil
    rw [(canonLink_eq_none blake3).2 hnil] at hlink
    cases hlink
  rw [canonLink_of_ne blake3 hnil, canonNode_small blake3 _ _ hsmall, Option.some.injEq] at hlink
  have hholds := hstored.holds hnil
  rw [canonNode_small blake3 _ _ hsmall] at hholds
  have hformed : (Node.leaf part.entries).WellFormed (route ++ [child.slot]) :=
    ⟨length_pos_of_ne_nil hnil, hsmall, part.sorted, hfits'⟩
  rw [← hlink]
  refine Ends.weaken (Ends.bind (b := (1, 0)) (Ends.failIf ?_) ?_) (zero_add _).le
  · exact fun hlt => absurd hsmall (Nat.not_le.2 hlt)
  · intro _ t _ ⟨_, hsame⟩
    subst hsame
    have hload : Ends (accounting blake3 contents W also) (1, 0)
        (load blake3 store (blobHash blake3 (Node.leaf part.entries).encode)
          (some part.entries.length) (route ++ [child.slot])) t
        fun node _ => node = .leaf part.entries :=
      load_ends hlawful hholds hformed fun _ hcount => hcount
    refine Ends.bind (b := 0) hload ?_
    intro node t' _ hnode
    subst hnode
    refine Ends.bind (b := 0) (Ends.failIf ?_) ?_
    · exact fun hlt => absurd hroom (Nat.not_le.2 hlt)
    · intro _ _ _ _
      exact Ends.pure rfl

omit hinj in
theorem collectAll_ends (hfits : Fits route m) (hsmall : m.entries.length ≤ leafEntries)
    (hstored : ∀ slot < 32, Stored blake3 contents w.store below (route.length + 1)
      (m.under route.length slot)) (hsound : Sound blake3 contents W w.store) :
    Ends (accounting blake3 contents W also) (8, 0)
      ((canonChildren blake3 below route.length m).foldlM (fun entries child =>
        collect blake3 store child.link (route ++ [child.slot]) entries) []) w
      fun entries _ => sortBy Prod.fst entries = m.entries := by
  have hall := flatMap_canonChildren blake3 below route.length m
  have hcount : (canonChildren blake3 below route.length m).length ≤ 8 :=
    (length_canonChildren_le blake3 below route.length m).trans hsmall
  have hcost : ((canonChildren blake3 below route.length m).map fun _ => ((1, 0) : Nat × Nat)).sum ≤
      (8, 0) := by
    rw [map_const', sum_replicate]
    exact ⟨by simpa using hcount, by simp⟩
  refine (Ends.foldlM (I := fun before entries w' => Sound blake3 contents W w'.store ∧
    Grows contents w.store w'.store ∧ entries = before.flatMap fun child =>
      (m.under route.length child.slot).entries) ⟨hsound, fun _ _ h => h, rfl⟩ ?_).mono hcost ?_
  · intro before child after hsplit entries t ⟨hsound', hgrow, hentries⟩
    have hchild : child ∈ canonChildren blake3 below route.length m := by
      rw [hsplit]
      exact mem_append_right _ mem_cons_self
    have hslot := ((mem_canonChildren blake3).1 hchild).1
    have hroom : entries.length + (m.under route.length child.slot).entries.length ≤ leafEntries := by
      have htotal := hall.length_eq
      rw [hsplit, flatMap_append, flatMap_cons, length_append, length_append,
        ← hentries] at htotal
      omega
    refine (collect_ends hlawful hfits hchild ((hstored child.slot hslot).grows hgrow) hroom).mono
      le_rfl ?_
    intro all t' hkeeps hall'
    obtain ⟨hsound'', hgrow'⟩ := hkeeps.1 hsound'
    refine ⟨hsound'', fun address bytes h => hgrow' address bytes (hgrow address bytes h), ?_⟩
    rw [hall', hentries, flatMap_append, flatMap_singleton]
  · intro entries w' _ ⟨_, _, hentries⟩
    rw [hentries]
    exact SortedMap.sortBy_of_perm hall

theorem persistChildren_ends (hfits : Fits route m) (hlen : route.length + (below + 1) = levels)
    (hparts : ∀ slot < 32, Stored blake3 contents w.store below (route.length + 1)
      (m.under route.length slot)) (hwithin : Within blake3 W (below + 1) route.length m)
    (hsound : Sound blake3 contents W w.store) (halso : 2 ^ 64 ≤ m.entries.length → also overflow) :
    Ends (accounting blake3 contents W also) (8, 1)
      (persistChildren blake3 store route.length (canonChildren blake3 below route.length m) route) w
      (Updated blake3 contents (below + 1) route.length m) := by
  rw [persistChildren]
  by_cases hempty : canonChildren blake3 below route.length m = []
  · rw [if_pos hempty]
    have hnil := canonChildren_eq_nil blake3 hempty
    refine Ends.weaken (Ends.pure ?_) zero_le
    refine ⟨((canonLink_eq_none blake3).2 hnil).symm, stored_of_nil hnil, ?_⟩
    rw [hnil]
    decide
  · rw [if_neg hempty]
    have hnil : m.entries ≠ [] := by
      intro hnil
      have hle := length_canonChildren_le blake3 below route.length m
      rw [hnil] at hle
      exact hempty (length_eq_zero_iff.1 (Nat.le_zero.1 hle))
    have htotal := count_canonChildren blake3 below route.length m
    refine Ends.weaken (Ends.bind (b := (8, 1)) (checkedCount_ends ?_) ?_) (zero_add _).le
    · intro hnone
      rw [htotal] at hnone
      split at hnone
      · cases hnone
      · rename_i hge
        exact halso (Nat.not_lt.1 hge)
    · intro total t' _ ⟨hsome, hsame'⟩
      subst hsame'
      rw [htotal] at hsome
      split at hsome
      · obtain rfl := Option.some.inj hsome
        by_cases hsmall : m.entries.length ≤ leafEntries
        · rw [if_pos hsmall]
          refine Ends.bind (b := (0, 1))
            (collectAll_ends hlawful hfits hsmall hparts hsound) ?_
          intro entries u hkeeps hsorted
          rw [hsorted, ← canonNode_small blake3 (below + 1) route.length hsmall]
          refine Ends.bind (b := 0) (persist_canonNode_ends hlawful hinj hfits hlen hnil hwithin
            (hkeeps.1 hsound).1 halso) ?_
          intro link v _ ⟨hlink, hholds', hlt'⟩
          rw [canonNode_small blake3 _ _ hsmall] at hholds'
          exact Ends.pure ⟨hlink.symm, stored_of_small hsmall hholds', hlt'⟩
        · rw [if_neg hsmall, ← canonNode_large blake3 (Nat.not_le.1 hsmall)]
          refine Ends.weaken (Ends.bind (b := 0) (persist_canonNode_ends hlawful hinj hfits hlen
            hnil hwithin hsound halso) ?_) ⟨Nat.zero_le _, le_rfl⟩
          intro link v hkeeps ⟨hlink, hholds', hlt'⟩
          refine Ends.pure ⟨hlink.symm, ⟨fun _ => hholds', ?_⟩, hlt'⟩
          exact fun _ slot hslot => (hparts slot hslot).grows (hkeeps.1 hsound).2
      · cases hsome

omit hlawful hinj in
theorem stored_under_put {m : Bindings}
    (hstored : ∀ slot < 32, Stored blake3 contents s below (depth + 1) (m.under depth slot))
    (hpart : Stored blake3 contents s below (depth + 1)
      ((m.under depth (group key depth)).put key value)) :
    ∀ slot < 32, Stored blake3 contents s below (depth + 1)
      (Bindings.under (m.put key value) depth slot) := by
  intro slot hslot
  rw [under_put]
  split
  · rename_i heq
    subst heq
    exact hpart
  · exact hstored slot hslot

theorem updateNode_large_ends (hfits : Fits route m) (hkey : outsideRoute route key = false)
    (hlen : route.length + 1 + below = levels) (hlarge : leafEntries < m.entries.length)
    (hlt : m.entries.length < 2 ^ 64)
    (halso : 2 ^ 64 ≤ (m.put key value).entries.length → also overflow)
    (hold : Names blake3 (below + 1) route.length m old)
    (hwithin : Within blake3 W (below + 1) route.length (m.put key value))
    (hsound : Sound blake3 contents W w.store)
    (hstored : Stored blake3 contents w.store (below + 1) route.length m)
    (hdescend : ∀ old' w', Names blake3 below (route.length + 1)
        (m.under route.length (group key route.length)) old' →
      Sound blake3 contents W w'.store →
      Stored blake3 contents w'.store below (route.length + 1)
        (m.under route.length (group key route.length)) →
      Ends (accounting blake3 contents W also) cost
        (descend old' (route ++ [group key route.length])) w'
        (Updated blake3 contents below (route.length + 1)
          ((m.under route.length (group key route.length)).put key value))) :
    Ends (accounting blake3 contents W also) (cost + (9, 1))
      (updateNode blake3 store descend key value old route) w
      (Updated blake3 contents (below + 1) route.length (m.put key value)) := by
  have hnil : m.entries ≠ [] := by
    intro hnil
    rw [hnil] at hlarge
    exact Nat.not_lt_zero _ hlarge
  have hlen' : route.length + (below + 1) = levels := by omega
  have hslot := group_lt key route.length
  have hcount := count_canonNode blake3 hfits hlen'
  have hholds := hstored.holds hnil
  rw [if_pos hlt] at hcount
  obtain ⟨expected, hexpected, rfl⟩ := hold
  rw [canonLink_of_ne blake3 hnil]
  have hload : Ends (accounting blake3 contents W also) (1, 0)
      (load blake3 store (blobHash blake3 (canonNode blake3 (below + 1) route.length m).encode)
        expected route) w fun node _ => node = canonNode blake3 (below + 1) route.length m :=
    load_canonNode_ends hlawful hfits hlen' hnil hlt hexpected hstored
  rw [canonNode_large blake3 hlarge] at hload hcount hholds
  rw [canonNode_large blake3 hlarge]
  refine Ends.weaken (Ends.bind (b := cost + (8, 1)) hload ?_) ?_
  · intro node w' hkeeps hnode
    subst hnode
    obtain ⟨hsound', hgrow⟩ := hkeeps.1 hsound
    refine Ends.weaken (Ends.bind (b := cost + (8, 1)) (checkedCount_ends ?_) ?_) (zero_add _).le
    · intro hnone
      rw [hcount] at hnone
      cases hnone
    rintro count w'' _ ⟨hcount', hsame⟩
    subst hsame
    obtain rfl := Option.some.inj (hcount.symm.trans hcount')
    simp only [previousLink_canonChildren blake3 hslot]
    have hparts := fun slot hslot => (hstored.2 hlarge slot hslot).grows hgrow
    refine Ends.bind (hdescend _ w'' ?_ hsound' (hparts _ hslot)) ?_
    · refine ⟨some (m.under route.length (group key route.length)).entries.length,
        fun count hcount => (Option.mem_some.1 hcount).symm, ?_⟩
      by_cases hpart : (m.under route.length (group key route.length)).entries = []
      · rw [(canonLink_eq_none blake3).2 hpart]
        rfl
      · rw [canonLink_of_ne blake3 hpart]
        rfl
    · intro next t hkeeps' ⟨hnext, hpart, _⟩
      subst hnext
      obtain ⟨hsound'', hgrow'⟩ := hkeeps'.1 hsound'
      have hparts' := stored_under_put (fun slot hslot => (hparts slot hslot).grows hgrow') hpart
      have hfits' := hfits.put hkey value
      by_cases hsame : canonLink blake3 below (route.length + 1)
          (m.under route.length (group key route.length)) =
        canonLink blake3 below (route.length + 1)
          ((m.under route.length (group key route.length)).put key value)
      · rw [if_pos hsame]
        have hchildren := canonChildren_put_of_same blake3 hsame.symm
        have hlength : (m.put key value).entries.length = m.entries.length := by
          rw [← sum_canonChildren blake3 below route.length, hchildren, sum_canonChildren]
        have hlarge' : leafEntries < (m.put key value).entries.length := by rwa [hlength]
        have hnil' : (m.put key value).entries ≠ [] := by
          intro hnil'
          rw [hnil'] at hlarge'
          exact Nat.not_lt_zero _ hlarge'
        refine Ends.weaken (Ends.pure ?_) zero_le
        refine ⟨?_, ⟨?_, fun _ => hparts'⟩, by rwa [hlength]⟩
        · rw [canonLink_of_ne blake3 hnil', canonNode_large blake3 hlarge', hchildren, hlength]
        · intro _
          rw [canonNode_large blake3 hlarge', hchildren]
          exact (hholds.grows hgrow).grows hgrow'
      · rw [if_neg hsame]
        have hedit := editChildren_put (canonChildren_sorted blake3 below route.length m) (group key route.length)
          (canonLink blake3 below (route.length + 1)
            ((m.under route.length (group key route.length)).put key value))
        cases hedited : editChildren (canonChildren blake3 below route.length m)
            (group key route.length) (canonLink blake3 below (route.length + 1)
              ((m.under route.length (group key route.length)).put key value)) with
        | none =>
          rw [hedited] at hedit
          obtain ⟨hnone, hprevious⟩ := hedit
          rw [previousLink_canonChildren blake3 hslot] at hprevious
          exact absurd (hprevious.trans hnone.symm) hsame
        | some edited =>
          rw [hedited] at hedit
          simp only at hedit
          rw [← canonChildren_put] at hedit
          subst hedit
          simp only
          exact persistChildren_ends hlawful hinj hfits' hlen' hparts' hwithin hsound'' halso
  · rw [← add_assoc, add_comm (1, 0) cost, add_assoc]
    rfl

/-- What an update costs where `below` levels are left. -/
def updateCost (below : Nat) : Nat × Nat := (1 + 9 * below, 1 + 10 * below)

theorem updateAt_ends (hfits : Fits route m) (hkey : outsideRoute route key = false)
    (hlen : route.length + below = levels) (hlt : m.entries.length < 2 ^ 64)
    (halso : 2 ^ 64 ≤ (m.put key value).entries.length → also overflow)
    (hold : Names blake3 below route.length m old)
    (hwithin : Within blake3 W below route.length (m.put key value))
    (hsound : Sound blake3 contents W w.store)
    (hstored : Stored blake3 contents w.store below route.length m) :
    Ends (accounting blake3 contents W also) (updateCost below)
      (updateAt blake3 store key value below old route) w
      (Updated blake3 contents below route.length (m.put key value)) := by
  induction below generalizing m route old w with
  | zero =>
    have hsmall : m.entries.length ≤ leafEntries := (hfits.length_le hlen).trans (by decide)
    rw [updateAt]
    refine Ends.weaken (updateNode_small_ends hlawful hinj hfits hkey hlen hsmall hold hwithin hsound
      hstored) ⟨?_, ?_⟩
    · exact Nat.le_add_right 1 _
    · exact Nat.add_le_add_left (by omega) 1
  | succ below ih =>
    rw [updateAt]
    rcases Nat.lt_or_ge leafEntries m.entries.length with hlarge | hsmall
    · have hlen' : (route ++ [group key route.length]).length = route.length + 1 := length_append
      have hput := under_put m key value route.length (group key route.length)
      rw [if_pos rfl] at hput
      have hdescend : ∀ old' w', Names blake3 below (route.length + 1)
            (m.under route.length (group key route.length)) old' →
          Sound blake3 contents W w'.store →
          Stored blake3 contents w'.store below (route.length + 1)
            (m.under route.length (group key route.length)) →
          Ends (accounting blake3 contents W also) (updateCost below)
            (updateAt blake3 store key value below old' (route ++ [group key route.length])) w'
            (Updated blake3 contents below (route.length + 1)
              ((m.under route.length (group key route.length)).put key value)) := by
        intro old' w' hold' hsound' hstored'
        rw [← hlen'] at hold' hstored' ⊢
        apply ih (hfits.under _) ((outsideRoute_snoc hkey).2 rfl) (by omega)
          ((length_under_le _ _ _).trans_lt hlt) _ hold' _ hsound' hstored'
        · intro hge
          rw [← hput] at hge
          exact halso (hge.trans (length_under_le _ _ _))
        · rw [← hput, hlen']
          exact hwithin.2 _ (group_lt key route.length)
      refine Ends.weaken (updateNode_large_ends hlawful hinj hfits hkey (by omega) hlarge hlt halso hold
        hwithin hsound hstored hdescend) ?_
      · refine ⟨?_, ?_⟩
        · change 1 + 9 * below + 9 ≤ 1 + 9 * (below + 1)
          omega
        · change 1 + 10 * below + 1 ≤ 1 + 10 * (below + 1)
          omega
    · refine Ends.weaken (updateNode_small_ends hlawful hinj hfits hkey hlen hsmall hold hwithin hsound
        hstored) ⟨?_, ?_⟩
      · exact Nat.le_add_right 1 _
      · change 1 + (below + 1) * 9 ≤ 1 + 10 * (below + 1)
        omega

/-- The store holds the trie of a map that it can count. -/
structure Kept (blake3 : Bytes → ContentHash) (contents : S → ContentHash → Option Bytes)
    (s : S) (m : Bindings) : Prop where
  stored : Stored blake3 contents s levels 0 m
  counted : m.entries.length < 2 ^ 64

omit hlawful hinj in
theorem Kept.grows (h : Kept blake3 contents s m) (hgrow : Grows contents s s') :
    Kept blake3 contents s' m :=
  ⟨h.stored.grows hgrow, h.counted⟩

theorem update_ends (hkept : Kept blake3 contents w.store m)
    (hsound : Sound blake3 contents W w.store)
    (hwithin : Within blake3 W levels 0 (m.put key value))
    (halso : 2 ^ 64 ≤ (m.put key value).entries.length → also overflow) :
    Ends (accounting blake3 contents W also) (updateCost levels)
      (SourceTargetMap.update blake3 store (canonRoot blake3 m) key value) w
      fun root w' => root = canonRoot blake3 (m.put key value) ∧
        Kept blake3 contents w'.store (m.put key value) := by
  have hold : Names blake3 levels 0 m ((canonRoot blake3 m).map fun hash => (hash, none)) := by
    refine ⟨none, nofun, ?_⟩
    rw [canonRoot, Option.map_map]
    rfl
  have hfits : Fits [] m := fun entry _ => outsideRoute_nil entry.1
  have hupdate : Ends (accounting blake3 contents W also) (updateCost levels)
      (updateAt blake3 store key value levels ((canonRoot blake3 m).map fun hash => (hash, none)) []) w
      (Updated blake3 contents levels 0 (m.put key value)) :=
    updateAt_ends hlawful hinj hfits (outsideRoute_nil key) rfl hkept.counted halso hold hwithin hsound
      hkept.stored
  refine Ends.bind (b := 0) hupdate ?_
  intro link w' _ ⟨hlink, hstored, hcounted⟩
  refine Ends.pure ⟨?_, hstored, hcounted⟩
  rw [hlink]
  rfl

end Update

end Heddle.SourceTarget
