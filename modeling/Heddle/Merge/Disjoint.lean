import Heddle.Merge.Slots

namespace Heddle.Merge
open Heddle.Lib Heddle.Lib.Patch

/-- No range that `fs` changes in one edit strictly contains a place where `es` inserts, and none
holds a line that `es` changes. -/
def NoOverlap (es fs : List (RangeEdit Line)) : Prop :=
  ∀ f ∈ fs, (∀ k, f.start < k → k < f.stop → gapLines es k = []) ∧
    ∀ k, f.start ≤ k → k < f.stop → coverOf es k = none

/-- `out` is `base` with the edits of both sides, which do not overlap: it is what either side
makes of the other one's text. -/
structure Composed (base ours theirs : List Line) (es fs : List (RangeEdit Line)) (out : Bytes) :
    Prop where
  oursClear : NoOverlap es fs
  theirsClear : NoOverlap fs es
  oursFirst : out = (patch ours (rebase base es fs)).flatten
  theirsFirst : out = (patch theirs (rebase base fs es)).flatten

theorem NoOverlap.notTorn (h : NoOverlap es fs) : NotTorn es fs := fun f hf => (h f hf).1

theorem noOverlap_of_notTorn (h : NotTorn es fs) (hfs : Ascending len 0 fs)
    (hcommute : Commute es fs len) : NoOverlap es fs := by
  intro f hf
  refine ⟨h f hf, fun k hstart hstop => ?_⟩
  have hlen := (hfs.bounds hf).2.2
  refine (hcommute.2 k (by omega)).resolve_right fun hnone => ?_
  rw [coverOf, List.find?_eq_none] at hnone
  exact hnone f hf (by simpa using ⟨hstart, hstop⟩)

section Compose
variable {captureDiffSlices : List Line → List Line → List DiffOp}

/-- The composer tears no edit apart exactly where no insertion falls inside one: what it makes of
two sides is their edits in either order unless one side inserts strictly inside a range that the
other one changes in a single edit, and nothing else keeps the two patches from commuting. -/
theorem composeDisjoint_composed (base ours theirs : List Line)
    (hours : ValidScript base ours (captureDiffSlices base ours))
    (htheirs : ValidScript base theirs (captureDiffSlices base theirs)) :
    let es := editsOf ours (captureDiffSlices base ours)
    let fs := editsOf theirs (captureDiffSlices base theirs)
    (∀ out, composeDisjoint captureDiffSlices base ours theirs = some out →
        Composed base ours theirs es fs out) ↔
      (Commute es fs base.length → NotTorn es fs ∧ NotTorn fs es) := by
  intro es fs
  have hes : Ascending base.length 0 es := hours.edits.1
  have hfs : Ascending base.length 0 fs := htheirs.edits.1
  constructor
  · intro h hcommute
    have hcomposed := h _ ((composeDisjoint_eq_some_iff hours htheirs).2 ⟨hcommute, rfl⟩)
    exact ⟨hcomposed.oursClear.notTorn, hcomposed.theirsClear.notTorn⟩
  · intro h out hout
    obtain ⟨hcommute, rfl⟩ := (composeDisjoint_eq_some_iff hours htheirs).1 hout
    obtain ⟨htorn, htorn'⟩ := h hcommute
    have hours' := patch_rebase hes hfs htorn
    have htheirs' := patch_rebase hfs hes htorn'
    rw [patch_editsOf hours] at hours'
    rw [patch_editsOf htheirs] at htheirs'
    refine ⟨noOverlap_of_notTorn htorn hfs hcommute,
      noOverlap_of_notTorn htorn' hes hcommute.symm, ?_, ?_⟩
    · rw [hours']
    · rw [htheirs', ← slots_both_comm hcommute]

end Compose

def adjacentDiff : List Line → List Line → List DiffOp := fun _ new =>
  if new.length = 2 then [.equal 0 0 1, .replace 1 1 1 1]
  else [.equal 0 0 1, .insert 1 1 1, .equal 1 2 1]

theorem composeDisjoint_composed_adjacent :
    let base := [utf8 "x\n", utf8 "y\n"]
    let ours := [utf8 "x\n", utf8 "q\n"]
    let theirs := [utf8 "x\n", utf8 "z\n", utf8 "y\n"]
    Composed base ours theirs (editsOf ours (adjacentDiff base ours))
      (editsOf theirs (adjacentDiff base theirs)) (utf8 "x\nz\nq\n") := by
  intro base ours theirs
  have hours : ValidScript base ours (adjacentDiff base ours) := by
    refine ⟨rfl, rfl, fun k hk => ⟨utf8 "x\n", ?_⟩, rfl, rfl, by decide, by decide, by decide,
      by decide, rfl, rfl⟩
    obtain rfl : k = 0 := by omega
    decide
  have htheirs : ValidScript base theirs (adjacentDiff base theirs) := by
    refine ⟨rfl, rfl, fun k hk => ⟨utf8 "x\n", ?_⟩, rfl, rfl, by decide, rfl, rfl,
      fun k hk => ⟨utf8 "y\n", ?_⟩, rfl, rfl⟩
    all_goals
      obtain rfl : k = 0 := by omega
      decide
  refine (composeDisjoint_composed base ours theirs hours htheirs).2 (fun _ => ⟨?_, ?_⟩) _ (by decide)
  · intro f hf k hstart hstop
    obtain rfl := List.mem_singleton.1 hf
    dsimp only at hstart hstop
    omega
  · intro f hf k hstart hstop
    obtain rfl := List.mem_singleton.1 hf
    dsimp only at hstart hstop
    omega

def tornDiff : List Line → List Line → List DiffOp := fun _ new =>
  if new.length = 2 then [.replace 0 2 0 2] else [.equal 0 0 1, .insert 1 1 1, .equal 1 2 1]

/-- A line inserted between two lines ends up behind what replaces both of them. -/
theorem composeDisjoint_torn :
    ¬ ∀ (captureDiffSlices : List Line → List Line → List DiffOp) (base ours theirs : List Line),
      ValidScript base ours (captureDiffSlices base ours) →
      ValidScript base theirs (captureDiffSlices base theirs) →
      ∀ out, composeDisjoint captureDiffSlices base ours theirs = some out →
        Composed base ours theirs (editsOf ours (captureDiffSlices base ours))
          (editsOf theirs (captureDiffSlices base theirs)) out := by
  intro h
  have hours : ValidScript [utf8 "x\n", utf8 "y\n"] [utf8 "p\n", utf8 "q\n"]
      (tornDiff [utf8 "x\n", utf8 "y\n"] [utf8 "p\n", utf8 "q\n"]) :=
    ⟨rfl, rfl, by decide, by decide, by decide, by decide, rfl, rfl⟩
  have htheirs : ValidScript [utf8 "x\n", utf8 "y\n"] [utf8 "x\n", utf8 "z\n", utf8 "y\n"]
      (tornDiff [utf8 "x\n", utf8 "y\n"] [utf8 "x\n", utf8 "z\n", utf8 "y\n"]) := by
    refine ⟨rfl, rfl, fun k hk => ⟨utf8 "x\n", ?_⟩, rfl, rfl, by decide, rfl, rfl,
      fun k hk => ⟨utf8 "y\n", ?_⟩, rfl, rfl⟩
    all_goals
      obtain rfl : k = 0 := by omega
      decide
  have hcomposed := h tornDiff _ _ _ hours htheirs (utf8 "p\nq\nz\n") (by decide)
  have hclear := (hcomposed.theirsClear ⟨0, 2, [utf8 "p\n", utf8 "q\n"]⟩ List.mem_cons_self).1 1
  exact absurd (hclear (by decide) (by decide)) (by decide)

end Heddle.Merge
