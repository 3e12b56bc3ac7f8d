import Heddle.LineDiff.Longest

namespace Heddle.LineDiff.Arrays
open Heddle.Lib List

/-- A search array: the diagonal `k` is at the index `k + offset`. -/
structure V where
  offset : Int
  values : List Nat

def V.get (v : V) (k : Int) : Except (LineDiffError ε) Nat :=
  if k + v.offset < 0 then .error .panicked
  else v.values[(k + v.offset).toNat]?.elim (.error .panicked) .ok

def V.set (v : V) (k : Int) (value : Nat) : Except (LineDiffError ε) V :=
  if k + v.offset < 0 ∨ v.values.length ≤ (k + v.offset).toNat then .error .panicked
  else .ok ⟨v.offset, v.values.set (k + v.offset).toNat value⟩

def searchStart (v : V) (d : Nat) (k : Int) : Except (LineDiffError ε) Nat := do
  let down ←
    if k = -d then pure true
    else if k = d then pure false
    else do
      let below ← v.get (k - 1)
      let above ← v.get (k + 1)
      pure (decide (below < above))
  if down then v.get (k + 1)
  else
    let below ← v.get (k - 1)
    return below + 1

def searchDiagonals (n m d : Nat) (advance : Nat → Nat → Search ε Nat)
    (meets : Int → Nat → Except (LineDiffError ε) Bool) (split : Nat → Nat → Nat → Nat × Nat) :
    List Int → V → Search ε (V × Option (Nat × Nat))
  | [], v => return (v, none)
  | k :: ks, v => do
    let x ← StateT.lift (searchStart v d k)
    let y := (x - k).toNat
    let matched ← advanceInside n m advance x y
    let v ← StateT.lift (v.set k (x + matched))
    if ← StateT.lift (meets k (x + matched)) then return (v, some (split x y matched))
    else searchDiagonals n m d advance meets split ks v

/-- The other array is read only when the diagonal is one of its last round. -/
def overlaps (n : Nat) (inRange : Prop) [Decidable inRange] (other : V) (k : Int) (x : Nat) :
    Except (LineDiffError ε) Bool :=
  if inRange then do
    let reached ← other.get k
    return decide (n ≤ x + reached)
  else return false

section Search
variable {ε : Type} (old new : LineView) (oldLo oldHi newLo newHi : Nat)

def forwardDiagonals (d : Nat) (vf vb : V) : Search ε (V × Option (Nat × Nat)) :=
  let n := oldHi - oldLo
  let m := newHi - newLo
  let delta := delta oldLo oldHi newLo newHi
  searchDiagonals n m d
    (fun x y => commonPrefix old new (oldLo + x) oldHi (newLo + y) newHi)
    (fun k x => overlaps n (delta % 2 = 1 ∧ |k - delta| ≤ (d : Int) - 1) vb (-(k - delta)) x)
    (fun x y _ => (x + oldLo, y + newLo)) (diagonals d) vf

def backwardDiagonals (d : Nat) (vf vb : V) : Search ε (V × Option (Nat × Nat)) :=
  let n := oldHi - oldLo
  let m := newHi - newLo
  let delta := delta oldLo oldHi newLo newHi
  searchDiagonals n m d
    (fun x y => commonSuffix old new oldLo (oldLo + n - x) newLo (newLo + m - y))
    (fun k x => overlaps n (¬ delta % 2 = 1 ∧ |k - delta| ≤ (d : Int)) vf (-(k - delta)) x)
    (fun x y matched => (n - (x + matched) + oldLo, m - (y + matched) + newLo)) (diagonals d) vb

def searchRounds : List Nat → V → V → Search ε ((V × V) × Option (Nat × Nat))
  | [], vf, vb => return ((vf, vb), none)
  | d :: ds, vf, vb => do
    let (vf, found) ← forwardDiagonals old new oldLo oldHi newLo newHi d vf vb
    if found.isSome then return ((vf, vb), found)
    let (vb, found) ← backwardDiagonals old new oldLo oldHi newLo newHi d vf vb
    if found.isSome then return ((vf, vb), found)
    searchRounds ds vf vb

structure ScratchViews where
  vf : List Nat
  vb : List Nat

def findMiddleSnake (scratch : ScratchViews) : Search ε (ScratchViews × Option (Nat × Nat)) :=
  let n := oldHi - oldLo
  let m := newHi - newLo
  if n = 0 ∨ m = 0 then return (scratch, some (oldLo, newLo))
  else do
    let offset := scratch.vf.length / 2
    let vf ← StateT.lift (V.set ⟨offset, scratch.vf⟩ 1 0)
    let vb ← StateT.lift (V.set ⟨offset, scratch.vb⟩ 1 0)
    let ((vf, vb), found) ← searchRounds old new oldLo oldHi newLo newHi
      (List.range ((n + m + 1) / 2 + 1)) vf vb
    return (⟨vf.values, vb.values⟩, found)

end Search

section Arrays
variable {bound : Nat} {f g : Int → Nat} {k : Int}

/-- The array of the values on the diagonals from `-bound` to `bound`. -/
def V.ofFun (bound : Nat) (f : Int → Nat) : V :=
  ⟨bound, (List.range (2 * bound + 1)).map fun i : Nat => f (i - bound)⟩

theorem V.exists_ofFun {values : List Nat} (h : values.length = 2 * bound + 1) :
    ∃ f, V.ofFun bound f = ⟨bound, values⟩ := by
  refine ⟨fun k => values[(k + bound).toNat]?.getD 0, congrArg (V.mk bound) ?_⟩
  apply ext_getElem (by rw [length_map, length_range, h])
  intro i hi hi'
  have hindex : ((i : Int) - bound + bound).toNat = i := by omega
  rw [getElem_map, getElem_range]
  dsimp only
  rw [hindex, getElem?_eq_getElem hi', Option.getD_some]

theorem V.length_ofFun (bound : Nat) (f : Int → Nat) : (V.ofFun bound f).values.length = 2 * bound + 1 := by
  rw [ofFun, length_map, length_range]

theorem V.get_ofFun (hlow : -(bound : Int) ≤ k) (hhigh : k ≤ bound) :
    (V.ofFun bound f).get (ε := ε) k = .ok (f k) := by
  have hindex : ((k + bound).toNat : Int) - bound = k := by omega
  have hlt : (k + bound).toNat < 2 * bound + 1 := by omega
  unfold V.get ofFun
  rw [if_neg (by dsimp only; omega)]
  dsimp only
  rw [getElem?_map, getElem?_range hlt, Option.map_some, hindex, Option.elim_some]

theorem V.set_ofFun (hlow : -(bound : Int) ≤ k) (hhigh : k ≤ bound) (value : Nat) :
    (V.ofFun bound f).set (ε := ε) k value = .ok (V.ofFun bound (Function.update f k value)) := by
  have hlength := V.length_ofFun bound f
  have hin : ¬ (k + (V.ofFun bound f).offset < 0 ∨
      (V.ofFun bound f).values.length ≤ (k + (V.ofFun bound f).offset).toNat) := by
    rw [hlength]
    dsimp only [ofFun]
    omega
  rw [V.set, if_neg hin]
  refine congrArg (fun values => Except.ok (V.mk bound values)) (ext_getElem? fun i => ?_)
  dsimp only [ofFun]
  rw [getElem?_set, length_map, length_range]
  by_cases hi : i < 2 * bound + 1
  · rw [getElem?_map, getElem?_map, getElem?_range hi, Option.map_some, Option.map_some]
    split
    · rename_i heq
      have hk : (i : Int) - bound = k := by omega
      rw [if_pos (by omega), hk, Function.update_self]
    · rename_i hne
      have hk : (i : Int) - bound ≠ k := by omega
      rw [Function.update_of_ne hk]
  · have hnone : ∀ h : Int → Nat,
        ((List.range (2 * bound + 1)).map fun i : Nat => h (i - bound))[i]? = none := by
      intro h
      apply getElem?_eq_none
      rw [length_map, length_range]
      exact Nat.le_of_not_lt hi
    rw [hnone, hnone, if_neg (by omega)]

theorem lift_ok (a : α) : (StateT.lift (.ok a) : Search ε α) = pure a := rfl

theorem searchStart_ofFun (hd : d + 1 ≤ bound) (hlow : -(d : Int) ≤ k) (hhigh : k ≤ d) :
    searchStart (ε := ε) (V.ofFun bound f) d k = .ok (LineDiff.searchStart f d k) := by
  have habove : (V.ofFun bound f).get (ε := ε) (k + 1) = _ := V.get_ofFun (by omega) (by omega)
  unfold searchStart LineDiff.searchStart
  by_cases hfirst : k = -d
  · rw [if_pos hfirst, if_pos (.inl hfirst)]
    exact habove
  · have hbelow : (V.ofFun bound f).get (ε := ε) (k - 1) = _ := V.get_ofFun (by omega) (by omega)
    rw [if_neg hfirst, habove, hbelow]
    by_cases hlast : k = d
    · rw [if_pos hlast, if_neg (by omega)]
      rfl
    · rw [if_neg hlast]
      by_cases hless : f (k - 1) < f (k + 1)
      · rw [if_pos (.inr ⟨hlast, hless⟩)]
        change (if decide _ = true then _ else _) = _
        rw [if_pos (decide_eq_true hless)]
      · rw [if_neg (by omega)]
        change (if decide _ = true then _ else _) = _
        rw [if_neg (by rw [decide_eq_true_eq]; exact hless)]
        rfl

theorem overlaps_ofFun {inRange : Prop} [Decidable inRange]
    (h : inRange → -(bound : Int) ≤ k ∧ k ≤ bound) (x : Nat) :
    overlaps (ε := ε) n inRange (V.ofFun bound f) k x = .ok (decide (inRange ∧ n ≤ x + f k)) := by
  unfold overlaps
  split
  · rename_i hin
    rw [V.get_ofFun (h hin).1 (h hin).2, decide_eq_decide.2 (and_iff_right hin)]
    rfl
  · rename_i hout
    rw [decide_eq_false fun hboth => hout hboth.1]
    rfl

theorem searchDiagonals_ofFun {advance : Nat → Nat → Search ε Nat} {meets : Int → Nat → Bool}
    {meets' : Int → Nat → Except (LineDiffError ε) Bool} (hd : d + 1 ≤ bound) (ks : List Int)
    (hks : ∀ k ∈ ks, k ∈ diagonals d) (hmeets : ∀ k ∈ ks, ∀ x, meets' k x = .ok (meets k x)) :
    searchDiagonals n m d advance meets' split ks (V.ofFun bound f) =
      (fun result => (V.ofFun bound result.1, result.2)) <$>
        LineDiff.searchDiagonals n m d advance meets split ks f := by
  induction ks generalizing f with
  | nil => rfl
  | cons k ks ih =>
    obtain ⟨hlow, hhigh, _⟩ := mem_diagonals.1 (hks k mem_cons_self)
    unfold searchDiagonals LineDiff.searchDiagonals
    rw [searchStart_ofFun hd hlow hhigh, lift_ok, pure_bind, map_bind]
    refine bind_congr fun matched => ?_
    rw [V.set_ofFun (by omega) (by omega), lift_ok, pure_bind, hmeets k mem_cons_self, lift_ok,
      pure_bind]
    split
    · rfl
    · exact ih (fun j hj => hks j (mem_cons_of_mem k hj)) fun j hj => hmeets j (mem_cons_of_mem k hj)

variable {old new : LineView} {oldLo oldHi newLo newHi : Nat}

theorem forwardDiagonals_ofFun (hd : d + 1 ≤ bound) :
    forwardDiagonals (ε := ε) old new oldLo oldHi newLo newHi d (V.ofFun bound f) (V.ofFun bound g) =
      (fun result => (V.ofFun bound result.1, result.2)) <$>
        LineDiff.forwardDiagonals old new oldLo oldHi newLo newHi d f g := by
  apply searchDiagonals_ofFun hd _ (fun _ h => h)
  intro k hk x
  rw [overlaps_ofFun]
  · simp only [and_assoc]
  · rintro ⟨_, hclose⟩
    have hwithin := abs_le.1 hclose
    omega

theorem backwardDiagonals_ofFun (hd : d + 1 ≤ bound) :
    backwardDiagonals (ε := ε) old new oldLo oldHi newLo newHi d (V.ofFun bound f) (V.ofFun bound g) =
      (fun result => (V.ofFun bound result.1, result.2)) <$>
        LineDiff.backwardDiagonals old new oldLo oldHi newLo newHi d f g := by
  apply searchDiagonals_ofFun hd _ (fun _ h => h)
  intro k hk x
  rw [overlaps_ofFun]
  · simp only [and_assoc]
  · rintro ⟨_, hclose⟩
    have hwithin := abs_le.1 hclose
    omega

theorem searchRounds_ofFun (ds : List Nat) (hds : ∀ d ∈ ds, d + 1 ≤ bound) (scratch : Scratch) :
    searchRounds (ε := ε) old new oldLo oldHi newLo newHi ds (V.ofFun bound scratch.vf)
        (V.ofFun bound scratch.vb) =
      (fun result => ((V.ofFun bound result.1.vf, V.ofFun bound result.1.vb), result.2)) <$>
        LineDiff.searchRounds old new oldLo oldHi newLo newHi ds scratch := by
  induction ds generalizing scratch with
  | nil => rfl
  | cons d ds ih =>
    have hd := hds d mem_cons_self
    unfold searchRounds LineDiff.searchRounds
    rw [forwardDiagonals_ofFun hd, bind_map_left, map_bind]
    refine bind_congr fun forward => ?_
    obtain ⟨vf, found⟩ := forward
    dsimp only
    split
    · rfl
    · rw [backwardDiagonals_ofFun hd, bind_map_left, map_bind]
      refine bind_congr fun backward => ?_
      obtain ⟨vb, found⟩ := backward
      dsimp only
      split
      · rfl
      · exact ih (fun d hd => hds d (mem_cons_of_mem _ hd)) ⟨vf, vb⟩

def viewsOf (bound : Nat) (scratch : Scratch) : ScratchViews :=
  ⟨(V.ofFun bound scratch.vf).values, (V.ofFun bound scratch.vb).values⟩

theorem findMiddleSnake_viewsOf (h : ((oldHi - oldLo) + (newHi - newLo) + 1) / 2 + 1 ≤ bound)
    (scratch : Scratch) :
    findMiddleSnake (ε := ε) old new oldLo oldHi newLo newHi (viewsOf bound scratch) =
      (fun result => (viewsOf bound result.1, result.2)) <$>
        LineDiff.findMiddleSnake old new oldLo oldHi newLo newHi scratch := by
  unfold findMiddleSnake LineDiff.findMiddleSnake
  dsimp only
  split
  · rfl
  · have hoffset : (viewsOf bound scratch).vf.length / 2 = bound := by
      have hlength := V.length_ofFun bound scratch.vf
      change (viewsOf bound scratch).vf.length = _ at hlength
      omega
    have hvf : V.set (ε := ε) ⟨bound, (viewsOf bound scratch).vf⟩ 1 0 = _ :=
      V.set_ofFun (f := scratch.vf) (by omega) (by omega) 0
    have hvb : V.set (ε := ε) ⟨bound, (viewsOf bound scratch).vb⟩ 1 0 = _ :=
      V.set_ofFun (f := scratch.vb) (by omega) (by omega) 0
    rw [hoffset, hvf, hvb, lift_ok, lift_ok, pure_bind, pure_bind]
    rw [searchRounds_ofFun _ _ ⟨Function.update scratch.vf 1 0, Function.update scratch.vb 1 0⟩,
      bind_map_left, map_eq_pure_bind]
    · rfl
    · intro d hd
      have hlt := mem_range.1 hd
      omega

end Arrays

section Splits
variable {old new : LineView} {a b : List Bytes} {oldLo oldHi newLo newHi pre suffix : Nat}
  {scratch : ScratchViews}

/-- The arrays have the length that is laid out for the whole texts. -/
structure ScratchViews.Sized (scratch : ScratchViews) (a b : List Bytes) : Prop where
  vf : scratch.vf.length = 2 * maxD a.length b.length + 1
  vb : scratch.vb.length = 2 * maxD a.length b.length + 1

theorem ScratchViews.Sized.exists_viewsOf (h : scratch.Sized a b) :
    ∃ total, viewsOf (maxD a.length b.length) total = scratch := by
  obtain ⟨f, hf⟩ := V.exists_ofFun h.vf
  obtain ⟨g, hg⟩ := V.exists_ofFun h.vb
  refine ⟨⟨f, g⟩, ?_⟩
  rw [viewsOf, hf, hg]

theorem viewsOf_sized (total : Scratch) : (viewsOf (maxD a.length b.length) total).Sized a b :=
  ⟨V.length_ofFun _ _, V.length_ofFun _ _⟩

/-- A split on a cheapest way, with a smaller range on either side. -/
structure SplitsRange (a b : List Bytes) (oldLo oldHi newLo newHi splitOld splitNew : Nat) : Prop where
  old : oldLo ≤ splitOld ∧ splitOld ≤ oldHi
  new : newLo ≤ splitNew ∧ splitNew ≤ newHi
  left : (splitOld - oldLo) + (splitNew - newLo) < (oldHi - oldLo) + (newHi - newLo)
  right : (oldHi - splitOld) + (newHi - splitNew) < (oldHi - oldLo) + (newHi - newLo)
  shortest : editCost (segment a oldLo oldHi) (segment b newLo newHi) (splitOld - oldLo)
      (splitNew - newLo) +
    restCost (segment a oldLo oldHi) (segment b newLo newHi) (splitOld - oldLo) (splitNew - newLo) =
      editDistance (segment a oldLo oldHi) (segment b newLo newHi)

theorem findMiddleSnake_splits (e : Edges ε old new a b oldLo oldHi newLo newHi pre suffix)
    (hinner : oldLo + pre < oldHi - suffix ∧ newLo + pre < newHi - suffix)
    (hsized : scratch.Sized a b) :
    ∃ scratch' splitOld splitNew,
      Yields (findMiddleSnake (ε := ε) old new (oldLo + pre) (oldHi - suffix) (newLo + pre)
        (newHi - suffix) scratch) (scratch', some (splitOld, splitNew)) ∧ scratch'.Sized a b ∧
      SplitsRange a b (oldLo + pre) (oldHi - suffix) (newLo + pre) (newHi - suffix) splitOld
        splitNew := by
  obtain ⟨total, rfl⟩ := hsized.exists_viewsOf
  obtain ⟨total', x, y, hfound, hmiddle⟩ := e.inner.findMiddleSnake_yields (ε := ε) hinner.1 hinner.2
    total
  have hbound : ((oldHi - suffix - (oldLo + pre)) + (newHi - suffix - (newLo + pre)) + 1) / 2 + 1 ≤
      maxD a.length b.length := by
    have hold := e.inner.oldIn
    have hnew := e.inner.newIn
    unfold maxD
    omega
  have hyields := Yields.map (fun result => (viewsOf (maxD a.length b.length) result.1, result.2))
    hfound
  rw [← findMiddleSnake_viewsOf hbound] at hyields
  refine ⟨_, _, _, hyields, viewsOf_sized total', ?_⟩
  have hold := e.inner.oldLength
  have hnew := e.inner.newLength
  have hx := hmiddle.oldIn
  have hy := hmiddle.newIn
  have hinside := hmiddle.inside (e.two_le hinner)
  refine ⟨by omega, by omega, by omega, by omega, ?_⟩
  rw [Nat.add_sub_cancel, Nat.add_sub_cancel]
  exact Nat.le_antisymm hmiddle.path (editDistance_le hx hy)

end Splits

section Loop
variable {old new : LineView} {a b : List Bytes} {job : ConquerJob} {jobs : List ConquerJob}
  {scratch : ScratchViews} {capacity : Nat}

/-- A job on a part of each text; the job of an equal run has empty parts. -/
structure JobInside (a b : List Bytes) (job : ConquerJob) : Prop where
  oldLe : job.oldLo ≤ job.oldHi
  newLe : job.newLo ≤ job.newHi
  oldIn : job.oldHi ≤ a.length ∧ job.oldHi < 2 ^ 32
  newIn : job.newHi ≤ b.length ∧ job.newHi < 2 ^ 32

/-- The most jobs that stand for the job at one time. -/
def slots (job : ConquerJob) : Nat :=
  max 1 ((job.oldHi - job.oldLo) + (job.newHi - job.newLo))

def room (jobs : List ConquerJob) : Nat := (jobs.map slots).sum

/-- A round takes a job of `slots` at least one down. -/
def roundsLeft (jobs : List ConquerJob) : Nat := (jobs.map fun job => 2 * slots job - 1).sum

theorem room_append (jobs jobs' : List ConquerJob) : room (jobs ++ jobs') = room jobs + room jobs' := by
  rw [room, map_append, sum_append]
  rfl

theorem roundsLeft_append (jobs jobs' : List ConquerJob) :
    roundsLeft (jobs ++ jobs') = roundsLeft jobs + roundsLeft jobs' := by
  rw [roundsLeft, map_append, sum_append]
  rfl

theorem length_le_room (jobs : List ConquerJob) : jobs.length ≤ room jobs := by
  induction jobs with
  | nil => exact Nat.zero_le _
  | cons job jobs ih =>
    have hone : 1 ≤ slots job := le_max_left _ _
    rw [room, map_cons, sum_cons, length_cons]
    rw [room] at ih
    omega

theorem jobInside_equalJob (x y n : Nat) : JobInside a b (equalJob x y n) :=
  ⟨le_rfl, le_rfl, ⟨Nat.zero_le _, Nat.two_pow_pos 32⟩, ⟨Nat.zero_le _, Nat.two_pow_pos 32⟩⟩

theorem jobInside_rangeJob (hold : oldLo ≤ oldHi ∧ oldHi ≤ a.length ∧ oldHi < 2 ^ 32)
    (hnew : newLo ≤ newHi ∧ newHi ≤ b.length ∧ newHi < 2 ^ 32) :
    JobInside a b (rangeJob oldLo oldHi newLo newHi) ∧
      slots (rangeJob oldLo oldHi newLo newHi) = max 1 ((oldHi - oldLo) + (newHi - newLo)) := by
  unfold slots rangeJob
  rw [asU32_eq (by omega), asU32_eq (by omega), asU32_eq (by omega), asU32_eq (by omega)]
  exact ⟨⟨hold.1, hnew.1, hold.2, hnew.2⟩, rfl⟩

/-- What the round of a range leaves: the jobs that it pushed, in the room of its own. -/
structure Pushed (a b : List Bytes) (job : ConquerJob) (pushed : List ConquerJob) : Prop where
  inside : ∀ job' ∈ pushed, JobInside a b job'
  room : room pushed ≤ slots job
  roundsLeft : roundsLeft pushed < 2 * slots job - 1

theorem equalJobs_inside (x y n : Nat) : ∀ job ∈ equalJobs x y n, JobInside a b job := by
  unfold equalJobs
  split
  · exact fun job hjob => mem_singleton.1 hjob ▸ jobInside_equalJob x y n
  · exact fun job hjob => absurd hjob not_mem_nil

theorem equalJobs_room (x y n : Nat) :
    room (equalJobs x y n) ≤ n ∧ roundsLeft (equalJobs x y n) ≤ n := by
  unfold equalJobs
  split
  · exact ⟨‹0 < n›, ‹0 < n›⟩
  · exact ⟨Nat.zero_le n, Nat.zero_le n⟩

theorem conquerRange_yields (e : Edges ε old new a b job.oldLo job.oldHi job.newLo job.newHi pre suffix)
    (hjob : JobInside a b job) (hsized : scratch.Sized a b)
    (hcapacity : slots job + jobs.length ≤ capacity)
    {emitRun : EqualRun → σ → Except (LineDiffError ε) σ}
    (hemit : emitPrefix emitRun job.oldLo job.newLo pre emit = .ok emit') :
    ∃ pushed scratch', Yields (conquerRange old new (findMiddleSnake old new) capacity emitRun job jobs
        scratch emit) (pushed ++ jobs, scratch', emit') ∧ scratch'.Sized a b ∧ Pushed a b job pushed := by
  obtain ⟨holdLe, hnewLe, holdIn, hnewIn⟩ := hjob
  have holdRoom := e.oldRoom
  have hnewRoom := e.newRoom
  have hslots : (job.oldHi - job.oldLo) + (job.newHi - job.newLo) ≤ slots job := le_max_right _ _
  have hone : 1 ≤ slots job := le_max_left _ _
  have hequal := equalJobs_length_le (job.oldHi - suffix) (job.newHi - suffix) suffix
  have hlast := equalJobs_inside (a := a) (b := b) (job.oldHi - suffix) (job.newHi - suffix) suffix
  obtain ⟨hroom, hrounds⟩ := equalJobs_room (job.oldHi - suffix) (job.newHi - suffix) suffix
  have hpush : pushSuffix (ε := ε) capacity (job.oldHi - suffix) (job.newHi - suffix) suffix jobs =
      .ok _ := pushSuffix_eq (by omega)
  by_cases hended : job.oldHi - suffix ≤ job.oldLo + pre ∨ job.newHi - suffix ≤ job.newLo + pre
  · refine ⟨_, scratch, e.preYields.bind ((Yields.lift hemit).bind (e.suffixYields.bind ?_)), hsized,
      hlast, by omega, by omega⟩
    rw [if_pos hended]
    exact (Yields.lift hpush).bind (.pure _)
  · obtain ⟨scratch', splitOld, splitNew, hfound, hsized', hsplit⟩ :=
      findMiddleSnake_splits e (by omega) hsized
    have hold := hsplit.old
    have hnew := hsplit.new
    have hsmallLeft := hsplit.left
    have hsmallRight := hsplit.right
    obtain ⟨hright, hrightSlots⟩ : JobInside a b
        (rangeJob splitOld (job.oldHi - suffix) splitNew (job.newHi - suffix)) ∧ slots _ = _ :=
      jobInside_rangeJob (by omega) (by omega)
    obtain ⟨hleft, hleftSlots⟩ : JobInside a b
        (rangeJob (job.oldLo + pre) splitOld (job.newLo + pre) splitNew) ∧ slots _ = _ :=
      jobInside_rangeJob (by omega) (by omega)
    refine ⟨rangeJob (job.oldLo + pre) splitOld (job.newLo + pre) splitNew ::
        rangeJob splitOld (job.oldHi - suffix) splitNew (job.newHi - suffix) ::
        equalJobs (job.oldHi - suffix) (job.newHi - suffix) suffix, scratch',
      e.preYields.bind ((Yields.lift hemit).bind (e.suffixYields.bind ?_)), hsized', ?_⟩
    · rw [if_neg hended]
      refine hfound.bind ((Yields.lift hpush).bind
        ((Yields.lift (pushJob_eq ?_ _)).bind ((Yields.lift (pushJob_eq ?_ _)).bind (.pure _))))
      · rw [length_append]
        omega
      · rw [length_cons, length_append]
        omega
    · refine ⟨forall_mem_cons.2 ⟨hleft, forall_mem_cons.2 ⟨hright, hlast⟩⟩, ?_, ?_⟩
      · rw [room, map_cons, map_cons, sum_cons, sum_cons, hleftSlots, hrightSlots]
        rw [room] at hroom
        omega
      · rw [roundsLeft, map_cons, map_cons, sum_cons, sum_cons, hleftSlots, hrightSlots]
        rw [roundsLeft] at hrounds
        omega

structure LoopInv (a b : List Bytes) (s : ConquerState ScratchViews σ) : Prop where
  inside : ∀ job ∈ s.jobs, JobInside a b job
  room : room s.jobs ≤ a.length + b.length + 8
  sized : s.scratch.Sized a b
  budget : s.budget.Unlimited

variable (emitRun : EqualRun → σ → Except (LineDiffError ε) σ)

theorem emitPrefix_error {emitRun : EqualRun → σ → Except (LineDiffError ε) σ}
    (h : emitPrefix emitRun oldLo newLo pre emit = .error error) :
    ∃ run, emitRun run emit = .error error := by
  unfold emitPrefix at h
  split at h
  · exact ⟨_, h⟩
  · cases h

theorem conquerRound_inv (hold : old.Shows a) (hnew : new.Shows b) {s : ConquerState ScratchViews σ}
    (h : LoopInv a b s) :
    (∃ s', conquerRound old new (findMiddleSnake old new) (a.length + b.length + 8) emitRun s = .next s' ∧
      LoopInv a b s' ∧ roundsLeft s'.jobs < roundsLeft s.jobs) ∨
    ∃ result, conquerRound old new (findMiddleSnake old new) (a.length + b.length + 8) emitRun s =
      .done result ∧ ∀ error, result = .error error → ∃ run emit, emitRun run emit = .error error := by
  obtain ⟨jobs, scratch, emit, budget⟩ := s
  obtain ⟨hinside, hroom, hsized, hbudget⟩ := h
  unfold conquerRound
  cases jobs with
  | nil => exact .inr ⟨_, rfl, fun _ herror => nomatch herror⟩
  | cons job jobs =>
    obtain ⟨hjob, hrest⟩ := forall_mem_cons.1 hinside
    have hone : 1 ≤ slots job := le_max_left _ _
    have hcons : room (job :: jobs) = slots job + room jobs := sum_cons
    have hrounds : roundsLeft (job :: jobs) = 2 * slots job - 1 + roundsLeft jobs := sum_cons
    dsimp only at hroom hsized hbudget ⊢
    cases job.kind with
    | equal =>
      dsimp only
      split
      · exact .inl ⟨_, rfl, ⟨hrest, by dsimp only; omega, hsized, hbudget⟩, by dsimp only; omega⟩
      · cases hemit : emitRun ⟨job.eqOld, job.eqNew, job.eqLen⟩ emit with
        | error error =>
          refine .inr ⟨_, rfl, fun error' herror => ?_⟩
          exact ⟨_, emit, hemit.trans (congrArg Except.error (Except.error.inj herror))⟩
        | ok emit' =>
          exact .inl ⟨_, rfl, ⟨hrest, by dsimp only; omega, hsized, hbudget⟩, by dsimp only; omega⟩
    | range =>
      have hframe : Frame old new a b job.oldLo job.oldHi job.newLo job.newHi :=
        ⟨hold, hnew, hjob.oldLe, hjob.newLe, hjob.oldIn.1, hjob.newIn.1⟩
      obtain ⟨pre, suffix, e⟩ := hframe.exists_edges (ε := ε)
      have hlength := length_le_room jobs
      have hcapacity : slots job + jobs.length ≤ a.length + b.length + 8 := by omega
      dsimp only
      cases hemit : emitPrefix emitRun job.oldLo job.newLo pre emit with
      | error error =>
        obtain ⟨budget', hpre, _⟩ := e.preYields budget hbudget
        have hrun : (conquerRange old new (findMiddleSnake old new) (a.length + b.length + 8) emitRun
            job jobs scratch emit).run budget = .error error := by
          rw [conquerRange, StateT.run_bind, hpre]
          dsimp only [bind, Except.bind]
          rw [hemit]
          rfl
        rw [hrun]
        refine .inr ⟨_, rfl, fun error' herror => ?_⟩
        obtain ⟨run, hfails⟩ := emitPrefix_error hemit
        exact ⟨run, emit, hfails.trans (congrArg Except.error (Except.error.inj herror))⟩
      | ok emit' =>
        obtain ⟨pushed, scratch', hyields, hsized', hpushed⟩ := conquerRange_yields e hjob hsized
          hcapacity hemit
        obtain ⟨budget', hrun, hbudget'⟩ := hyields budget hbudget
        rw [hrun]
        have hroom' := hpushed.room
        have hrounds' := hpushed.roundsLeft
        refine .inl ⟨_, rfl, ⟨?_, ?_, hsized', hbudget'⟩, ?_⟩
        · exact fun job' hjob' => (mem_append.1 hjob').elim (hpushed.inside job') (hrest job')
        · rw [room_append]
          omega
        · rw [roundsLeft_append]
          omega

theorem loopInv_start (hsized : scratch.Sized a b) {budget : ResourceBudget}
    (hbudget : budget.Unlimited) (emit : σ) :
    LoopInv a b ⟨[rangeJob 0 a.length 0 b.length], scratch, emit, budget⟩ := by
  have hpos : 0 < 2 ^ 32 := Nat.two_pow_pos 32
  have hjob : rangeJob 0 a.length 0 b.length = rangeJob 0 (a.length % 2 ^ 32) 0 (b.length % 2 ^ 32) := by
    rw [rangeJob, rangeJob, asU32_eq (Nat.mod_lt _ hpos), asU32_eq (Nat.mod_lt _ hpos)]
    rfl
  have holdLe := Nat.mod_le a.length (2 ^ 32)
  have hnewLe := Nat.mod_le b.length (2 ^ 32)
  obtain ⟨hinside, hslots⟩ : JobInside a b (rangeJob 0 (a.length % 2 ^ 32) 0 (b.length % 2 ^ 32)) ∧
      slots _ = _ :=
    jobInside_rangeJob ⟨Nat.zero_le _, holdLe, Nat.mod_lt _ hpos⟩
      ⟨Nat.zero_le _, hnewLe, Nat.mod_lt _ hpos⟩
  rw [← hjob] at hinside hslots
  refine ⟨fun job hjob' => mem_singleton.1 hjob' ▸ hinside, ?_, hsized, hbudget⟩
  change slots _ + 0 ≤ _
  omega

/-- The search and its loop keep inside the scratch of two texts, whatever the arrays hold. -/
structure InsideScratch (ε : Type) (old new : LineView) (a b : List Bytes) : Prop where
  splits : ∀ oldLo oldHi newLo newHi pre suffix, oldLo ≤ oldHi → newLo ≤ newHi → oldHi ≤ a.length →
    newHi ≤ b.length → Yields (commonPrefix (ε := ε) old new oldLo oldHi newLo newHi) pre →
    Yields (commonSuffix (ε := ε) old new (oldLo + pre) oldHi (newLo + pre) newHi) suffix →
    oldLo + pre < oldHi - suffix → newLo + pre < newHi - suffix →
    ∀ scratch : ScratchViews, scratch.Sized a b → ∃ scratch' splitOld splitNew,
      Yields (findMiddleSnake (ε := ε) old new (oldLo + pre) (oldHi - suffix) (newLo + pre)
        (newHi - suffix) scratch) (scratch', some (splitOld, splitNew)) ∧ scratch'.Sized a b ∧
      SplitsRange a b (oldLo + pre) (oldHi - suffix) (newLo + pre) (newHi - suffix) splitOld splitNew
  stack : ∀ {σ : Type} (emitRun : EqualRun → σ → Except (LineDiffError ε) σ) (scratch : ScratchViews)
    (emit : σ) (budget : ResourceBudget), scratch.Sized a b → budget.Unlimited →
    ∀ s, Rounds (conquerRound old new (findMiddleSnake old new) (a.length + b.length + 8) emitRun)
        ⟨[rangeJob 0 a.length 0 b.length], scratch, emit, budget⟩ s →
      s.jobs.length ≤ a.length + b.length + 8 ∧ s.scratch.Sized a b ∧
        ∀ job ∈ s.jobs, JobInside a b job
  returns : ∀ {σ : Type} (emitRun : EqualRun → σ → Except (LineDiffError ε) σ)
    (scratch : ScratchViews) (emit : σ) (budget : ResourceBudget), scratch.Sized a b →
    budget.Unlimited →
    ∃ result, Returns (fun fuel => conquer old new (findMiddleSnake old new) (a.length + b.length + 8)
        emitRun fuel scratch emit budget) result ∧
      ∀ error, result = .error error → ∃ run emit, emitRun run emit = .error error

theorem conquerRound_next (hold : old.Shows a) (hnew : new.Shows b) (s s' : ConquerState ScratchViews σ)
    (h : LoopInv a b s)
    (hround : conquerRound old new (findMiddleSnake old new) (a.length + b.length + 8) emitRun s =
      .next s') : LoopInv a b s' ∧ roundsLeft s'.jobs < roundsLeft s.jobs := by
  rcases conquerRound_inv emitRun hold hnew h with ⟨s'', hround', hinv⟩ | ⟨_, hround', _⟩
  · obtain rfl := Round.next.inj (hround.symm.trans hround')
    exact hinv
  · exact nomatch hround.symm.trans hround'

theorem conquerRound_done (hold : old.Shows a) (hnew : new.Shows b) (s : ConquerState ScratchViews σ)
    (result : Except (LineDiffError ε) (σ × ResourceBudget)) (h : LoopInv a b s)
    (hround : conquerRound old new (findMiddleSnake old new) (a.length + b.length + 8) emitRun s =
      .done result) : ∀ error, result = .error error → ∃ run emit, emitRun run emit = .error error := by
  rcases conquerRound_inv emitRun hold hnew h with ⟨_, hround', _⟩ | ⟨_, hround', hfails⟩
  · exact nomatch hround.symm.trans hround'
  · obtain rfl := Round.done.inj (hround.symm.trans hround')
    exact hfails

theorem conquer_inside_scratch (hold : old.Shows a) (hnew : new.Shows b) :
    InsideScratch ε old new a b where
  splits := by
    intro oldLo oldHi newLo newHi pre suffix holdLe hnewLe holdIn hnewIn hpre hsuffix holdLt hnewLt
      scratch hsized
    have hframe : Frame old new a b oldLo oldHi newLo newHi :=
      ⟨hold, hnew, holdLe, hnewLe, holdIn, hnewIn⟩
    obtain ⟨pre', suffix', e⟩ := hframe.exists_edges (ε := ε)
    obtain rfl := e.preYields.unique hpre
    obtain rfl := e.suffixYields.unique hsuffix
    exact findMiddleSnake_splits e ⟨holdLt, hnewLt⟩ hsized
  stack := by
    intro σ emitRun scratch emit budget hsized hbudget s hrounds
    have hinv : LoopInv a b s := by
      induction hrounds with
      | refl => exact loopInv_start hsized hbudget emit
      | tail _ hround ih => exact (conquerRound_next emitRun hold hnew _ _ ih hround).1
    exact ⟨(length_le_room s.jobs).trans hinv.room, hinv.sized, hinv.inside⟩
  returns := by
    intro σ emitRun scratch emit budget hsized hbudget
    obtain ⟨result, hreturns, hfails⟩ := runLoop_returns (fun s => roundsLeft s.jobs)
      (conquerRound_next emitRun hold hnew) (conquerRound_done emitRun hold hnew)
      (loopInv_start hsized hbudget emit)
    refine ⟨result, ?_, hfails⟩
    unfold conquer
    rw [hold.length, hnew.length, pushJob_eq (Nat.succ_pos _)]
    exact hreturns

theorem conquer_inside_scratch_removedLine :
    InsideScratch Empty (viewOf (utf8 "a\nb\n")) (viewOf (utf8 "b\n")) (strLines (utf8 "a\nb\n"))
      (strLines (utf8 "b\n")) :=
  conquer_inside_scratch
    (fillLineOffsets_shows (ε := Empty) (congrArg Option.isSome (fromUtf8_utf8 _))).2
    (fillLineOffsets_shows (ε := Empty) (congrArg Option.isSome (fromUtf8_utf8 _))).2

end Loop

end Heddle.LineDiff.Arrays
