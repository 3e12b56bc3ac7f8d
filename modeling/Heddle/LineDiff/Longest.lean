import Heddle.LineDiff.Emission

namespace Heddle.LineDiff
open Heddle.Lib Heddle.Merge

def collect (runs : List EqualRun) (run : EqualRun) : Except ε (List EqualRun) := .ok (runs ++ [run])

/-- The runs are in order and disjoint, over equal lines, and pair as many lines as any alignment. -/
structure LongestAlignment (xs ys : List α) (runs : List EqualRun) : Prop where
  nonempty : ∀ run ∈ runs, 0 < run.len
  ordered : runs.Pairwise fun run next =>
    run.oldStart + run.len ≤ next.oldStart ∧ run.newStart + run.len ≤ next.newStart
  equal : ∀ run ∈ runs, ∀ i < run.len, MatchAt xs ys (run.oldStart + i) (run.newStart + i)
  longest : pairedLines runs = lcsLength xs ys

def viewOf (bytes : Bytes) : LineView := ⟨bytes, fillFrom bytes 0 (strLines bytes)⟩

section Search
variable {old new : LineView} {a b : List Bytes}

theorem conquer_returns (hold : old.Shows a) (hnew : new.Shows b)
    (hcapacity : a.length + b.length < capacity) (scratch : Scratch) :
    ∃ runs, Aligns a b 0 0 runs (a.length % 2 ^ 32) (b.length % 2 ^ 32) ∧
      pairedLines runs =
        lcsLength (a.take (a.length % 2 ^ 32)) (b.take (b.length % 2 ^ 32)) ∧
      ∀ {σ : Type} (emitRun : EqualRun → σ → Except (LineDiffError ε) σ) (emit emit' : σ)
        (budget : ResourceBudget), budget.Unlimited →
        runs.foldlM (fun s run => emitRun run s) emit = .ok emit' →
        ∃ budget', Returns (fun fuel =>
          conquer old new (findMiddleSnake old new) capacity emitRun fuel scratch emit budget)
          (.ok (emit', budget')) := by
  have hpos : 0 < 2 ^ 32 := by decide
  have hframe : Frame old new a b 0 (a.length % 2 ^ 32) 0 (b.length % 2 ^ 32) :=
    ⟨hold, hnew, Nat.zero_le _, Nat.zero_le _, Nat.mod_le _ _, Nat.mod_le _ _⟩
  obtain ⟨runs, scratch', haligns, hpaired, hconquers⟩ := hframe.conquers (ε := ε)
    (Nat.mod_lt _ hpos) (Nat.mod_lt _ hpos) scratch
  refine ⟨runs, haligns, hpaired, fun emitRun emit emit' budget hbudget hfold => ?_⟩
  have holdLe := Nat.mod_le a.length (2 ^ 32)
  have hnewLe := Nat.mod_le b.length (2 ^ 32)
  have hroom : ([] : List ConquerJob).length +
      ((a.length % 2 ^ 32 - 0) + (b.length % 2 ^ 32 - 0)) ≤ capacity := by
    rw [List.length_nil]
    omega
  obtain ⟨budget', _, hrounds⟩ := hconquers emitRun [] emit emit' budget hroom hbudget hfold
  have hjob : rangeJob 0 old.offs.length 0 new.offs.length =
      rangeJob 0 (a.length % 2 ^ 32) 0 (b.length % 2 ^ 32) := by
    rw [rangeJob, rangeJob, asU32_eq (Nat.mod_lt _ hpos), asU32_eq (Nat.mod_lt _ hpos), hold.length,
      hnew.length]
    rfl
  refine ⟨budget', ?_⟩
  unfold conquer
  rw [hjob, pushJob_eq (by rw [List.length_nil]; omega)]
  exact hrounds.returns (returns_done rfl)

theorem foldlM_collect (runs before : List EqualRun) :
    runs.foldlM (fun s run => (collect s run : Except ε _)) before = .ok (before ++ runs) := by
  induction runs generalizing before with
  | nil => rw [List.append_nil]; rfl
  | cons run runs ih =>
    rw [List.foldlM_cons, collect]
    refine (ih (before ++ [run])).trans ?_
    rw [List.append_assoc]
    rfl

end Search

section Visit
variable {budget : ResourceBudget}

theorem requireBudget_eq (h : needed % 2 ^ 64 ≤ budget.limit kind) :
    ∃ budget', requireBudget (ε := ε) budget kind needed = .ok budget' ∧
      budget'.limits = budget.limits := by
  obtain ⟨budget', hrequire, hlimits⟩ := ResourceBudget.require_eq_ok h
  refine ⟨budget', ?_, hlimits⟩
  rw [requireBudget, hrequire]
  rfl

theorem visitLcsEqualRuns_eq (hold : (fromUtf8 oldBytes).isSome) (hnew : (fromUtf8 newBytes).isSome)
    (hbudget : budget.Unlimited) (hlimit : scratchLen ≤ budget.limit .scratchBytes)
    (hroom : pad + layoutSizes (strLines oldBytes).length (strLines newBytes).length ≤ scratchLen)
    (visit : σ → EqualRun → Except ε σ) (s : σ) :
    ∃ budget', budget'.Unlimited ∧ ∀ fuel,
      visitLcsEqualRuns fuel oldBytes newBytes scratchLen pad budget visit s =
        (emitEqualRuns fuel (viewOf oldBytes) (viewOf newBytes)
          ((strLines oldBytes).length + (strLines newBytes).length + 8) zeroScratch budget' visit s).map
            fun result => result.map fun visited => (visited.1.visited, visited.2) := by
  have hlines : ∀ n, n % 2 ^ 64 ≤ u64Max := by
    intro n
    have hlt := Nat.mod_lt n (show 0 < 2 ^ 64 by decide)
    exact Nat.le_sub_one_of_lt hlt
  have hkind : ResourceKind.lines ≠ .scratchBytes := by decide
  have holdLines := (hlines (strLines oldBytes).length).trans_eq (hbudget .lines hkind).symm
  obtain ⟨budget₁, hrequire₁, hlimits₁⟩ := requireBudget_eq (ε := ε) holdLines
  have hbudget₁ := hbudget.of_limits hlimits₁
  have hnewLines := (hlines (strLines newBytes).length).trans_eq (hbudget₁ .lines hkind).symm
  obtain ⟨budget₂, hrequire₂, hlimits₂⟩ := requireBudget_eq (ε := ε) hnewLines
  have hscratch : (pad + layoutSizes (strLines oldBytes).length (strLines newBytes).length) % 2 ^ 64 ≤
      budget₂.limit .scratchBytes := by
    rw [ResourceBudget.limit, hlimits₂, hlimits₁]
    exact (Nat.mod_le _ _).trans (hroom.trans hlimit)
  obtain ⟨budget₃, hrequire₃, hlimits₃⟩ := requireBudget_eq (ε := ε) hscratch
  refine ⟨budget₃, (hbudget₁.of_limits hlimits₂).of_limits hlimits₃, fun fuel => ?_⟩
  have hpad : ¬ scratchLen < pad := by omega
  have hneeded : ¬ scratchLen - pad <
      layoutSizes (strLines oldBytes).length (strLines newBytes).length := by omega
  have hcount : ¬ ((fillFrom oldBytes 0 (strLines oldBytes)).length ≠ (strLines oldBytes).length ∨
      (fillFrom newBytes 0 (strLines newBytes)).length ≠ (strLines newBytes).length) := by
    rw [fillFrom_length, fillFrom_length]
    exact not_or.2 ⟨not_not.2 rfl, not_not.2 rfl⟩
  unfold visitLcsEqualRuns
  simp only [countTextLines_eq hold, countTextLines_eq hnew, hrequire₁, hrequire₂, hrequire₃,
    if_neg hpad, if_neg hneeded, (fillLineOffsets_shows hold).1, (fillLineOffsets_shows hnew).1,
    if_neg hcount, bind, Except.bind]
  rfl

theorem longestAlignment_iff :
    LongestAlignment xs ys runs ↔
      Aligns xs ys 0 0 runs xs.length ys.length ∧ pairedLines runs = lcsLength xs ys := by
  rw [aligns_iff]
  constructor
  · intro h
    refine ⟨⟨Nat.zero_le _, Nat.zero_le _, fun run hrun => ?_, h.ordered⟩, h.longest⟩
    have hpos := h.nonempty run hrun
    have hlast := (h.equal run hrun (run.len - 1) (Nat.sub_one_lt (Nat.ne_of_gt hpos))).lt
    exact ⟨Nat.zero_le _, by omega, Nat.zero_le _, by omega, hpos, h.equal run hrun⟩
  · rintro ⟨⟨_, _, hall, hordered⟩, hlongest⟩
    refine ⟨fun run hrun => ?_, hordered, fun run hrun => ?_, hlongest⟩
    · exact (hall run hrun).2.2.2.2.1
    · exact (hall run hrun).2.2.2.2.2

/-- The visitor gets a longest alignment exactly when no line beyond the counters of the search matters
and no run that the search found is moved onto the next. -/
theorem visitLcsEqualRuns_longest_iff (hold : (fromUtf8 oldBytes).isSome)
    (hnew : (fromUtf8 newBytes).isSome) (hbudget : budget.Unlimited)
    (hlimit : scratchLen ≤ budget.limit .scratchBytes)
    (hroom : pad + layoutSizes (strLines oldBytes).length (strLines newBytes).length ≤ scratchLen) :
    ∃ found runs spent spent',
      Returns (fun fuel => conquer (ε := ε) (viewOf oldBytes) (viewOf newBytes)
        (findMiddleSnake (viewOf oldBytes) (viewOf newBytes))
        ((strLines oldBytes).length + (strLines newBytes).length + 8) (fun run s => collect s run) fuel
        zeroScratch [] budget) (.ok (found, spent)) ∧
      Returns (fun fuel => visitLcsEqualRuns (ε := ε) fuel oldBytes newBytes scratchLen pad budget
        collect []) (.ok (runs, spent')) ∧
      (LongestAlignment (strLines oldBytes) (strLines newBytes) runs ↔
        lcsLength ((strLines oldBytes).take ((strLines oldBytes).length % 2 ^ 32))
            ((strLines newBytes).take ((strLines newBytes).length % 2 ^ 32)) =
          lcsLength (strLines oldBytes) (strLines newBytes) ∧
        NoOverrun (strLines oldBytes) (strLines newBytes) 0 found) := by
  have holdShows := (fillLineOffsets_shows (ε := ε) hold).2
  have hnewShows := (fillLineOffsets_shows (ε := ε) hnew).2
  obtain ⟨budget', hbudget', hvisit⟩ := visitLcsEqualRuns_eq hold hnew hbudget hlimit hroom
    (collect (ε := ε)) []
  simp only [hvisit]
  have hcapacity : (strLines oldBytes).length + (strLines newBytes).length <
      (strLines oldBytes).length + (strLines newBytes).length + 8 :=
    Nat.lt_add_of_pos_right (by decide)
  obtain ⟨found, haligns, hpaired, hreturns⟩ := conquer_returns (ε := ε) holdShows hnewShows hcapacity
    zeroScratch
  have holdIn := Nat.mod_le (strLines oldBytes).length (2 ^ 32)
  have hnewIn := Nat.mod_le (strLines newBytes).length (2 ^ 32)
  obtain ⟨cursor, hfold⟩ := foldlM_emitSlid (collect (ε := ε)) holdShows hnewShows haligns holdIn hnewIn
  have hfold' : found.foldlM (fun emit run => emitSlid (viewOf oldBytes) (viewOf newBytes)
      (collect (ε := ε)) run emit) ⟨0, []⟩ =
        .ok ⟨cursor, emittedRuns (strLines oldBytes) (strLines newBytes) 0 found⟩ := by
    refine (hfold []).trans ?_
    change (List.foldlM (fun s run => collect s run) [] _ >>= fun visited => _) = _
    rw [foldlM_collect]
    rfl
  obtain ⟨spent, hfound⟩ := hreturns (fun run s => collect s run) [] found budget hbudget
    (foldlM_collect found [])
  obtain ⟨spent', hemitted⟩ := hreturns (emitSlid (viewOf oldBytes) (viewOf newBytes) (collect (ε := ε)))
    ⟨0, []⟩ _ budget' hbudget' hfold'
  refine ⟨found, emittedRuns (strLines oldBytes) (strLines newBytes) 0 found, spent, spent', hfound, ?_,
    ?_⟩
  · exact hemitted.map _
  · rw [longestAlignment_iff, pairedLines_emittedRuns, hpaired, and_comm]
    apply and_congr_right
    intro _
    constructor
    · exact fun h => noOverrun_of_aligns h fun run hrun => (((aligns_iff found).1 haligns).2.2.1 run hrun).2.2.2.2.1
    · intro hclear
      have hemits := aligns_emittedRuns haligns hnewIn hclear
      have hends := hemits.append (.nil holdIn le_rfl)
      rw [List.append_nil] at hends
      exact hends.mono le_rfl (Nat.zero_le _)

/-- The run that the search finds, `(0, 1, 1)`, is moved to `(0, 2, 1)`. -/
theorem visitLcsEqualRuns_slidRun : ∃ found runs spent spent',
    Returns (fun fuel => conquer (ε := Empty) (viewOf (utf8 "a\nd\n")) (viewOf (utf8 "x\na\na\n"))
      (findMiddleSnake (viewOf (utf8 "a\nd\n")) (viewOf (utf8 "x\na\na\n"))) (2 + 3 + 8)
      (fun run s => collect s run) fuel zeroScratch [] .unlimited) (.ok (found, spent)) ∧
    Returns (fun fuel => visitLcsEqualRuns (ε := Empty) fuel (utf8 "a\nd\n") (utf8 "x\na\na\n") 1000 0
      .unlimited collect []) (.ok (runs, spent')) ∧
    (LongestAlignment (strLines (utf8 "a\nd\n")) (strLines (utf8 "x\na\na\n")) runs ↔
      lcsLength ((strLines (utf8 "a\nd\n")).take ((strLines (utf8 "a\nd\n")).length % 2 ^ 32))
          ((strLines (utf8 "x\na\na\n")).take ((strLines (utf8 "x\na\na\n")).length % 2 ^ 32)) =
        lcsLength (strLines (utf8 "a\nd\n")) (strLines (utf8 "x\na\na\n")) ∧
      NoOverrun (strLines (utf8 "a\nd\n")) (strLines (utf8 "x\na\na\n")) 0 found) :=
  visitLcsEqualRuns_longest_iff (congrArg Option.isSome (fromUtf8_utf8 _))
    (congrArg Option.isSome (fromUtf8_utf8 _)) ResourceBudget.unlimited_unlimited (by decide)
    (by decide +kernel)

theorem visitLcsEqualRuns_returns
    (h : visitLcsEqualRuns fuel oldBytes newBytes scratchLen pad budget visit s = some result) :
    Returns (fun fuel => visitLcsEqualRuns fuel oldBytes newBytes scratchLen pad budget visit s)
      result := by
  refine ⟨fuel, fun fuel' hle => ?_⟩
  unfold visitLcsEqualRuns emitEqualRuns conquer at h ⊢
  dsimp only at h ⊢
  split at h
  · exact h
  · rw [Option.map_eq_some_iff] at h ⊢
    obtain ⟨visited, hrun, hresult⟩ := h
    refine ⟨visited, ?_, hresult⟩
    split
    · rwa [if_pos ‹_›] at hrun
    · rw [if_neg ‹_›] at hrun
      split at hrun
      · exact hrun
      · exact runLoop_mono hrun hle

/-- The first `a` is moved right, onto the line that the second one keeps. -/
theorem visitLcsEqualRuns_overrun : ¬ ∀ oldBytes newBytes scratchLen pad budget,
    (fromUtf8 oldBytes).isSome → (fromUtf8 newBytes).isSome → budget.Unlimited →
    scratchLen ≤ budget.limit .scratchBytes →
    pad + layoutSizes (strLines oldBytes).length (strLines newBytes).length ≤ scratchLen →
    ∃ runs spent, Returns (fun fuel => visitLcsEqualRuns (ε := Empty) fuel oldBytes newBytes scratchLen
      pad budget collect []) (.ok (runs, spent)) ∧
      LongestAlignment (strLines oldBytes) (strLines newBytes) runs := by
  intro h
  obtain ⟨runs, spent, hreturns, halignment⟩ := h (utf8 "a\nc\na\n") (utf8 "x\na\na\n") 1000 0
    .unlimited (congrArg Option.isSome (fromUtf8_utf8 _)) (congrArg Option.isSome (fromUtf8_utf8 _))
    ResourceBudget.unlimited_unlimited (by decide) (by decide +kernel)
  have hvisit : (visitLcsEqualRuns (ε := Empty) 20 (utf8 "a\nc\na\n") (utf8 "x\na\na\n") 1000 0
      .unlimited collect []).map (fun result => result.map Prod.fst) =
        some (.ok [⟨0, 2, 1⟩, ⟨2, 2, 1⟩]) := by
    decide +kernel
  obtain ⟨result, hrun, hresult⟩ := Option.map_eq_some_iff.1 hvisit
  obtain rfl := (visitLcsEqualRuns_returns hrun).unique hreturns
  obtain rfl := Except.ok.inj hresult
  exact absurd halignment.ordered (by decide)

end Visit

end Heddle.LineDiff
