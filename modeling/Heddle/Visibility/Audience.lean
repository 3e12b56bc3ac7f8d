import Heddle.Lib.ForestOrder
import Heddle.Oplog.Record

namespace Heddle
open Heddle.Lib Heddle.Oplog

inductive AudienceTier where
  | internal
  | publicTier
  | team (name : String)
  | restricted (label : String)
  deriving DecidableEq

def visible : VisibilityTier → AudienceTier → Bool
  | .publicTier, _ => true
  -- before `internal`: a private tier hides from internal readers as well
  | .privateTier scopeLabel, .restricted viewer => scopeLabel = viewer
  | .privateTier _, _ => false
  | _, .internal => true
  | .internal, .publicTier => false
  | .internal, .restricted _ => false
  | .internal, .team _ => true
  | .teamScoped teamId, .team name => teamId = name
  | .teamScoped _, _ => false
  | .restricted scopeLabel, .restricted viewerLabel => scopeLabel = viewerLabel
  | .restricted _, _ => false

def isNoMoreVisibleThan (self source : VisibilityTier) : Bool :=
  decide (self = source) || decide (source = .publicTier) ||
    (match self, source with
    | .teamScoped _, .internal => true
    | _, _ => false) ||
    match self, source with
    | .privateTier target, .restricted source => target = source
    | _, _ => false

def incomparableAudiences : HeddleError :=
  .invalidObject "integration combines incomparable named audiences"

def intersectVisibility (left right : VisibilityTier) : Except HeddleError VisibilityTier :=
  if left = right then .ok left
  else
    match left, right with
    | .publicTier, other => .ok other
    | other, .publicTier => .ok other
    | .internal, other => .ok other
    | other, .internal => .ok other
    | .privateTier a, .restricted b =>
      if a = b then .ok (.privateTier a) else .error incomparableAudiences
    | .restricted b, .privateTier a =>
      if a = b then .ok (.privateTier a) else .error incomparableAudiences
    | _, _ => .error incomparableAudiences

def combineVisibility (tiers : List VisibilityTier) : Except HeddleError VisibilityTier :=
  tiers.foldlM intersectVisibility .publicTier

section Narrowing

def Narrows (s t : VisibilityTier) : Prop := ∀ audience, visible s audience → visible t audience

theorem narrows_of_isNoMoreVisibleThan (h : isNoMoreVisibleThan s t) : Narrows s t := by
  intro audience hs
  simp only [isNoMoreVisibleThan, Bool.or_eq_true, decide_eq_true_eq] at h
  rcases h with ((rfl | rfl) | h) | h
  · exact hs
  · rfl
  · split at h
    · cases audience with
      | internal => rfl
      | publicTier => exact hs
      | team name => rfl
      | restricted label => exact hs
    · cases h
  · split at h
    · cases audience with
      | internal => rfl
      | publicTier => exact hs
      | team name => exact hs
      | restricted label =>
        obtain rfl := of_decide_eq_true h
        exact hs
    · cases h

theorem isNoMoreVisibleThan_refl (t : VisibilityTier) : isNoMoreVisibleThan t t := by
  simp only [isNoMoreVisibleThan, decide_true, Bool.true_or]

theorem exists_other_team (teamId : String) : ∃ name, teamId ≠ name := by
  by_cases h : teamId = ""
  · exact ⟨"a", h ▸ by decide⟩
  · exact ⟨"", h⟩

/-- The audiences for which a tier is named tell it from the tiers that are wider or elsewhere. -/
theorem isNoMoreVisibleThan_of_narrows (h : Narrows s t) : isNoMoreVisibleThan s t := by
  have hpublic := h .publicTier
  have hinternal := h .internal
  cases s with
  | publicTier => cases t <;> first | rfl | exact absurd (hpublic rfl) nofun
  | internal =>
    cases t with
    | publicTier => rfl
    | internal => rfl
    | teamScoped teamId =>
      obtain ⟨name, hname⟩ := exists_other_team teamId
      exact absurd (of_decide_eq_true (h (.team name) rfl)) hname
    | restricted label => exact absurd (h (.team "") rfl) nofun
    | privateTier label => exact absurd (hinternal rfl) nofun
  | teamScoped teamId =>
    have hteam := h (.team teamId) (decide_eq_true rfl)
    cases t with
    | publicTier => rfl
    | internal => rfl
    | teamScoped other =>
      obtain rfl := of_decide_eq_true hteam
      exact isNoMoreVisibleThan_refl _
    | restricted label => cases hteam
    | privateTier label => cases hteam
  | restricted scopeLabel =>
    have hrestricted := h (.restricted scopeLabel) (decide_eq_true rfl)
    cases t with
    | publicTier => rfl
    | internal => cases hrestricted
    | teamScoped other => cases hrestricted
    | restricted label =>
      obtain rfl := of_decide_eq_true hrestricted
      exact isNoMoreVisibleThan_refl _
    | privateTier label => exact absurd (hinternal rfl) nofun
  | privateTier scopeLabel =>
    have hrestricted := h (.restricted scopeLabel) (decide_eq_true rfl)
    cases t with
    | publicTier => rfl
    | internal => cases hrestricted
    | teamScoped other => cases hrestricted
    | restricted label =>
      obtain rfl := of_decide_eq_true hrestricted
      simp only [isNoMoreVisibleThan, decide_true, Bool.or_true]
    | privateTier label =>
      obtain rfl := of_decide_eq_true hrestricted
      exact isNoMoreVisibleThan_refl _

end Narrowing

section Combining

/-- The tiers that the combination ranks above a tier, up to the widest. -/
def widerTiers : VisibilityTier → List VisibilityTier
  | .publicTier => [.publicTier]
  | .internal => [.internal, .publicTier]
  | .teamScoped teamId => [.teamScoped teamId, .internal, .publicTier]
  | .restricted label => [.restricted label, .internal, .publicTier]
  | .privateTier label => [.privateTier label, .restricted label, .internal, .publicTier]

abbrev Below (s t : VisibilityTier) : Prop := widerTiers t <:+ widerTiers s

theorem widerTiers_head (t : VisibilityTier) : (widerTiers t).head? = some t := by
  cases t <;> rfl

theorem below_forestOrder : ForestOrder Below := by
  apply forestOrder_suffix
  intro s t h
  have hhead := congrArg List.head? h
  rw [widerTiers_head, widerTiers_head] at hhead
  exact Option.some.inj hhead

theorem intersectVisibility_eq : intersectVisibility = lowerOf Below incomparableAudiences := by
  funext s t
  by_cases hst : s = t
  · subst hst
    unfold intersectVisibility lowerOf
    rw [if_pos rfl, if_pos (below_forestOrder.refl s)]
  · cases s <;> cases t <;>
      simp_all [intersectVisibility, lowerOf, Below, widerTiers, List.suffix_cons_iff] <;> grind

def Scoped : VisibilityTier → Prop
  | .restricted _ => True
  | .privateTier _ => True
  | _ => False

/-- A tier for internal readers beside one for the holders of a scope. -/
def Mixes (tiers : List VisibilityTier) : Prop := .internal ∈ tiers ∧ ∃ t ∈ tiers, Scoped t

/-- Tiers named for different audiences, neither of which includes the other. -/
def NamedApart : VisibilityTier → VisibilityTier → Prop
  | .teamScoped a, .teamScoped b => a ≠ b
  | .teamScoped _, t => Scoped t
  | s, .teamScoped _ => Scoped s
  | .restricted a, .restricted b => a ≠ b
  | .restricted a, .privateTier b => a ≠ b
  | .privateTier a, .restricted b => a ≠ b
  | .privateTier a, .privateTier b => a ≠ b
  | _, _ => False

theorem namedApart_iff : NamedApart s t ↔ ¬ Below s t ∧ ¬ Below t s := by
  cases s <;> cases t <;>
    simp [NamedApart, Below, widerTiers, List.suffix_cons_iff, Scoped] <;> grind

theorem narrows_of_below (h : Below s t) (hmixed : t = .internal → ¬ Scoped s) : Narrows s t := by
  apply narrows_of_isNoMoreVisibleThan
  cases s <;> cases t <;> simp_all [Below, widerTiers, List.suffix_cons_iff, isNoMoreVisibleThan, Scoped]

theorem scoped_of_below (h : Below s t) (ht : Scoped t) :
    ∃ label, visible s (.restricted label) := by
  cases s <;> cases t <;> simp_all [Below, widerTiers, List.suffix_cons_iff, visible, Scoped]

theorem mem_of_mem_public_cons {t : VisibilityTier} (h : t ∈ .publicTier :: tiers)
    (ht : t ≠ .publicTier) : t ∈ tiers :=
  (List.mem_cons.1 h).resolve_left ht

variable {tiers : List VisibilityTier}

theorem combineVisibility_eq_ok_iff :
    combineVisibility tiers = .ok t ↔ LowestOf Below (.publicTier :: tiers) t := by
  rw [combineVisibility, intersectVisibility_eq]
  exact foldlM_lowerOf below_forestOrder _ _

theorem below_public (s : VisibilityTier) : Below s .publicTier := by
  cases s <;> simp [Below, widerTiers, List.suffix_cons_iff]

theorem exists_error (h : combineVisibility tiers = .error e) :
    ∃ s ∈ tiers, ∃ t ∈ tiers, NamedApart s t := by
  rw [combineVisibility, intersectVisibility_eq] at h
  obtain ⟨s, hs, t, ht, hst, hts⟩ := exists_incomparable below_forestOrder h
  have hs' : s ≠ .publicTier := fun heq => hts (heq ▸ below_public t)
  have ht' : t ≠ .publicTier := fun heq => hst (heq ▸ below_public s)
  exact ⟨s, mem_of_mem_public_cons hs hs', t, mem_of_mem_public_cons ht ht',
    namedApart_iff.2 ⟨hst, hts⟩⟩

/-- The combination is seen by the audiences that see all tiers, in any order of the list; and the
narrowing test says what the audiences see. -/
structure CombinesExactly (tiers : List VisibilityTier) : Prop where
  audience : ∀ t, combineVisibility tiers = .ok t → ∀ audience,
    visible t audience ↔ ∀ s ∈ tiers, visible s audience
  order : ∀ tiers', tiers'.Perm tiers → combineVisibility tiers' = combineVisibility tiers
  narrowing : ∀ s t, isNoMoreVisibleThan s t ↔ Narrows s t

theorem combineVisibility_perm (h : tiers'.Perm tiers) :
    combineVisibility tiers' = combineVisibility tiers := by
  rw [combineVisibility, combineVisibility, intersectVisibility_eq]
  exact foldlM_lowerOf_congr below_forestOrder fun c => (h.cons _).mem_iff

/-- A mix of internal and scoped tiers comes out right only when other tiers make it fail. -/
theorem combinesExactly_iff (tiers : List VisibilityTier) :
    CombinesExactly tiers ↔ (Mixes tiers → ∃ s ∈ tiers, ∃ t ∈ tiers, NamedApart s t) := by
  constructor
  · rintro h ⟨hinternal, s, hs, hscoped⟩
    cases hcombine : combineVisibility tiers with
    | error e => exact exists_error hcombine
    | ok t =>
      have hlowest := combineVisibility_eq_ok_iff.1 hcombine
      obtain ⟨label, hvisible⟩ := scoped_of_below (hlowest.below s (.tail _ hs)) hscoped
      have hseen := (h.audience t hcombine (.restricted label)).1 hvisible .internal hinternal
      cases hseen
  · intro h
    refine ⟨fun t hcombine audience => ⟨fun ht s hs => ?_, fun hall => ?_⟩,
      fun tiers' hperm => combineVisibility_perm hperm, fun s t =>
        ⟨narrows_of_isNoMoreVisibleThan, isNoMoreVisibleThan_of_narrows⟩⟩
    · have hlowest := combineVisibility_eq_ok_iff.1 hcombine
      refine narrows_of_below (hlowest.below s (.tail _ hs)) ?_ audience ht
      rintro rfl hscoped
      have hmem : t ∈ tiers := by
        refine mem_of_mem_public_cons hlowest.mem ?_
        rintro rfl
        exact hscoped
      obtain ⟨u, hu, v, hv, hapart⟩ := h ⟨hs, t, hmem, hscoped⟩
      have habove := below_forestOrder.comparable (hlowest.below u (.tail _ hu))
        (hlowest.below v (.tail _ hv))
      exact not_or.2 (namedApart_iff.1 hapart) habove
    · have hlowest := combineVisibility_eq_ok_iff.1 hcombine
      rcases List.mem_cons.1 hlowest.mem with rfl | hmem
      · rfl
      · exact hall t hmem

/-- The holder of a scope sees the combination of an internal and a restricted tier. -/
theorem not_combinesExactly_internal :
    ¬ CombinesExactly [.internal, .restricted "legal"] := by
  intro h
  have hcombine : combineVisibility [.internal, .restricted "legal"] = .ok (.restricted "legal") := by
    decide
  have hseen := (h.audience _ hcombine (.restricted "legal")).1 (by decide) .internal List.mem_cons_self
  cases hseen

end Combining

end Heddle
