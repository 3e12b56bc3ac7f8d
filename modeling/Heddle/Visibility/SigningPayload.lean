import Heddle.Visibility.Record

namespace Heddle
open Heddle.Lib Heddle.Oplog
open List hiding Vector after length tail

/-- What is known of the rendering of timestamps: they are told apart by texts of 25 to 38 bytes. -/
structure Rfc3339 (render : T → Bytes) : Prop where
  injective : Function.Injective render
  noNul : ∀ t, 0 ∉ render t
  length : ∀ t, 25 ≤ (render t).length ∧ (render t).length ≤ 38

section Tail
variable {render : T → Bytes} {before before' hash hash' : Bytes} {t t' : T}

theorem Rfc3339.not_append (hr : Rfc3339 render) (hlength : hash.length = 32) :
    render t ≠ render t' ++ hash := by
  intro h
  have hsum := congrArg List.length h
  rw [length_append] at hsum
  have ht := hr.length t
  have ht' := hr.length t'
  omega

/-- A timestamp that is the end of another one and a hash is the end of the hash. -/
theorem Rfc3339.ends_hash (hr : Rfc3339 render) (hlength : hash.length = 32)
    (h : before ++ 0 :: (render t ++ hash) = before' ++ 0 :: render t') :
    ∃ left, hash = left ++ 0 :: render t' ∧ before' = before ++ 0 :: (render t ++ left) := by
  by_cases hmem : 0 ∈ hash
  · obtain ⟨left, right, rfl, hright⟩ := exists_last_sep hmem
    have hsplit : (before ++ 0 :: (render t ++ left)) ++ 0 :: right = before' ++ 0 :: render t' := by
      rw [← h]
      simp only [append_assoc, cons_append]
    obtain ⟨rfl, rfl⟩ := sep_append_inj hright (hr.noNul t') hsplit
    exact ⟨left, rfl, rfl⟩
  · have hnone : 0 ∉ render t ++ hash := by
      rw [mem_append]
      exact not_or.2 ⟨hr.noNul t, hmem⟩
    obtain ⟨_, hsame⟩ := sep_append_inj hnone (hr.noNul t') h
    exact absurd hsame.symm (hr.not_append hlength)

theorem Rfc3339.tail_cases (hr : Rfc3339 render) (hlength : hash.length = 0 ∨ hash.length = 32)
    (hlength' : hash'.length = 0 ∨ hash'.length = 32)
    (hclean : ∀ left t, hash ≠ left ++ 0 :: render t)
    (h : before ++ 0 :: (render t ++ hash) = before' ++ 0 :: (render t' ++ hash')) :
    before = before' ∧ t = t' ∧ hash = hash' ∨ ∃ rest, before = before' ++ 0 :: rest := by
  by_cases hsame : hash.length = hash'.length
  · rw [← cons_append, ← cons_append, ← append_assoc, ← append_assoc] at h
    obtain ⟨hfront, rfl⟩ := append_inj' h hsame
    obtain ⟨rfl, hrender⟩ := sep_append_inj (hr.noNul t) (hr.noNul t') hfront
    exact .inl ⟨rfl, hr.injective hrender, rfl⟩
  · rcases hlength with hzero | hfull
    · obtain rfl := length_eq_zero_iff.1 hzero
      rw [append_nil] at h
      obtain ⟨left, _, hbefore⟩ := hr.ends_hash (by omega) h.symm
      exact .inr ⟨_, hbefore⟩
    · have hzero' : hash'.length = 0 := by omega
      obtain rfl := length_eq_zero_iff.1 hzero'
      rw [append_nil] at h
      obtain ⟨left, hhash, _⟩ := hr.ends_hash hfull h
      exact absurd hhash (hclean left t')

end Tail

section StateVisibility
variable {render : T → Bytes} {r s : StateVisibility T}

theorem StateVisibility.payload_eq (record : StateVisibility T) :
    record.canonicalSigningPayload render = stateVisibilityVersionTag ++ (record.state.bytes.toList ++
      (utf8 (tierName record.tier) ++ 0 :: (utf8 (tierLabel record.tier) ++ 0 ::
        (optionalBytes render record.embargoUntil ++ 0 :: (record.declarer.name ++ 0 ::
          (record.declarer.email ++ 0 :: (render record.declaredAt ++
            optionalBytes ContentHash.asBytes record.supersedes))))))) := by
  simp only [canonicalSigningPayload, append_assoc, cons_append, nil_append]

/-- A part of the label reads as a label and an embargo of its own. -/
def RereadableLabel (render : T → Bytes) (label : String) : Prop :=
  ∃ (shorter : String) (embargo : Option T), blank shorter = false ∧
    (utf8 label = utf8 shorter ++ 0 :: optionalBytes render embargo ∨
      ∃ rest, utf8 label = utf8 shorter ++ 0 :: (optionalBytes render embargo ++ 0 :: rest))

/-- No field of the record reads as more than one. -/
structure StateVisibility.ReadOnce (render : T → Bytes) (record : StateVisibility T) : Prop where
  name : 0 ∉ record.declarer.name
  email : 0 ∉ record.declarer.email
  label : ¬ RereadableLabel render (tierLabel record.tier)
  supersedes : ∀ hash ∈ record.supersedes, ∀ left t, hash.asBytes ≠ left ++ 0 :: render t

/-- The payload belongs to no other valid record, whatever the signatures. -/
def StateVisibility.Determined (render : T → Bytes) (record : StateVisibility T) : Prop :=
  ∀ other : StateVisibility T, other.validate = .ok () →
    other.canonicalSigningPayload render = record.canonicalSigningPayload render →
    { other with signature := record.signature } = record

theorem optionalBytes_injective (hr : Rfc3339 render) : Function.Injective (optionalBytes render) := by
  intro a b h
  cases a with
  | none =>
    cases b with
    | none => rfl
    | some t =>
      have hlength := congrArg List.length h
      have ht := (hr.length t).1
      change 0 = (render t).length at hlength
      omega
  | some t =>
    cases b with
    | none =>
      have hlength := congrArg List.length h
      have ht := (hr.length t).1
      change (render t).length = 0 at hlength
      omega
    | some t' => exact congrArg some (hr.injective h)

theorem optionalBytes_noNul (hr : Rfc3339 render) (embargo : Option T) :
    0 ∉ optionalBytes render embargo := by
  cases embargo with
  | none => exact not_mem_nil
  | some t => exact hr.noNul t

theorem optionalHash_length (hash : Option ContentHash) :
    (optionalBytes ContentHash.asBytes hash).length = 0 ∨
      (optionalBytes ContentHash.asBytes hash).length = 32 := by
  cases hash with
  | none => exact .inl rfl
  | some hash => exact .inr hash.asBytes_length

theorem optionalHash_injective : Function.Injective (optionalBytes ContentHash.asBytes) := by
  intro a b h
  have hlength := congrArg List.length h
  cases a with
  | none =>
    cases b with
    | none => rfl
    | some hash => exact absurd (hlength.trans hash.asBytes_length) (by decide)
  | some hash =>
    cases b with
    | none => exact absurd (hash.asBytes_length.symm.trans hlength) (by decide)
    | some hash' => exact congrArg some (ContentHash.asBytes_injective h)

theorem tierName_noNul (tier : VisibilityTier) : 0 ∉ utf8 (tierName tier) := by
  cases tier with
  | publicTier => decide +kernel
  | internal => decide +kernel
  | teamScoped _ => change 0 ∉ utf8 "team_scoped"; decide +kernel
  | restricted _ => change 0 ∉ utf8 "restricted"; decide +kernel
  | privateTier _ => change 0 ∉ utf8 "private"; decide +kernel

theorem tier_eq (hname : tierName tier = tierName tier')
    (hlabel : tierLabel tier = tierLabel tier') : tier = tier' := by
  cases tier <;> cases tier' <;> simp_all [tierName, tierLabel]

theorem label_of_valid (h : s.validate = .ok ()) (hname : tierName s.tier = tierName r.tier)
    (hlabel : tierLabel r.tier ≠ "") : blank (tierLabel s.tier) = false := by
  rw [Bool.eq_false_iff]
  intro hblank
  rw [StateVisibility.validate] at h
  cases hs : s.tier <;> cases hr : r.tier <;> simp_all [tierName, tierLabel]

/-- The fields between the tier and the timestamp: only the label can be longer than it looks. -/
theorem middle_fields (hembargo : (0 : UInt8) ∉ embargo) (hembargo' : (0 : UInt8) ∉ embargo')
    (hname : 0 ∉ name) (hemail : 0 ∉ email)
    (hlabel : ∀ rest, label ≠ label' ++ 0 :: embargo' ∧ label ≠ label' ++ 0 :: (embargo' ++ 0 :: rest))
    (h : label ++ 0 :: (embargo ++ 0 :: (name ++ 0 :: email)) =
      label' ++ 0 :: (embargo' ++ 0 :: (name' ++ 0 :: (email' ++ after)))) :
    label = label' ∧ embargo = embargo' ∧ name = name' ∧ email = email' ++ after := by
  rcases append_sep_cases h with ⟨rfl, hrest⟩ | ⟨zs, rfl, hrest⟩ | ⟨zs, _, hrest⟩
  · obtain ⟨rfl, hnames⟩ := append_sep_inj hembargo hembargo' hrest
    obtain ⟨rfl, hemails⟩ := two_fields_inj hname hemail hnames
    exact ⟨rfl, rfl, rfl, hemails⟩
  · rcases append_sep_cases hrest with ⟨rfl, _⟩ | ⟨ws, hws, _⟩ | ⟨ws, rfl, _⟩
    · exact absurd rfl (hlabel []).1
    · exact absurd (hws ▸ mem_append_right zs mem_cons_self) hembargo'
    · exact absurd rfl (hlabel ws).2
  · have hcount := congrArg (count 0) hrest
    simp only [count_sep_append, count_eq_zero_of_not_mem hembargo,
      count_eq_zero_of_not_mem hname, count_eq_zero_of_not_mem hemail] at hcount
    omega

theorem StateVisibility.ReadOnce.determined (hr : Rfc3339 render) (h : r.ReadOnce render) :
    r.Determined render := by
  intro s hvalid hpayload
  rw [payload_eq, payload_eq] at hpayload
  have hstate := append_cancel_left hpayload
  obtain ⟨hstate, htier⟩ := append_inj hstate (by rw [Vector.length_toList, Vector.length_toList])
  obtain ⟨hname, hfields⟩ := append_sep_inj (tierName_noNul s.tier) (tierName_noNul r.tier) htier
  have hname := utf8_injective hname
  have hembargo := optionalBytes_noNul hr r.embargoUntil
  have hembargo' := optionalBytes_noNul hr s.embargoUntil
  have hlabel : ∀ rest, utf8 (tierLabel r.tier) ≠
        utf8 (tierLabel s.tier) ++ 0 :: optionalBytes render s.embargoUntil ∧
      utf8 (tierLabel r.tier) ≠
        utf8 (tierLabel s.tier) ++ 0 :: (optionalBytes render s.embargoUntil ++ 0 :: rest) := by
    have hsome : ∀ tail, utf8 (tierLabel r.tier) = utf8 (tierLabel s.tier) ++ 0 :: tail →
        blank (tierLabel s.tier) = false := by
      intro tail htail
      refine label_of_valid hvalid hname ?_
      intro hempty
      have hlength := congrArg List.length htail
      rw [hempty, length_append, length_cons] at hlength
      change 0 = _ at hlength
      omega
    intro rest
    constructor
    · intro heq
      exact h.label ⟨_, _, hsome _ heq, .inl heq⟩
    · intro heq
      exact h.label ⟨_, _, hsome _ heq, .inr ⟨rest, heq⟩⟩
  have hclean : ∀ left t, optionalBytes ContentHash.asBytes r.supersedes ≠ left ++ 0 :: render t := by
    intro left t heq
    cases hsupersedes : r.supersedes with
    | none =>
      rw [hsupersedes] at heq
      exact absurd heq.symm (append_ne_nil_of_right_ne_nil _ (cons_ne_nil _ _))
    | some hash =>
      rw [hsupersedes] at heq
      exact h.supersedes hash hsupersedes left t heq
  have hsplit : (utf8 (tierLabel r.tier) ++ 0 :: (optionalBytes render r.embargoUntil ++ 0 ::
        (r.declarer.name ++ 0 :: r.declarer.email))) ++ 0 :: (render r.declaredAt ++
          optionalBytes ContentHash.asBytes r.supersedes) =
      (utf8 (tierLabel s.tier) ++ 0 :: (optionalBytes render s.embargoUntil ++ 0 ::
        (s.declarer.name ++ 0 :: s.declarer.email))) ++ 0 :: (render s.declaredAt ++
          optionalBytes ContentHash.asBytes s.supersedes) := by
    simp only [append_assoc, cons_append]
    exact hfields.symm
  rcases hr.tail_cases (optionalHash_length _) (optionalHash_length _) hclean hsplit with
    ⟨hmiddle, hdeclared, hsupersedes⟩ | ⟨rest, hmiddle⟩
  · rw [← append_nil s.declarer.email] at hmiddle
    obtain ⟨hlabels, hembargoes, hnames, hemails⟩ := middle_fields hembargo hembargo' h.name h.email
      hlabel hmiddle
    rw [append_nil] at hemails
    apply StateVisibility.ext
    · exact congrArg StateId.mk (Vector.toList_inj.1 hstate)
    · exact tier_eq hname (utf8_injective hlabels.symm)
    · exact optionalBytes_injective hr hembargoes.symm
    · exact Principal.ext hnames.symm hemails.symm
    · exact hdeclared.symm
    · rfl
    · exact optionalHash_injective hsupersedes.symm
  · simp only [append_assoc, cons_append] at hmiddle
    obtain ⟨_, _, _, hemails⟩ := middle_fields hembargo hembargo' h.name h.email hlabel hmiddle
    exact absurd (hemails ▸ mem_append_right _ mem_cons_self) h.email

theorem ne_append_sep : xs ≠ xs ++ sep :: ys := by
  intro h
  have hlength := congrArg List.length h
  rw [length_append, length_cons] at hlength
  omega

theorem exists_relabeled {record : StateVisibility T} (hlabel : tierLabel record.tier ≠ "")
    (hblank : blank label = false) :
    ∃ tier, tierName tier = tierName record.tier ∧ tierLabel tier = label ∧
      ∀ other : StateVisibility T, other.tier = tier → other.validate = .ok () := by
  cases htier : record.tier with
  | publicTier => exact absurd (congrArg tierLabel htier) hlabel
  | internal => exact absurd (congrArg tierLabel htier) hlabel
  | teamScoped _ =>
    refine ⟨.teamScoped label, rfl, rfl, fun other hother => ?_⟩
    simp only [StateVisibility.validate, hother, hblank, Bool.false_eq_true, if_false]
  | restricted _ =>
    refine ⟨.restricted label, rfl, rfl, fun other hother => ?_⟩
    simp only [StateVisibility.validate, hother, hblank, Bool.false_eq_true, if_false]
  | privateTier _ =>
    refine ⟨.privateTier label, rfl, rfl, fun other hother => ?_⟩
    simp only [StateVisibility.validate, hother, hblank, Bool.false_eq_true, if_false]

theorem StateVisibility.Determined.readOnce (hvalid : r.validate = .ok ()) (h : r.Determined render) :
    r.ReadOnce render where
  name hmem := by
    obtain ⟨before, after, hname⟩ := append_of_mem hmem
    have hsame := h { r with declarer := ⟨before, after ++ 0 :: r.declarer.email⟩ } hvalid (by
      simp only [payload_eq, hname, append_assoc, cons_append])
    have hnames := congrArg (fun record => record.declarer.name) hsame
    exact ne_append_sep (hnames.trans hname)
  email hmem := by
    obtain ⟨before, after, hemail⟩ := append_of_mem hmem
    have hsame := h { r with declarer := ⟨r.declarer.name ++ 0 :: before, after⟩ } hvalid (by
      simp only [payload_eq, hemail, append_assoc, cons_append])
    have hnames := congrArg (fun record => record.declarer.name) hsame
    exact ne_append_sep hnames.symm
  supersedes hash hhash left t hends := by
    have hsame := h { r with
        declarer := ⟨r.declarer.name, r.declarer.email ++ 0 :: (render r.declaredAt ++ left)⟩
        declaredAt := t
        supersedes := none } hvalid (by
      rw [Option.mem_def] at hhash
      simp only [payload_eq, hhash, optionalBytes, hends, append_assoc, cons_append,
        append_nil])
    have hsupersedes := congrArg StateVisibility.supersedes hsame
    rw [Option.mem_def] at hhash
    rw [hhash] at hsupersedes
    cases hsupersedes
  label := by
    rintro ⟨shorter, embargo, hblank, hlabel⟩
    have hnonempty : tierLabel r.tier ≠ "" := by
      intro hempty
      rw [hempty] at hlabel
      rcases hlabel with heq | ⟨rest, heq⟩
      · exact absurd heq.symm (append_ne_nil_of_right_ne_nil _ (cons_ne_nil _ _))
      · exact absurd heq.symm (append_ne_nil_of_right_ne_nil _ (cons_ne_nil _ _))
    obtain ⟨tier, hname, htier, hvalid'⟩ := exists_relabeled hnonempty hblank
    have hlabels : ∀ declarer, { r with tier, embargoUntil := embargo, declarer }.canonicalSigningPayload
        render = r.canonicalSigningPayload render → False := by
      intro declarer hpayload
      have hsame := h { r with tier, embargoUntil := embargo, declarer } (hvalid' _ rfl) hpayload
      have htiers := congrArg (fun record => utf8 (tierLabel record.tier)) hsame
      change utf8 (tierLabel tier) = utf8 (tierLabel r.tier) at htiers
      rw [htier] at htiers
      rcases hlabel with heq | ⟨rest, heq⟩
      · exact ne_append_sep (htiers.trans heq)
      · exact ne_append_sep (htiers.trans heq)
    rcases hlabel with heq | ⟨rest, heq⟩
    · apply hlabels ⟨optionalBytes render r.embargoUntil, r.declarer.name ++ 0 :: r.declarer.email⟩
      simp only [payload_eq, hname, htier, heq, append_assoc, cons_append]
    · apply hlabels ⟨rest, optionalBytes render r.embargoUntil ++ 0 :: (r.declarer.name ++ 0 ::
        r.declarer.email)⟩
      simp only [payload_eq, hname, htier, heq, append_assoc, cons_append]

end StateVisibility

section Redaction
variable {render : T → Bytes} {r : Redaction T}

theorem Redaction.payload_eq (redaction : Redaction T) :
    redaction.canonicalSigningPayload render = redactionVersionTag ++ (redaction.redactedBlob.asBytes ++
      (redaction.state.bytes.toList ++ (utf8 redaction.path ++ 0 :: (utf8 redaction.reason ++ 0 ::
        (redaction.redactor.name ++ 0 :: (redaction.redactor.email ++ 0 ::
          (render redaction.redactedAt ++ 0 ::
            optionalBytes ContentHash.asBytes redaction.supersedes))))))) := by
  simp only [canonicalSigningPayload, append_assoc, cons_append, nil_append]

/-- No field of the redaction reads as more than one. -/
structure Redaction.ReadOnce (render : T → Bytes) (redaction : Redaction T) : Prop where
  path : 0 ∉ utf8 redaction.path
  reason : 0 ∉ utf8 redaction.reason
  name : 0 ∉ redaction.redactor.name
  email : 0 ∉ redaction.redactor.email
  supersedes : ∀ hash ∈ redaction.supersedes, ∀ left t,
    0 :: hash.asBytes ≠ left ++ 0 :: (render t ++ [0])

/-- The payload belongs to no other declaration, whatever the signatures; the evidence of a purge is
signed by itself. -/
def Redaction.Determined (render : T → Bytes) (redaction : Redaction T) : Prop :=
  ∀ other : Redaction T,
    other.canonicalSigningPayload render = redaction.canonicalSigningPayload render →
    { other with signature := redaction.signature, purge := redaction.purge } = redaction

theorem Rfc3339.not_within (hr : Rfc3339 render) {zs hash : Bytes} (hlength : hash.length = 32) :
    render t ++ [0] ≠ zs ++ 0 :: hash := by
  intro h
  have hne : hash ≠ [] := ne_nil_of_length_pos (by omega)
  obtain ⟨front, last, rfl⟩ := (eq_nil_or_concat' hash).resolve_left hne
  rw [← cons_append, ← append_assoc] at h
  have hfront := (append_inj' h rfl).1
  exact hr.noNul t (hfront ▸ mem_append_right zs mem_cons_self)

theorem Rfc3339.ended_cases (hr : Rfc3339 render) {before before' hash hash' : Bytes}
    (hlength : hash.length = 0 ∨ hash.length = 32) (hlength' : hash'.length = 0 ∨ hash'.length = 32)
    (hclean : ∀ left t, 0 :: hash ≠ left ++ 0 :: (render t ++ [0]))
    (h : before ++ 0 :: (render t ++ 0 :: hash) = before' ++ 0 :: (render t' ++ 0 :: hash')) :
    before = before' ∧ t = t' ∧ hash = hash' ∨ ∃ rest, before = before' ++ 0 :: rest := by
  by_cases hsame : hash.length = hash'.length
  · rw [← cons_append, ← cons_append, ← append_assoc, ← append_assoc] at h
    obtain ⟨hfront, hends⟩ := append_inj' h (congrArg Nat.succ hsame)
    obtain ⟨rfl, hrender⟩ := sep_append_inj (hr.noNul t) (hr.noNul t') hfront
    exact .inl ⟨rfl, hr.injective hrender, (cons.inj hends).2⟩
  · rcases hlength with hzero | hfull
    · obtain rfl := length_eq_zero_iff.1 hzero
      have hsplit : (before' ++ 0 :: render t') ++ 0 :: hash' = before ++ 0 :: (render t ++ [0]) := by
        rw [h, append_assoc, cons_append]
      rcases append_sep_cases hsplit with ⟨hbefore, _⟩ | ⟨zs, _, hzs⟩ | ⟨zs, hbefore, _⟩
      · exact .inr ⟨_, hbefore.symm⟩
      · exact absurd hzs (hr.not_within (by omega))
      · rw [append_assoc, cons_append] at hbefore
        exact .inr ⟨_, hbefore⟩
    · have hzero' : hash'.length = 0 := by omega
      obtain rfl := length_eq_zero_iff.1 hzero'
      have hsplit : (before ++ 0 :: render t) ++ 0 :: hash = before' ++ 0 :: (render t' ++ [0]) := by
        rw [← h, append_assoc, cons_append]
      rcases append_sep_cases hsplit with ⟨_, hhash⟩ | ⟨zs, _, hzs⟩ | ⟨zs, _, hhash⟩
      · exact absurd (congrArg (cons 0) hhash) (hclean [] t')
      · exact absurd hzs (hr.not_within hfull)
      · exact absurd (congrArg (cons 0) hhash) (hclean (0 :: zs) t')

theorem Redaction.ReadOnce.determined (hr : Rfc3339 render) (h : r.ReadOnce render) :
    r.Determined render := by
  intro s hpayload
  rw [payload_eq, payload_eq] at hpayload
  have hblob := append_cancel_left hpayload
  obtain ⟨hblob, hstate⟩ := append_inj hblob
    (by rw [ContentHash.asBytes_length, ContentHash.asBytes_length])
  obtain ⟨hstate, hfields⟩ := append_inj hstate
    (by rw [Vector.length_toList, Vector.length_toList])
  have hclean : ∀ left t,
      0 :: optionalBytes ContentHash.asBytes r.supersedes ≠ left ++ 0 :: (render t ++ [0]) := by
    intro left t heq
    cases hsupersedes : r.supersedes with
    | none =>
      rw [hsupersedes] at heq
      have hlength := congrArg List.length heq
      have ht := (hr.length t).1
      simp only [optionalBytes, length_append, length_cons, length_nil] at hlength
      omega
    | some hash =>
      rw [hsupersedes] at heq
      exact h.supersedes hash hsupersedes left t heq
  have hsplit : (utf8 r.path ++ 0 :: (utf8 r.reason ++ 0 :: (r.redactor.name ++ 0 ::
        r.redactor.email))) ++ 0 :: (render r.redactedAt ++ 0 ::
          optionalBytes ContentHash.asBytes r.supersedes) =
      (utf8 s.path ++ 0 :: (utf8 s.reason ++ 0 :: (s.redactor.name ++ 0 ::
        s.redactor.email))) ++ 0 :: (render s.redactedAt ++ 0 ::
          optionalBytes ContentHash.asBytes s.supersedes) := by
    simp only [append_assoc, cons_append]
    exact hfields.symm
  have hcounts : ∀ xs : Bytes, 0 ∉ xs → xs.count 0 = 0 := fun _ => count_eq_zero_of_not_mem
  rcases hr.ended_cases (optionalHash_length _) (optionalHash_length _) hclean hsplit with
    ⟨hmiddle, hredacted, hsupersedes⟩ | ⟨rest, hmiddle⟩
  · have hcount := congrArg (count 0) hmiddle
    simp only [count_sep_append, hcounts _ h.path, hcounts _ h.reason, hcounts _ h.name,
      hcounts _ h.email] at hcount
    have hpathNul : 0 ∉ utf8 s.path := count_eq_zero.1 (by omega)
    have hreasonNul : 0 ∉ utf8 s.reason := count_eq_zero.1 (by omega)
    obtain ⟨hpath, hmiddle⟩ := append_sep_inj h.path hpathNul hmiddle
    obtain ⟨hreason, hmiddle⟩ := append_sep_inj h.reason hreasonNul hmiddle
    obtain ⟨hname, hemail⟩ := two_fields_inj h.name h.email hmiddle
    apply Redaction.ext
    · exact ContentHash.asBytes_injective hblob
    · exact congrArg StateId.mk (Vector.toList_inj.1 hstate)
    · exact utf8_injective hpath.symm
    · exact utf8_injective hreason.symm
    · exact Principal.ext hname.symm hemail.symm
    · exact hredacted.symm
    · rfl
    · rfl
    · exact optionalHash_injective hsupersedes.symm
  · have hcount := congrArg (count 0) hmiddle
    simp only [count_sep_append, hcounts _ h.path, hcounts _ h.reason, hcounts _ h.name,
      hcounts _ h.email] at hcount
    omega

theorem exists_utf8_split (h : 0 ∈ utf8 text) :
    ∃ before after : String, utf8 text = utf8 before ++ 0 :: utf8 after := by
  obtain ⟨before, after, htext⟩ := append_of_mem (zero_mem_utf8 h)
  refine ⟨String.ofList before, String.ofList after, ?_⟩
  rw [utf8_eq_flatMap, utf8_eq_flatMap, utf8_eq_flatMap, htext, String.toList_ofList,
    String.toList_ofList, flatMap_append, flatMap_cons]
  rfl

theorem utf8_append_nul (before after : String) :
    utf8 (before ++ "\x00" ++ after) = utf8 before ++ 0 :: utf8 after := by
  rw [utf8_eq_flatMap, utf8_eq_flatMap, utf8_eq_flatMap, String.toList_append, String.toList_append,
    flatMap_append, flatMap_append, append_assoc]
  rfl

theorem Redaction.Determined.readOnce (h : r.Determined render) : r.ReadOnce render where
  path hmem := by
    obtain ⟨before, after, hpath⟩ := exists_utf8_split hmem
    have hsame := h { r with path := before, reason := after ++ "\x00" ++ r.reason } (by
      simp only [payload_eq, utf8_append_nul, hpath, append_assoc, cons_append])
    have hpaths := congrArg (fun redaction => utf8 redaction.path) hsame
    exact ne_append_sep (hpaths.trans hpath)
  reason hmem := by
    obtain ⟨before, after, hreason⟩ := exists_utf8_split hmem
    have hsame := h { r with
        reason := before
        redactor := ⟨utf8 after ++ 0 :: r.redactor.name, r.redactor.email⟩ } (by
      simp only [payload_eq, hreason, append_assoc, cons_append])
    have hreasons := congrArg (fun redaction => utf8 redaction.reason) hsame
    exact ne_append_sep (hreasons.trans hreason)
  name hmem := by
    obtain ⟨before, after, hname⟩ := append_of_mem hmem
    have hsame := h { r with redactor := ⟨before, after ++ 0 :: r.redactor.email⟩ } (by
      simp only [payload_eq, hname, append_assoc, cons_append])
    have hnames := congrArg (fun redaction => redaction.redactor.name) hsame
    exact ne_append_sep (hnames.trans hname)
  email hmem := by
    obtain ⟨before, after, hemail⟩ := append_of_mem hmem
    have hsame := h { r with redactor := ⟨r.redactor.name ++ 0 :: before, after⟩ } (by
      simp only [payload_eq, hemail, append_assoc, cons_append])
    have hnames := congrArg (fun redaction => redaction.redactor.name) hsame
    exact ne_append_sep hnames.symm
  supersedes hash hhash left t hends := by
    rw [Option.mem_def] at hhash
    have hsame := h { r with
        redactor := ⟨r.redactor.name, r.redactor.email ++ 0 :: (render r.redactedAt ++ left)⟩
        redactedAt := t
        supersedes := none } (by
      simp only [payload_eq, hhash, optionalBytes, hends, append_assoc, cons_append])
    have hsupersedes := congrArg Redaction.supersedes hsame
    rw [hhash] at hsupersedes
    cases hsupersedes

end Redaction

section Purge
variable {render : T → Bytes} {blake3 : Bytes → ContentHash} {r : Redaction T} {purger : Principal}
  {purgedAt : T}

/-- The names of who purges hold no separators. -/
structure PurgerReadOnce (purger : Principal) : Prop where
  name : 0 ∉ purger.name
  email : 0 ∉ purger.email

/-- The payload belongs to no other purge, of this redaction or of another declaration. -/
def Redaction.PurgeDetermined (render : T → Bytes) (blake3 : Bytes → ContentHash)
    (redaction : Redaction T) (purger : Principal) (purgedAt : T) : Prop :=
  ∀ (other : Redaction T) (purger' : Principal) (purgedAt' : T),
    other.canonicalPurgeSigningPayload render blake3 purger' purgedAt' =
      redaction.canonicalPurgeSigningPayload render blake3 purger purgedAt →
    other.declaration render blake3 = redaction.declaration render blake3 ∧
      purger' = purger ∧ purgedAt' = purgedAt

theorem Redaction.purgePayload_eq (redaction : Redaction T) (purger : Principal) (purgedAt : T) :
    redaction.canonicalPurgeSigningPayload render blake3 purger purgedAt = purgeVersionTag ++
      ((redaction.declaration render blake3).asBytes ++ ((purger.name ++ 0 :: purger.email) ++ 0 ::
        render purgedAt)) := by
  simp only [canonicalPurgeSigningPayload, append_assoc, cons_append, nil_append]

theorem PurgerReadOnce.determined (hr : Rfc3339 render) (h : PurgerReadOnce purger) :
    r.PurgeDetermined render blake3 purger purgedAt := by
  intro other purger' purgedAt' hpayload
  rw [Redaction.purgePayload_eq, Redaction.purgePayload_eq] at hpayload
  have hrest := append_cancel_left hpayload
  obtain ⟨hdeclaration, hfields⟩ := append_inj hrest
    (by rw [ContentHash.asBytes_length, ContentHash.asBytes_length])
  obtain ⟨hnames, htime⟩ := sep_append_inj (hr.noNul purgedAt') (hr.noNul purgedAt) hfields
  obtain ⟨hname, hemail⟩ := two_fields_inj h.name h.email hnames.symm
  exact ⟨ContentHash.asBytes_injective hdeclaration, Principal.ext hname.symm hemail.symm,
    hr.injective htime⟩

theorem Redaction.PurgeDetermined.readOnce (h : r.PurgeDetermined render blake3 purger purgedAt) :
    PurgerReadOnce purger where
  name hmem := by
    obtain ⟨before, after, hname⟩ := append_of_mem hmem
    obtain ⟨_, hsame, _⟩ := h r ⟨before, after ++ 0 :: purger.email⟩ purgedAt (by
      simp only [purgePayload_eq, hname, append_assoc, cons_append])
    exact ne_append_sep ((congrArg Principal.name hsame).trans hname)
  email hmem := by
    obtain ⟨before, after, hemail⟩ := append_of_mem hmem
    obtain ⟨_, hsame, _⟩ := h r ⟨purger.name ++ 0 :: before, after⟩ purgedAt (by
      simp only [purgePayload_eq, hemail, append_assoc, cons_append])
    exact ne_append_sep (congrArg Principal.name hsame).symm

end Purge

/-- A signature covers one record exactly when no field of the record reads as more than one. -/
theorem payloads_determined_iff {render : T → Bytes} (blake3 : Bytes → ContentHash)
    (hr : Rfc3339 render) :
    (∀ record : StateVisibility T, record.validate = .ok () →
      (record.Determined render ↔ record.ReadOnce render)) ∧
    (∀ redaction : Redaction T, redaction.Determined render ↔ redaction.ReadOnce render) ∧
    ∀ (redaction : Redaction T) (purger : Principal) (purgedAt : T),
      redaction.PurgeDetermined render blake3 purger purgedAt ↔ PurgerReadOnce purger :=
  ⟨fun _ hvalid => ⟨fun h => h.readOnce hvalid, fun h => h.determined hr⟩,
    fun _ => ⟨fun h => h.readOnce, fun h => h.determined hr⟩,
    fun _ _ _ => ⟨fun h => h.readOnce, fun h => h.determined hr⟩⟩

def newYearText (second : Fin 10) : Bytes :=
  utf8 "2024-01-01T00:00:0" ++ UInt8.ofNat (48 + second.val) :: utf8 "+00:00"

theorem newYearText_rfc3339 : Rfc3339 newYearText where
  injective := by
    have h : ∀ a b, newYearText a = newYearText b → a = b := by decide +kernel
    exact fun a b => h a b
  noNul := by decide +kernel
  length := by decide +kernel

def declaredBy (name email : String) : StateVisibility (Fin 10) where
  state := ⟨Vector.replicate 32 7⟩
  tier := .teamScoped "core"
  embargoUntil := some 9
  declarer := ⟨utf8 name, utf8 email⟩
  declaredAt := 1
  signature := none
  supersedes := none

theorem not_rereadableLabel (h : 0 ∉ utf8 label) : ¬ RereadableLabel render label := by
  rintro ⟨shorter, embargo, _, heq | ⟨rest, heq⟩⟩
  · exact h (heq ▸ mem_append_right _ mem_cons_self)
  · exact h (heq ▸ mem_append_right _ mem_cons_self)

theorem payloads_determined_iff_declared : (declaredBy "Ada" "ada@loom").Determined newYearText := by
  have hrecords := (payloads_determined_iff (fun _ => ⟨Vector.replicate 32 0⟩) newYearText_rfc3339).1
  apply (hrecords (declaredBy "Ada" "ada@loom") rfl).2
  exact {
    name := by decide +kernel
    email := by decide +kernel
    label := not_rereadableLabel (by decide +kernel)
    supersedes := fun _ hnone => nomatch hnone }

/-- A separator in the name moves it into the email of another record. -/
theorem declarers_share_payload :
    Rfc3339 newYearText ∧
      (declaredBy "Ada" "Bea\x00bea@loom").validate = .ok () ∧
      (declaredBy "Ada\x00Bea" "bea@loom").validate = .ok () ∧
      (declaredBy "Ada" "Bea\x00bea@loom").canonicalSigningPayload newYearText =
        (declaredBy "Ada\x00Bea" "bea@loom").canonicalSigningPayload newYearText ∧
      (declaredBy "Ada" "Bea\x00bea@loom").declarer ≠ (declaredBy "Ada\x00Bea" "bea@loom").declarer :=
  ⟨newYearText_rfc3339, by decide +kernel, by decide +kernel, by decide +kernel, by decide +kernel⟩

end Heddle
