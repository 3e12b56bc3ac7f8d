import Mathlib.Data.List.AList
import Mathlib.Data.List.Perm.Basic

namespace Heddle.Lib
open List Option

theorem bind_eq_ok {x : Except ε α} :
    (x >>= f) = .ok b ↔ ∃ a, x = .ok a ∧ f a = .ok b := by
  cases x with
  | error e =>
    constructor
    · intro h
      cases h
    · rintro ⟨a, ha, _⟩
      cases ha
  | ok a =>
    constructor
    · intro h
      exact ⟨a, rfl, h⟩
    · rintro ⟨a', ha, hf⟩
      cases ha
      exact hf

theorem bind_eq_error_iff {x : Except ε α} :
    (x >>= f) = .error e ↔ x = .error e ∨ ∃ a, x = .ok a ∧ f a = .error e := by
  cases x with
  | error e' =>
    apply Iff.intro
    · intro h
      cases h
      exact .inl rfl
    · intro h
      rcases h with h | ⟨_, h, _⟩
      · cases h
        rfl
      · cases h
  | ok a =>
    apply Iff.intro
    · intro h
      exact .inr ⟨a, rfl, h⟩
    · intro h
      rcases h with h | ⟨_, h, hf⟩
      · cases h
      · cases h
        exact hf

theorem map_eq_ok_iff {x : Except ε α} :
    x.map f = .ok b ↔ ∃ a, x = .ok a ∧ f a = b := by
  cases x with
  | error e => exact ⟨fun h => (nomatch h), fun ⟨_, h, _⟩ => (nomatch h)⟩
  | ok a => exact ⟨fun h => ⟨a, rfl, Except.ok.inj h⟩, fun ⟨_, h, hf⟩ => by cases h; rw [← hf]; rfl⟩

@[simp] theorem pure_eq_ok : (pure a : Except ε α) = .ok a := rfl

theorem forM_ok_iff {f : α → Except ε Unit} {xs : List α} {u : Unit} :
    xs.forM f = .ok u ↔ ∀ x ∈ xs, f x = .ok () := by
  induction xs with
  | nil => exact ⟨fun _ _ h => absurd h not_mem_nil, fun _ => rfl⟩
  | cons x xs ih =>
    have hcons : (x :: xs).forM f = f x >>= fun _ => xs.forM f := rfl
    rw [hcons, bind_eq_ok, forall_mem_cons, ih]
    exact ⟨fun ⟨_, hx, hxs⟩ => ⟨hx, hxs⟩, fun ⟨hx, hxs⟩ => ⟨(), hx, hxs⟩⟩

theorem foldlM_ok_congr {f g : σ → α → Except ε σ} (h : ∀ s a s', f s a = .ok s' ↔ g s a = .ok s')
    {xs : List α} {s s' : σ} : xs.foldlM f s = .ok s' ↔ xs.foldlM g s = .ok s' := by
  induction xs generalizing s with
  | nil => exact Iff.rfl
  | cons x xs ih => simp only [foldlM_cons, bind_eq_ok, h, ih]

theorem foldlM_ok_mono {f g : σ → α → Except ε σ} (h : ∀ s a s', f s a = .ok s' → g s a = .ok s')
    {xs : List α} {s s' : σ} (hf : xs.foldlM f s = .ok s') : xs.foldlM g s = .ok s' := by
  induction xs generalizing s with
  | nil => exact hf
  | cons x xs ih =>
    obtain ⟨next, hx, hrest⟩ := bind_eq_ok.1 hf
    exact bind_eq_ok.2 ⟨next, h _ _ _ hx, ih hrest⟩

theorem foldlM_option_inv {step : σ → α → Option σ} {P : σ → Prop}
    (hstep : ∀ s a s', step s a = some s' → P s → P s') {xs : List α}
    (h : xs.foldlM step s = some s') (hs : P s) : P s' := by
  induction xs generalizing s with
  | nil =>
    cases h
    exact hs
  | cons x xs ih =>
    simp only [foldlM_cons, bind_eq_bind, bind_eq_some_iff] at h
    obtain ⟨mid, hx, hxs⟩ := h
    exact ih hxs (hstep s x mid hx hs)

theorem foldlM_except_inv {step : σ → α → Except ε σ} {P : σ → Prop}
    (hstep : ∀ s a s', step s a = .ok s' → P s → P s') {xs : List α}
    (h : xs.foldlM step s = .ok s') (hs : P s) : P s' := by
  induction xs generalizing s with
  | nil =>
    cases h
    exact hs
  | cons x xs ih =>
    rw [foldlM_cons, bind_eq_ok] at h
    obtain ⟨mid, hx, hxs⟩ := h
    exact ih hxs (hstep s x mid hx hs)

theorem mapM_ok_iff {f : α → Except ε β} :
    xs.mapM f = .ok ys ↔ List.Forall₂ (fun x y => f x = .ok y) xs ys := by
  induction xs generalizing ys with
  | nil =>
    rw [mapM_nil, List.forall₂_nil_left_iff, pure_eq_ok, Except.ok.injEq, eq_comm]
  | cons x xs ih =>
    rw [mapM_cons, bind_eq_ok, List.forall₂_cons_left_iff]
    constructor
    · rintro ⟨y, hy, h⟩
      obtain ⟨ys', hys, h⟩ := bind_eq_ok.1 h
      cases h
      exact ⟨y, ys', hy, ih.1 hys, rfl⟩
    · rintro ⟨y, ys', hy, hys, rfl⟩
      exact ⟨y, hy, bind_eq_ok.2 ⟨ys', ih.2 hys, rfl⟩⟩

theorem exists_forall₂_iff (R : α → β → Prop) (xs : List α) :
    (∃ ys, List.Forall₂ R xs ys) ↔ ∀ x ∈ xs, ∃ y, R x y := by
  induction xs with
  | nil => exact ⟨fun _ _ hx => absurd hx not_mem_nil, fun _ => ⟨[], .nil⟩⟩
  | cons x xs ih =>
    rw [forall_mem_cons, ← ih]
    constructor
    · intro h
      obtain ⟨ys, hys⟩ := h
      cases hys with
      | cons hx hrest => exact ⟨⟨_, hx⟩, _, hrest⟩
    · intro h
      obtain ⟨⟨y, hy⟩, ys, hys⟩ := h
      exact ⟨y :: ys, .cons hy hys⟩

theorem forall₂_mem_left (h : List.Forall₂ R xs ys) (hx : x ∈ xs) : ∃ y ∈ ys, R x y := by
  induction h with
  | nil => exact absurd hx not_mem_nil
  | @cons a b xs ys hab _ ih =>
    rcases mem_cons.1 hx with rfl | hx
    · exact ⟨b, mem_cons_self, hab⟩
    · obtain ⟨y, hy, hxy⟩ := ih hx
      exact ⟨y, mem_cons_of_mem b hy, hxy⟩

theorem forall₂_mem_right (h : List.Forall₂ R xs ys) (hy : y ∈ ys) :
    ∃ x ∈ xs, R x y := forall₂_mem_left h.flip hy

theorem exists_mapM_ok {f : α → Except ε β} {xs : List α} (h : ∀ x ∈ xs, ∃ y, f x = .ok y) :
    ∃ ys, xs.mapM f = .ok ys := by
  induction xs with
  | nil => exact ⟨[], rfl⟩
  | cons x xs ih =>
    obtain ⟨hx, hxs⟩ := forall_mem_cons.1 h
    obtain ⟨y, hy⟩ := hx
    obtain ⟨ys, hys⟩ := ih hxs
    exact ⟨y :: ys, mapM_ok_iff.2 (.cons hy (mapM_ok_iff.1 hys))⟩

theorem mapM_congr {f g : α → Except ε β} {xs : List α} (h : ∀ x ∈ xs, f x = g x) :
    xs.mapM f = xs.mapM g := by
  induction xs with
  | nil => rfl
  | cons x xs ih =>
    obtain ⟨hx, hxs⟩ := forall_mem_cons.1 h
    rw [mapM_cons, mapM_cons, hx, ih hxs]

def okOr (d : α) : Except ε α → α
  | .ok a => a
  | .error _ => d

/-- A loop whose steps compute an effect without looking at the state, and then apply it, goes
through exactly when every effect does, and applies them in turn. -/
theorem foldlM_ok_iff {step : σ → α → Except ε σ} {effect : α → Except ε ω}
    {apply : σ → ω → σ} (d : ω) {P : σ → Prop}
    (hstep : ∀ s x, P s → step s x = (effect x).map (apply s))
    (hP : ∀ s x w, effect x = .ok w → P s → P (apply s w)) {xs : List α} (hs : P s) :
    xs.foldlM step s = .ok s' ↔
      (∀ x ∈ xs, ∃ w, effect x = .ok w) ∧
        s' = xs.foldl (fun s x => apply s (okOr d (effect x))) s := by
  induction xs generalizing s with
  | nil =>
    constructor
    · intro h
      cases h
      exact ⟨fun _ hx => absurd hx not_mem_nil, rfl⟩
    · rintro ⟨_, rfl⟩
      rfl
  | cons x xs ih =>
    rw [foldlM_cons, hstep s x hs, foldl_cons]
    cases he : effect x with
    | error e =>
      constructor
      · intro h
        cases h
      · rintro ⟨hall, _⟩
        obtain ⟨w, hw⟩ := hall x mem_cons_self
        rw [he] at hw
        cases hw
    | ok w =>
      have hrest := ih (hP s x w he hs)
      constructor
      · intro h
        obtain ⟨hall, hfold⟩ := hrest.1 h
        exact ⟨forall_mem_cons.2 ⟨⟨w, he⟩, hall⟩, hfold⟩
      · rintro ⟨hall, hfold⟩
        exact hrest.2 ⟨(forall_mem_cons.1 hall).2, hfold⟩

def lastSome (f : α → Option β) (xs : List α) : Option β :=
  xs.foldl (fun acc x => (f x).or acc) none

theorem lastSome_foldl (f : α → Option β) (xs : List α) (acc : Option β) :
    xs.foldl (fun acc x => (f x).or acc) acc = (lastSome f xs).or acc := by
  unfold lastSome
  induction xs generalizing acc with
  | nil => rfl
  | cons x xs ih =>
    rw [foldl_cons, foldl_cons, ih, ih ((f x).or none), Option.or_assoc, Option.or_none]

theorem lastSome_append (f : α → Option β) (xs ys : List α) :
    lastSome f (xs ++ ys) = (lastSome f ys).or (lastSome f xs) := by
  rw [lastSome, foldl_append, lastSome_foldl]
  rfl

theorem lastSome_cons (f : α → Option β) (x : α) (xs : List α) :
    lastSome f (x :: xs) = (lastSome f xs).or (f x) := by
  rw [← singleton_append, lastSome_append]
  simp only [lastSome, foldl_cons, foldl_nil, or_none]

theorem lastSome_eq_none_iff :
    lastSome f xs = none ↔ ∀ x ∈ xs, f x = none := by
  induction xs with
  | nil => exact ⟨fun _ _ hx => absurd hx not_mem_nil, fun _ => rfl⟩
  | cons x xs ih =>
    rw [lastSome_cons, or_eq_none_iff, ih, forall_mem_cons, and_comm]

theorem exists_of_lastSome (h : lastSome f xs = some b) :
    ∃ x ∈ xs, f x = some b := by
  induction xs with
  | nil => cases h
  | cons x xs ih =>
    rw [lastSome_cons, or_eq_some_iff] at h
    rcases h with h | ⟨_, h⟩
    · obtain ⟨y, hy, hb⟩ := ih h
      exact ⟨y, mem_cons_of_mem _ hy, hb⟩
    · exact ⟨x, mem_cons_self, h⟩

theorem lastSome_isSome (hx : x ∈ xs) (h : (f x).isSome) :
    (lastSome f xs).isSome := by
  rw [isSome_iff_ne_none] at h ⊢
  exact fun hnone => h (lastSome_eq_none_iff.1 hnone x hx)

theorem lastSome_eq_some (hx : x ∈ xs) (hb : f x = some b)
    (hagree : ∀ y ∈ xs, ∀ c, f y = some c → c = b) : lastSome f xs = some b := by
  cases h : lastSome f xs with
  | none =>
    rw [lastSome_eq_none_iff.1 h x hx] at hb
    cases hb
  | some c =>
    obtain ⟨y, hy, hc⟩ := exists_of_lastSome h
    rw [hagree y hy c hc]

theorem lastSome_map (f : β → Option γ) (g : α → β) (xs : List α) :
    lastSome f (xs.map g) = lastSome (f ∘ g) xs := by
  induction xs with
  | nil => rfl
  | cons x xs ih =>
    rw [map_cons, lastSome_cons, lastSome_cons, ih]
    rfl

theorem lastSome_map_value (f : α → Option β) (g : β → γ) (xs : List α) :
    lastSome (fun x => (f x).map g) xs = (lastSome f xs).map g := by
  induction xs with
  | nil => rfl
  | cons x xs ih =>
    rw [lastSome_cons, lastSome_cons, ih]
    cases lastSome f xs <;> rfl

theorem lastSome_filterMap (f : β → Option γ) (g : α → Option β) (xs : List α) :
    lastSome f (xs.filterMap g) = lastSome (fun x => (g x).bind f) xs := by
  induction xs with
  | nil => rfl
  | cons x xs ih =>
    rw [filterMap_cons, lastSome_cons, ← ih]
    cases g x with
    | none => rw [bind_none, or_none]
    | some y => rw [lastSome_cons, bind_some]

def Agree (f : α → Option β) (xs : List α) : Prop :=
  ∀ x ∈ xs, ∀ y ∈ xs, ∀ b c, f x = some b → f y = some c → b = c

theorem lastSome_perm (h : ys.Perm xs) (hagree : Agree f xs) :
    lastSome f ys = lastSome f xs := by
  cases hx : lastSome f xs with
  | none =>
    rw [lastSome_eq_none_iff] at hx ⊢
    exact fun y hy => hx y (h.subset hy)
  | some b =>
    obtain ⟨x, hmem, hb⟩ := exists_of_lastSome hx
    refine lastSome_eq_some (h.symm.subset hmem) hb fun y hy c hc => ?_
    exact hagree y (h.subset hy) x hmem c b hc hb

theorem agree_of_lastSome_perm (h : ∀ ys, List.Perm ys xs → lastSome f ys = lastSome f xs) :
    Agree f xs := by
  have hlast : ∀ x ∈ xs, ∀ b, f x = some b → lastSome f xs = some b := by
    intro x hx b hb
    obtain ⟨as, bs, rfl⟩ := append_of_mem hx
    have hperm : ((as ++ bs) ++ [x]).Perm (as ++ x :: bs) :=
      (perm_append_singleton x (as ++ bs)).trans perm_middle.symm
    rw [← h _ hperm, lastSome_append, lastSome_cons, hb]
    rfl
  intro x hx y hy b c hb hc
  exact some.inj ((hlast x hx b hb).symm.trans (hlast y hy c hc))

section Writes
variable [DecidableEq κ]

def insertAll (m : AList (fun _ : κ => β)) (writes : List (κ × β)) : AList (fun _ : κ => β) :=
  writes.foldl (fun m w => m.insert w.1 w.2) m

def writtenAt (k : κ) (writes : List (κ × β)) : Option β :=
  lastSome (fun w => if w.1 = k then some w.2 else none) writes

theorem mem_of_writtenAt {writes : List (κ × β)} (h : writtenAt k writes = some b) :
    (k, b) ∈ writes := by
  obtain ⟨w, hw, hif⟩ := exists_of_lastSome h
  split at hif
  · rename_i hkey
    cases hif
    exact hkey ▸ hw
  · cases hif

theorem writtenAt_isSome {writes : List (κ × β)} (h : (k, b) ∈ writes) :
    (writtenAt k writes).isSome :=
  lastSome_isSome h (by rw [if_pos rfl]; rfl)

theorem lookup_foldl_insert (key : α → κ) (value : α → β) (m : AList (fun _ : κ => β)) (xs : List α)
    (k : κ) :
    (xs.foldl (fun m x => m.insert (key x) (value x)) m).lookup k =
      (lastSome (fun x => if key x = k then some (value x) else none) xs).or (m.lookup k) := by
  induction xs generalizing m with
  | nil => rfl
  | cons x xs ih =>
    rw [foldl_cons, ih, lastSome_cons, Option.or_assoc]
    congr 1
    by_cases hk : key x = k
    · subst hk
      rw [if_pos rfl, AList.lookup_insert]
      rfl
    · rw [if_neg hk, AList.lookup_insert_ne (Ne.symm hk)]
      rfl

theorem lookup_insertAll (m : AList (fun _ : κ => β)) (writes : List (κ × β)) (k : κ) :
    (insertAll m writes).lookup k = (writtenAt k writes).or (m.lookup k) :=
  lookup_foldl_insert Prod.fst Prod.snd m writes k

theorem lastSome_entries (m : AList (fun _ : κ => β)) (k : κ) :
    lastSome (fun entry => if entry.1 = k then some entry.2 else none) m.entries = m.lookup k := by
  cases h : m.lookup k with
  | none =>
    rw [lastSome_eq_none_iff]
    intro entry hentry
    refine if_neg fun hk => ?_
    subst hk
    rw [AList.mem_lookup_iff.2 hentry] at h
    cases h
  | some b =>
    refine lastSome_eq_some (AList.mem_lookup_iff.1 h) (if_pos rfl) fun entry hentry c hc => ?_
    split at hc
    · rename_i hk
      subst hk
      have hlookup := AList.mem_lookup_iff.2 hentry
      rw [mem_def, h] at hlookup
      exact some.inj (hc.symm.trans hlookup.symm)
    · cases hc

end Writes

end Heddle.Lib
