import Heddle.Merge.Content
import Heddle.Merge.LastHunk

namespace Heddle.Merge
open Heddle.Lib List

section Chunks

theorem utf8Chunk_bounds (b : UInt8) (rest : Bytes) :
    1 ≤ (utf8Chunk b rest).1 ∧ (utf8Chunk b rest).1 ≤ rest.length + 1 := by
  rcases rest with _ | ⟨c, _ | ⟨d, _ | ⟨e, rest⟩⟩⟩
  all_goals
    simp only [utf8Chunk]
    repeat' split
    all_goals simp

theorem utf8Chunk_append (h : utf8Chunk b rest = (len, true)) (more : Bytes) :
    utf8Chunk b (rest.take (len - 1) ++ more) = (len, true) := by
  by_cases h1 : b < 0x80
  · simp only [utf8Chunk, if_pos h1] at h ⊢
    exact h
  by_cases h2 : (0xC2 ≤ b && b ≤ 0xDF) = true
  · simp only [utf8Chunk, if_neg h1, if_pos h2] at h
    rcases rest with _ | ⟨c, rest⟩
    · cases h
    · by_cases hc : (0x80 ≤ c && c ≤ 0xBF) = true
      · obtain ⟨rfl, _⟩ := Prod.mk.inj ((if_pos hc).symm.trans h)
        exact (if_neg h1).trans ((if_pos h2).trans (if_pos hc))
      · cases (if_neg hc).symm.trans h
  by_cases h3 : (0xE0 ≤ b && b ≤ 0xEF) = true
  · simp only [utf8Chunk, if_neg h1, if_neg h2, if_pos h3] at h
    rcases rest with _ | ⟨c, _ | ⟨d, rest⟩⟩
    · cases h
    · have hflag := congrArg Prod.snd h
      simp [apply_ite Prod.snd] at hflag
    · by_cases hc : (if b = 0xE0 then 0xA0 ≤ c && c ≤ 0xBF
        else if b = 0xED then 0x80 ≤ c && c ≤ 0x9F else 0x80 ≤ c && c ≤ 0xBF) = true
      · by_cases hd : (0x80 ≤ d && d ≤ 0xBF) = true
        · obtain ⟨rfl, _⟩ := Prod.mk.inj (((if_pos hc).trans (if_pos hd)).symm.trans h)
          exact (if_neg h1).trans ((if_neg h2).trans ((if_pos h3).trans ((if_pos hc).trans (if_pos hd))))
        · cases ((if_pos hc).trans (if_neg hd)).symm.trans h
      · cases (if_neg hc).symm.trans h
  by_cases h4 : (0xF0 ≤ b && b ≤ 0xF4) = true
  · simp only [utf8Chunk, if_neg h1, if_neg h2, if_neg h3, if_pos h4] at h
    rcases rest with _ | ⟨c, _ | ⟨d, _ | ⟨e, rest⟩⟩⟩
    · cases h
    · have hflag := congrArg Prod.snd h
      simp [apply_ite Prod.snd] at hflag
    · have hflag := congrArg Prod.snd h
      simp [apply_ite Prod.snd] at hflag
    · by_cases hc : (if b = 0xF0 then 0x90 ≤ c && c ≤ 0xBF
        else if b = 0xF4 then 0x80 ≤ c && c ≤ 0x8F else 0x80 ≤ c && c ≤ 0xBF) = true
      · by_cases hd : (0x80 ≤ d && d ≤ 0xBF) = true
        · by_cases he : (0x80 ≤ e && e ≤ 0xBF) = true
          · obtain ⟨rfl, _⟩ := Prod.mk.inj
              (((if_pos hc).trans ((if_pos hd).trans (if_pos he))).symm.trans h)
            exact (if_neg h1).trans ((if_neg h2).trans ((if_neg h3).trans ((if_pos h4).trans
              ((if_pos hc).trans ((if_pos hd).trans (if_pos he))))))
          · cases ((if_pos hc).trans ((if_pos hd).trans (if_neg he))).symm.trans h
        · cases ((if_pos hc).trans (if_neg hd)).symm.trans h
      · cases (if_neg hc).symm.trans h
  · simp only [utf8Chunk, if_neg h1, if_neg h2, if_neg h3, if_neg h4] at h
    cases h

theorem utf8Chunk_ascii (hc : c < 0x80) (b : UInt8) (rest more : Bytes) :
    utf8Chunk b (rest ++ c :: more) = utf8Chunk b rest := by
  have hcont : ∀ lo : UInt8, 0x80 ≤ lo → decide (lo ≤ c) = false := by
    intro lo hlo
    simp only [UInt8.le_iff_toNat_le, UInt8.lt_iff_toNat_lt, decide_eq_false_iff_not] at *
    omega
  have h80 := hcont 0x80 (by decide)
  have h90 := hcont 0x90 (by decide)
  have hA0 := hcont 0xA0 (by decide)
  rcases rest with _ | ⟨x, _ | ⟨y, _ | ⟨z, rest⟩⟩⟩
  · rcases more with _ | ⟨x, _ | ⟨y, more⟩⟩
    all_goals simp [utf8Chunk, h80, h90, hA0]
  · rcases more with _ | ⟨y, more⟩
    all_goals simp [utf8Chunk, h80]
  · simp [utf8Chunk, h80]
  · rfl

def replacement : Bytes := [0xEF, 0xBF, 0xBD]

/-- The scalars and the ill-formed parts of a text, one after the other. -/
def chunkLoop : Nat → Bytes → List (Bytes × Bool)
  | 0, _ => []
  | _, [] => []
  | fuel + 1, b :: rest =>
    let (len, wellFormed) := utf8Chunk b rest
    ((b :: rest).take len, wellFormed) :: chunkLoop fuel ((b :: rest).drop len)

def utf8Chunks (bytes : Bytes) : List (Bytes × Bool) := chunkLoop bytes.length bytes

def shown (chunk : Bytes × Bool) : Bytes := if chunk.2 then chunk.1 else replacement

theorem chunkLoop_fuel (h : bytes.length ≤ fuel) : chunkLoop fuel bytes = utf8Chunks bytes := by
  have hany : ∀ fuel fuel' (bytes : Bytes), bytes.length ≤ fuel → bytes.length ≤ fuel' →
      chunkLoop fuel bytes = chunkLoop fuel' bytes := by
    intro fuel
    induction fuel with
    | zero =>
      intro fuel' bytes h _
      obtain rfl := length_eq_zero_iff.1 (Nat.le_zero.1 h)
      cases fuel' <;> rfl
    | succ fuel ih =>
      intro fuel' bytes h h'
      cases bytes with
      | nil => cases fuel' <;> rfl
      | cons b rest =>
        obtain ⟨fuel', rfl⟩ : ∃ k, fuel' = k + 1 := ⟨fuel' - 1, by simp at h'; omega⟩
        have hpos := (utf8Chunk_bounds b rest).1
        simp only [chunkLoop]
        rw [ih fuel' ((b :: rest).drop (utf8Chunk b rest).1) (by simp at h ⊢; omega)
          (by simp at h' ⊢; omega)]
  exact hany _ _ _ h le_rfl

theorem utf8Chunks_cons (h : utf8Chunk b rest = (len, wellFormed)) :
    utf8Chunks (b :: rest) =
      ((b :: rest).take len, wellFormed) :: utf8Chunks ((b :: rest).drop len) := by
  have hpos := (utf8Chunk_bounds b rest).1
  rw [h] at hpos
  rw [utf8Chunks, length_cons, chunkLoop, h]
  dsimp only
  rw [chunkLoop_fuel (by simp; omega)]

theorem lossyLoop_eq (fuel : Nat) (bytes : Bytes) :
    lossyLoop fuel bytes = ((chunkLoop fuel bytes).map shown).flatten := by
  induction fuel generalizing bytes with
  | zero => rfl
  | succ fuel ih =>
    cases bytes with
    | nil => rfl
    | cons b rest =>
      simp only [lossyLoop, chunkLoop, map_cons, flatten_cons, ih]
      rfl

theorem fromUtf8Lossy_eq (bytes : Bytes) :
    fromUtf8Lossy bytes = ((utf8Chunks bytes).map shown).flatten := lossyLoop_eq ..

theorem chunk_induction {motive : Bytes → Prop} (nil : motive [])
    (cons : ∀ b rest len wellFormed, utf8Chunk b rest = (len, wellFormed) →
      motive ((b :: rest).drop len) → motive (b :: rest)) (bytes : Bytes) : motive bytes := by
  induction hlen : bytes.length using Nat.strong_induction_on generalizing bytes with
  | h n ih =>
    cases bytes with
    | nil => exact nil
    | cons b rest =>
      have hpos := (utf8Chunk_bounds b rest).1
      refine cons b rest (utf8Chunk b rest).1 (utf8Chunk b rest).2 rfl (ih _ ?_ _ rfl)
      rw [length_drop]
      rw [length_cons] at hlen ⊢
      omega

theorem utf8Chunks_flatten (bytes : Bytes) : ((utf8Chunks bytes).map Prod.fst).flatten = bytes := by
  induction bytes using chunk_induction with
  | nil => rfl
  | cons b rest len wellFormed h ih =>
    rw [utf8Chunks_cons h, map_cons, flatten_cons, ih, take_append_drop]

def Scalar (bytes : Bytes) : Prop :=
  ∀ more, utf8Chunks (bytes ++ more) = (bytes, true) :: utf8Chunks more

theorem scalar_of_utf8Chunk (h : utf8Chunk b rest = (len, true)) :
    Scalar ((b :: rest).take len) := by
  intro more
  have hbounds := utf8Chunk_bounds b rest
  rw [h] at hbounds
  obtain ⟨m, rfl⟩ : ∃ m, len = m + 1 := ⟨len - 1, by omega⟩
  have hnext := utf8Chunk_append h more
  have hlen : (rest.take m).length = m := by
    rw [length_take]
    omega
  rw [Nat.add_sub_cancel] at hnext
  rw [take_succ_cons, cons_append, utf8Chunks_cons hnext, take_succ_cons,
    drop_succ_cons, take_left' hlen, drop_left' hlen]

theorem scalar_of_mem (h : p ∈ utf8Chunks bytes) (hp : p.2 = true) : Scalar p.1 := by
  induction bytes using chunk_induction with
  | nil => cases h
  | cons b rest len wellFormed hchunk ih =>
    rw [utf8Chunks_cons hchunk] at h
    rcases mem_cons.1 h with rfl | h
    · obtain rfl : wellFormed = true := hp
      exact scalar_of_utf8Chunk hchunk
    · exact ih h

theorem scalar_replacement : Scalar replacement := by
  intro more
  have hchunk : utf8Chunk 0xEF (0xBF :: 0xBD :: more) = (3, true) := rfl
  exact utf8Chunks_cons hchunk

theorem scalar_shown (h : p ∈ utf8Chunks bytes) : Scalar (shown p) := by
  unfold shown
  split
  · rename_i hp
    exact scalar_of_mem h hp
  · exact scalar_replacement

theorem utf8Chunks_scalars {scalars : List Bytes} (h : ∀ c ∈ scalars, Scalar c) (more : Bytes) :
    utf8Chunks (scalars.flatten ++ more) = scalars.map (·, true) ++ utf8Chunks more := by
  induction scalars with
  | nil => rfl
  | cons c scalars ih =>
    obtain ⟨hc, hrest⟩ := forall_mem_cons.1 h
    rw [flatten_cons, append_assoc, hc, ih hrest]
    rfl

theorem utf8Chunks_ascii (hc : c < 0x80) (bytes more : Bytes) :
    utf8Chunks (bytes ++ c :: more) = utf8Chunks bytes ++ utf8Chunks (c :: more) := by
  induction bytes using chunk_induction with
  | nil => rfl
  | cons b rest len wellFormed h ih =>
    have hbounds := utf8Chunk_bounds b rest
    rw [h] at hbounds
    have hle : len ≤ (b :: rest).length := hbounds.2
    have hchunk := (utf8Chunk_ascii hc b rest more).trans h
    rw [cons_append, utf8Chunks_cons hchunk, utf8Chunks_cons h, ← cons_append,
      take_append_of_le_length hle, drop_append_of_le_length hle, ih, cons_append]

def IsText (bytes : Bytes) : Prop :=
  ∀ p ∈ utf8Chunks bytes, p.2 = true ∧ p.1 ≠ replacement

theorem utf8Chunks_lossy (bytes : Bytes) :
    utf8Chunks (fromUtf8Lossy bytes) = (utf8Chunks bytes).map fun p => (shown p, true) := by
  have hscalars : ∀ c ∈ (utf8Chunks bytes).map shown, Scalar c := by
    intro c hc
    obtain ⟨p, hp, rfl⟩ := mem_map.1 hc
    exact scalar_shown hp
  have hchunks := utf8Chunks_scalars hscalars []
  rw [append_nil, ← fromUtf8Lossy_eq] at hchunks
  rw [hchunks, map_map]
  exact append_nil _

theorem lossy_of_wellFormed (h : ∀ p ∈ utf8Chunks bytes, p.2 = true) : fromUtf8Lossy bytes = bytes := by
  rw [fromUtf8Lossy_eq]
  nth_rewrite 2 [← utf8Chunks_flatten bytes]
  refine congrArg _ (map_congr_left fun p hp => ?_)
  rw [shown, if_pos (h p hp)]

theorem IsText.lossy (h : IsText bytes) : fromUtf8Lossy bytes = bytes :=
  lossy_of_wellFormed fun p hp => (h p hp).1

theorem IsText.eq_of_lossy (h : IsText bytes) (hlossy : fromUtf8Lossy other = bytes) :
    other = bytes := by
  have hchunks := utf8Chunks_lossy other
  rw [hlossy] at hchunks
  rw [← hlossy]
  refine (lossy_of_wellFormed fun p hp => ?_).symm
  cases hflag : p.2 with
  | true => rfl
  | false =>
    have hshown : (shown p, true) ∈ utf8Chunks bytes := by
      rw [hchunks]
      exact mem_map_of_mem hp
    have hne := (h _ hshown).2
    rw [shown, hflag] at hne
    exact absurd rfl hne

theorem exists_same_lossy (h : ¬ IsText bytes) :
    ∃ other, other ≠ bytes ∧ fromUtf8Lossy other = fromUtf8Lossy bytes := by
  by_cases hwell : ∀ p ∈ utf8Chunks bytes, p.2 = true
  · obtain ⟨p, hp, hrepl⟩ : ∃ p ∈ utf8Chunks bytes, p.1 = replacement := by
      by_contra hnone
      exact h fun p hp => ⟨hwell p hp, fun hrepl => hnone ⟨p, hp, hrepl⟩⟩
    obtain ⟨xs, ys, hsplit⟩ := append_of_mem hp
    have hflat := utf8Chunks_flatten bytes
    have hscalar : ∀ q ∈ utf8Chunks bytes, Scalar q.1 := fun q hq => scalar_of_mem hq (hwell q hq)
    rw [hsplit] at hflat hscalar hwell
    simp only [map_append, map_cons, flatten_append, flatten_cons,
      hrepl] at hflat
    have hxs : ∀ c ∈ xs.map Prod.fst, Scalar c := by
      intro c hc
      obtain ⟨q, hq, rfl⟩ := mem_map.1 hc
      exact hscalar q (mem_append_left _ hq)
    have hys : ∀ c ∈ ys.map Prod.fst, Scalar c := by
      intro c hc
      obtain ⟨q, hq, rfl⟩ := mem_map.1 hc
      exact hscalar q (mem_append_right _ (.tail _ hq))
    have hbroken : utf8Chunk 0xFF (ys.map Prod.fst).flatten = (1, false) := rfl
    refine ⟨(xs.map Prod.fst).flatten ++ 0xFF :: (ys.map Prod.fst).flatten, fun heq => ?_, ?_⟩
    · have hlen := congrArg List.length (heq.trans hflat.symm)
      simp only [length_append, length_cons, replacement] at hlen
      omega
    · have hrest := utf8Chunks_scalars hys []
      rw [append_nil] at hrest
      have hchunks : utf8Chunks ((xs.map Prod.fst).flatten ++ 0xFF :: (ys.map Prod.fst).flatten) =
          (xs.map Prod.fst).map (·, true) ++
            ([0xFF], false) :: (ys.map Prod.fst).map (·, true) := by
        rw [utf8Chunks_scalars hxs, utf8Chunks_cons hbroken]
        exact congrArg (fun chunks => _ ++ _ :: chunks) (hrest.trans (append_nil _))
      have hkeep : ∀ chunks : List Bytes, (chunks.map (·, true)).map shown = chunks := by
        intro chunks
        rw [map_map]
        exact map_id _
      have hbytes : fromUtf8Lossy bytes = bytes := lossy_of_wellFormed (hsplit ▸ hwell)
      rw [hbytes, fromUtf8Lossy_eq, hchunks, ← hflat, map_append, map_cons, hkeep, hkeep,
        flatten_append, flatten_cons]
      rfl
  · refine ⟨fromUtf8Lossy bytes, fun heq => hwell fun p hp => ?_, ?_⟩
    · have hchunks := utf8Chunks_lossy bytes
      rw [heq] at hchunks
      rw [hchunks] at hp
      obtain ⟨q, _, rfl⟩ := mem_map.1 hp
      rfl
    · refine lossy_of_wellFormed fun p hp => ?_
      rw [utf8Chunks_lossy] at hp
      obtain ⟨q, _, rfl⟩ := mem_map.1 hp
      rfl

theorem isText_append (hxs : IsText xs) (hys : IsText ys) : IsText (xs ++ ys) := by
  have hscalars : ∀ c ∈ (utf8Chunks xs).map Prod.fst, Scalar c := by
    intro c hc
    obtain ⟨p, hp, rfl⟩ := mem_map.1 hc
    exact scalar_of_mem hp (hxs p hp).1
  have hchunks := utf8Chunks_scalars hscalars ys
  rw [utf8Chunks_flatten] at hchunks
  intro p hp
  rw [hchunks] at hp
  rcases mem_append.1 hp with hp | hp
  · obtain ⟨c, hc, rfl⟩ := mem_map.1 hp
    obtain ⟨q, hq, rfl⟩ := mem_map.1 hc
    exact ⟨rfl, (hxs q hq).2⟩
  · exact hys p hp

theorem IsText.of_ascii (hc : c < 0x80) (h : IsText (xs ++ c :: ys)) :
    IsText xs ∧ IsText (c :: ys) := by
  rw [IsText, utf8Chunks_ascii hc] at h
  exact ⟨fun p hp => h p (mem_append_left _ hp), fun p hp => h p (mem_append_right _ hp)⟩

theorem utf8Chunks_cons_ascii (hc : c < 0x80) (bytes : Bytes) :
    utf8Chunks (c :: bytes) = ([c], true) :: utf8Chunks bytes := by
  have hchunk : utf8Chunk c bytes = (1, true) := by
    simp only [utf8Chunk, if_pos hc]
  exact utf8Chunks_cons hchunk

theorem IsText.cut (hline : ∀ c ∈ line, c < 0x80) (hne : line ≠ [])
    (h : IsText (xs ++ line ++ ys)) : IsText xs ∧ IsText ys := by
  have hbehind : ∀ line : Bytes, (∀ c ∈ line, c < 0x80) → IsText (line ++ ys) → IsText ys := by
    intro line
    induction line with
    | nil => exact fun _ h => h
    | cons c line ih =>
      intro hline h
      obtain ⟨hc, hrest⟩ := forall_mem_cons.1 hline
      rw [cons_append, IsText, utf8Chunks_cons_ascii hc] at h
      exact ih hrest fun p hp => h p (.tail _ hp)
  obtain ⟨c, line', rfl⟩ := exists_cons_of_ne_nil hne
  rw [append_assoc, cons_append] at h
  obtain ⟨hxs, hrest⟩ := h.of_ascii (hline c mem_cons_self)
  exact ⟨hxs, hbehind _ hline hrest⟩

end Chunks

section Sides

def written (content : Bytes) : Bytes := ensureTrailingNewline (fromUtf8Lossy content)

def separator : Line := utf8 "=======\n"

theorem formatConflictContent_eq (ourContent theirContent : Bytes) (labels : ConflictLabels) :
    formatConflictContent ourContent theirContent labels =
      utf8 "<<<<<<< " ++ utf8 labels.current ++ [newline] ++
        (written ourContent ++ separator ++ written theirContent) ++
        (utf8 ">>>>>>> " ++ utf8 labels.incoming ++ [newline]) := by
  have hsep : ∀ text : Bytes, text ++ (if text.isEmpty ∨ text.getLast? = some newline then []
      else [newline]) = ensureTrailingNewline text := by
    intro text
    rw [ensureTrailingNewline]
    cases hlast : text.getLast? with
    | none =>
      obtain rfl := getLast?_eq_none_iff.1 hlast
      rfl
    | some b =>
      have hne : text.isEmpty = false := by
        cases text with
        | nil => cases hlast
        | cons => rfl
      by_cases hb : b = newline
      · simp [hb]
      · simp [hne, hb]
  simp only [formatConflictContent, written, ← hsep, separator, append_assoc]

theorem formatConflictContent_eq_iff (labels : ConflictLabels) :
    formatConflictContent ours theirs labels = formatConflictContent ours' theirs' labels ↔
      written ours ++ separator ++ written theirs = written ours' ++ separator ++ written theirs' := by
  rw [formatConflictContent_eq, formatConflictContent_eq, append_left_inj,
    append_right_inj]

theorem written_closed (content : Bytes) : Closed (written content) :=
  ensureTrailingNewline_closed _

/-- A side that no other is written as: text without U+FFFD that needs no newline, and that would
need one without its last. -/
def Verbatim (content : Bytes) : Prop :=
  IsText content ∧ (content = [] ∨ content = [newline] ∨ ∃ body, content = body ++ [newline, newline])

theorem Verbatim.closed (h : Verbatim content) : Closed content := by
  rcases h.2 with rfl | rfl | ⟨body, rfl⟩
  · exact .inl rfl
  · exact .inr ⟨[], rfl⟩
  · exact .inr ⟨body ++ [newline], by simp⟩

theorem Verbatim.written (h : Verbatim content) : written content = content := by
  rw [Merge.written, h.1.lossy, ensureTrailingNewline_of_closed h.closed]

theorem Verbatim.eq_of_written (h : Verbatim content) (hother : Merge.written other = content) :
    other = content := by
  apply h.1.eq_of_lossy
  rw [Merge.written, ensureTrailingNewline] at hother
  split at hother
  · rename_i hopen
    exfalso
    rcases h.2 with rfl | rfl | ⟨body, rfl⟩
    · simp at hother
    · have hnil := append_left_eq_self.1 hother
      rw [hnil] at hopen
      cases hopen
    · have hbody : fromUtf8Lossy other = body ++ [newline] := by
        have hcut : fromUtf8Lossy other ++ [newline] = body ++ [newline] ++ [newline] := by
          rw [hother, append_assoc]
          rfl
        exact append_cancel_right hcut
      rw [hbody, getLast?_concat] at hopen
      simp at hopen
  · exact hother

theorem exists_same_written (h : ¬ Verbatim content) :
    ∃ other, other ≠ content ∧ written other = written content := by
  by_cases htext : IsText content
  · have hends : content ≠ [] ∧ content ≠ [newline] ∧
        ¬ ∃ body, content = body ++ [newline, newline] := by
      refine ⟨fun hnil => h ⟨htext, .inl hnil⟩, fun hone => h ⟨htext, .inr (.inl hone)⟩,
        fun hbody => h ⟨htext, .inr (.inr hbody)⟩⟩
    obtain ⟨hne, hone, hbody⟩ := hends
    obtain ⟨body, b, rfl⟩ := (eq_nil_or_concat content).resolve_left hne
    rw [concat_eq_append] at *
    by_cases hb : b = newline
    · subst hb
      have hbodyText : IsText body := (htext.of_ascii (by decide)).1
      refine ⟨body, fun heq => ?_, ?_⟩
      · have hlen := congrArg List.length heq
        simp at hlen
      · have hopen : body.getLast?.any (· ≠ newline) = true := by
          cases hlast : body.getLast? with
          | none =>
            obtain rfl := getLast?_eq_none_iff.1 hlast
            exact absurd rfl hone
          | some c =>
            obtain ⟨front, rfl⟩ := getLast?_eq_some_iff.1 hlast
            have hc : c ≠ newline := by
              rintro rfl
              exact hbody ⟨front, by simp⟩
            simpa using hc
        have hclosed : Closed (body ++ [newline]) := .inr ⟨body, rfl⟩
        rw [written, written, hbodyText.lossy, htext.lossy, ensureTrailingNewline_of_closed hclosed,
          ensureTrailingNewline, if_pos hopen]
    · have hnewline : IsText [newline] := by
        intro p hp
        obtain rfl : p = ([newline], true) := mem_singleton.1 hp
        exact ⟨rfl, by decide⟩
      refine ⟨body ++ [b] ++ [newline], fun heq => ?_, ?_⟩
      · have hlen := congrArg List.length heq
        simp at hlen
      · have hclosed : Closed (body ++ [b] ++ [newline]) := .inr ⟨body ++ [b], rfl⟩
        have hopen : (body ++ [b]).getLast?.any (· ≠ newline) = true := by
          rw [getLast?_concat]
          simpa using hb
        rw [written, written, (isText_append htext hnewline).lossy, htext.lossy,
          ensureTrailingNewline_of_closed hclosed, ensureTrailingNewline, if_pos hopen]
  · obtain ⟨other, hne, hlossy⟩ := exists_same_lossy htext
    exact ⟨other, hne, by rw [written, written, hlossy]⟩

theorem Closed.of_append (h : Closed (front ++ rest)) : Closed rest := by
  rcases eq_nil_or_concat rest with rfl | ⟨body, b, rfl⟩
  · exact .inl rfl
  · rw [concat_eq_append] at h ⊢
    rcases h with h | ⟨line, h⟩
    · simp at h
    · rw [← append_assoc] at h
      obtain ⟨_, hb⟩ := append_inj' h rfl
      exact .inr ⟨body, congrArg (body ++ ·) hb⟩

theorem separator_closes (bytes : Bytes) : Closed (bytes ++ separator) :=
  (separator_terminated.append bytes).closed

theorem separator_isLine : IsLine separator := by
  unfold IsLine
  decide

theorem separator_ascii : ∀ c ∈ separator, c < 0x80 := by decide +kernel

theorem separator_ne_nil : separator ≠ [] := by decide

theorem splitLines_sides (hours : Closed ours) (theirs : Bytes) :
    splitLines (ours ++ separator ++ theirs) =
      splitLines ours ++ separator :: splitLines theirs := by
  have hsep : splitLines separator = [separator] := separator_isLine
  rw [splitLines_append (separator_closes ours), splitLines_append hours, hsep,
    append_assoc, singleton_append]

theorem split_unique (h : a ++ x :: b = a' ++ x :: b') (ha : x ∉ a) (hb : x ∉ b) :
    a = a' ∧ b = b' := by
  induction a generalizing a' with
  | nil =>
    cases a' with
    | nil => exact ⟨rfl, (List.cons.inj h).2⟩
    | cons y a' =>
      obtain ⟨rfl, hrest⟩ := List.cons.inj h
      exact absurd (hrest ▸ mem_append_right a' mem_cons_self) hb
  | cons y a ih =>
    cases a' with
    | nil =>
      obtain ⟨rfl, _⟩ := List.cons.inj h
      exact absurd mem_cons_self ha
    | cons z a' =>
      obtain ⟨rfl, hrest⟩ := List.cons.inj h
      obtain ⟨rfl, rfl⟩ := ih hrest fun hx => ha (.tail _ hx)
      exact ⟨rfl, rfl⟩

theorem exists_cut (h : separator ∈ splitLines bytes) :
    ∃ front rest, bytes = front ++ separator ++ rest ∧ Closed front := by
  obtain ⟨a, b, hsplit⟩ := append_of_mem h
  have hflat := splitLines_flatten bytes
  have hlines := splitLines_linesOnly bytes
  rw [hsplit] at hflat hlines
  refine ⟨a.flatten, b.flatten, by rw [← hflat]; simp, .flatten fun l hl => ?_⟩
  exact (hlines.terminated (cons_ne_nil _ _) l hl).closed

theorem ne_of_cut : front ≠ front ++ separator ++ rest := by
  intro heq
  have hlen := congrArg List.length heq
  have hpos := length_pos_iff.2 separator_ne_nil
  simp only [length_append] at hlen
  omega

/-- The sides of a conflict that is stored as a placeholder: two contents, or the one that the other
side deleted. -/
inductive PlaceholderSides where
  | both (ours theirs : Bytes)
  | oursOnly (kept : Bytes)
  | theirsOnly (kept : Bytes)
  deriving DecidableEq

def writePlaceholder (labels : ConflictLabels) (path : String) :
    PlaceholderSides → Except Failure (Bytes × List String)
  | .both ours theirs => contentConflictMerge { blobEnv with labels := labels } ours theirs path
  | .oursOnly kept => modifyDeleteConflictMerge { blobEnv with labels := labels } kept path
  | .theirsOnly kept => modifyDeleteConflictMerge { blobEnv with labels := labels } kept path

/-- Nothing else is stored, and recorded, as these sides are. -/
def Recoverable (labels : ConflictLabels) (path : String) (sides : PlaceholderSides) : Prop :=
  ∀ sides', writePlaceholder labels path sides' = writePlaceholder labels path sides →
    sides' = sides

def PlaceholderSides.body : PlaceholderSides → Bytes
  | .both ours theirs => written ours ++ separator ++ written theirs
  | .oursOnly kept => written kept ++ separator ++ written []
  | .theirsOnly kept => written kept ++ separator ++ written []

theorem writePlaceholder_eq_iff (labels : ConflictLabels) (path : String)
    (sides sides' : PlaceholderSides) :
    writePlaceholder labels path sides = writePlaceholder labels path sides' ↔
      sides.body = sides'.body := by
  have hstored : ∀ sides, ∃ ours theirs, sides.body = written ours ++ separator ++ written theirs ∧
      writePlaceholder labels path sides =
        .ok (formatConflictContent ours theirs labels, [path]) := by
    intro sides
    cases sides with
    | both ours theirs => exact ⟨ours, theirs, rfl, rfl⟩
    | oursOnly kept => exact ⟨kept, [], rfl, rfl⟩
    | theirsOnly kept => exact ⟨kept, [], rfl, rfl⟩
  obtain ⟨ours, theirs, hbody, hwrite⟩ := hstored sides
  obtain ⟨ours', theirs', hbody', hwrite'⟩ := hstored sides'
  rw [hwrite, hwrite', hbody, hbody', Except.ok.injEq, Prod.mk.injEq,
    formatConflictContent_eq_iff]
  simp

/-- Both sides are read back from the separator between them. -/
theorem recoverable_of_verbatim (hours : Verbatim ours) (htheirs : Verbatim theirs)
    (hne : theirs ≠ []) (hour : separator ∉ splitLines ours) (htheir : separator ∉ splitLines theirs) :
    Recoverable labels path (.both ours theirs) := by
  intro sides hsame
  have hbody := (writePlaceholder_eq_iff ..).1 hsame
  rw [show PlaceholderSides.body (.both ours theirs) = ours ++ separator ++ theirs by
    rw [PlaceholderSides.body, hours.written, htheirs.written]] at hbody
  have hcut : ∀ a b, Closed a → a ++ separator ++ b = ours ++ separator ++ theirs →
      a = ours ∧ b = theirs := by
    intro a b ha hab
    have hlines := congrArg splitLines hab
    rw [splitLines_sides ha, splitLines_sides hours.closed] at hlines
    obtain ⟨hfront, hback⟩ := split_unique hlines.symm hour htheir
    exact ⟨by rw [← splitLines_flatten a, ← hfront, splitLines_flatten],
      by rw [← splitLines_flatten b, ← hback, splitLines_flatten]⟩
  cases sides with
  | both ours' theirs' =>
    obtain ⟨hfront, hback⟩ := hcut _ _ (written_closed ours') hbody
    rw [hours.eq_of_written hfront, htheirs.eq_of_written hback]
  | oursOnly kept => exact absurd (hcut _ _ (written_closed kept) hbody).2.symm hne
  | theirsOnly kept => exact absurd (hcut _ _ (written_closed kept) hbody).2.symm hne

/-- A placeholder gives both sides back exactly if both are present, are text that is stored as it
is, hold no separator line, and theirs is not empty. -/
theorem placeholder_recoverable (labels : ConflictLabels) (path : String)
    (sides : PlaceholderSides) :
    Recoverable labels path sides ↔
      ∃ ours theirs, sides = .both ours theirs ∧ Verbatim ours ∧ Verbatim theirs ∧ theirs ≠ [] ∧
        separator ∉ splitLines ours ∧ separator ∉ splitLines theirs := by
  constructor
  · intro h
    cases sides with
    | oursOnly kept => cases h (.theirsOnly kept) rfl
    | theirsOnly kept => cases h (.oursOnly kept) rfl
    | both ours theirs =>
      have hdetermined : ∀ sides' : PlaceholderSides,
          sides'.body = PlaceholderSides.body (.both ours theirs) → sides' = .both ours theirs :=
        fun sides' hbody =>
        h sides' ((writePlaceholder_eq_iff ..).2 hbody)
      have hours : Verbatim ours := by
        by_contra hnot
        obtain ⟨other, hne, hwritten⟩ := exists_same_written hnot
        have hsame := hdetermined (.both other theirs) (by simp only [PlaceholderSides.body, hwritten])
        exact hne (PlaceholderSides.both.inj hsame).1
      have htheirs : Verbatim theirs := by
        by_contra hnot
        obtain ⟨other, hne, hwritten⟩ := exists_same_written hnot
        have hsame := hdetermined (.both ours other) (by simp only [PlaceholderSides.body, hwritten])
        exact hne (PlaceholderSides.both.inj hsame).2
      have hbody : PlaceholderSides.body (.both ours theirs) = ours ++ separator ++ theirs := by
        rw [PlaceholderSides.body, hours.written, htheirs.written]
      have hwritten : ∀ content, IsText content → Closed content → written content = content := by
        intro content htext hends
        rw [written, htext.lossy, ensureTrailingNewline_of_closed hends]
      have hsepText : IsText separator := by
        unfold IsText
        decide
      refine ⟨ours, theirs, rfl, hours, htheirs, ?_, ?_, ?_⟩
      · rintro rfl
        cases hdetermined (.oursOnly ours) rfl
      · intro hmem
        obtain ⟨front, rest, rfl, hfront⟩ := exists_cut hmem
        obtain ⟨hfrontText, hrestText⟩ := hours.1.cut separator_ascii separator_ne_nil
        have hbehind : written (rest ++ separator ++ theirs) = rest ++ separator ++ theirs :=
          hwritten _ (isText_append (isText_append hrestText hsepText) htheirs.1)
            ((separator_closes rest).append htheirs.closed)
        have hsame := hdetermined (.both front (rest ++ separator ++ theirs)) (by
          rw [hbody]
          change written front ++ separator ++ written (rest ++ separator ++ theirs) = _
          rw [hwritten front hfrontText hfront, hbehind]
          simp only [append_assoc])
        exact ne_of_cut (PlaceholderSides.both.inj hsame).1
      · intro hmem
        obtain ⟨front, rest, rfl, hfront⟩ := exists_cut hmem
        obtain ⟨hfrontText, hrestText⟩ := htheirs.1.cut separator_ascii separator_ne_nil
        have hbefore : written (ours ++ separator ++ front) = ours ++ separator ++ front :=
          hwritten _ (isText_append (isText_append hours.1 hsepText) hfrontText)
            ((separator_closes ours).append hfront)
        have hsame := hdetermined (.both (ours ++ separator ++ front) rest) (by
          rw [hbody]
          change written (ours ++ separator ++ front) ++ separator ++ written rest = _
          rw [hbefore, hwritten rest hrestText htheirs.closed.of_append]
          simp only [append_assoc])
        exact ne_of_cut (PlaceholderSides.both.inj hsame).1.symm
  · rintro ⟨ours, theirs, rfl, hours, htheirs, hne, hour, htheir⟩
    exact recoverable_of_verbatim hours htheirs hne hour htheir

/-- Two binary sides, each of one byte that is no UTF-8. -/
theorem placeholder_lossy :
    ¬ ∀ (labels : ConflictLabels) (path : String) (sides : PlaceholderSides),
      Recoverable labels path sides := by
  intro h
  have hsame := h .default "file" (.both [0xFF] [0xFE]) (.both [0xFE] [0xFF]) rfl
  revert hsame
  decide

end Sides

end Heddle.Merge
