import Heddle.Lib.ByteCodec
import Heddle.Lib.Fold

namespace Heddle.Lib
open List

abbrev Reader (ε α : Type) := StateT (List UInt8) (Except ε) α

def takeBytes (eof : ε) (n : Nat) : Reader ε (List UInt8) := fun bytes =>
  if n ≤ bytes.length then .ok (bytes.take n, bytes.drop n) else .error eof

def takeLe (eof : ε) (width : Nat) : Reader ε { n : Nat // n < 256 ^ width } := fun bytes =>
  if h : width ≤ bytes.length then
    .ok (⟨ofLeBytes (bytes.take width), by
      have hlt := ofLeBytes_lt (bytes.take width)
      rwa [length_take, Nat.min_eq_left h] at hlt⟩, bytes.drop width)
  else .error eof

def takeMany (read : Reader ε α) : Nat → Reader ε (List α)
  | 0 => pure []
  | n + 1 => do
    let a ← read
    let as ← takeMany read n
    return a :: as

/-- Reads until nothing is left. A reader that takes something each time never runs out of fuel when
it has as much as there are bytes. -/
def readAll (read : Reader ε α) : Nat → List UInt8 → Except ε (List α)
  | _, [] => .ok []
  | 0, _ :: _ => .ok []
  | fuel + 1, byte :: bytes => do
    let taken ← read (byte :: bytes)
    let as ← readAll read fuel taken.2
    return taken.1 :: as

def liftRead (x : Except ε α) : Reader ε α := fun bytes => x.map fun a => (a, bytes)

theorem read_bind_ok_iff {read : Reader ε α} {next : α → Reader ε β} :
    (read >>= next) bytes = .ok r ↔ ∃ a rest, read bytes = .ok (a, rest) ∧ next a rest = .ok r := by
  apply Iff.intro
  · intro h
    obtain ⟨⟨a, rest⟩, hread, hnext⟩ := bind_eq_ok.1 h
    exact ⟨a, rest, hread, hnext⟩
  · intro h
    obtain ⟨a, rest, hread, hnext⟩ := h
    exact bind_eq_ok.2 ⟨(a, rest), hread, hnext⟩

theorem read_pure_ok_iff :
    (pure a : Reader ε α) bytes = .ok (b, rest) ↔ a = b ∧ bytes = rest := by
  apply Iff.intro
  · intro h
    cases h
    exact ⟨rfl, rfl⟩
  · intro h
    rw [h.1, h.2]
    rfl

theorem liftRead_ok_iff :
    liftRead x bytes = .ok (a, rest) ↔ x = .ok a ∧ bytes = rest := by
  unfold liftRead
  rw [map_eq_ok_iff]
  apply Iff.intro
  · intro h
    obtain ⟨b, hb, heq⟩ := h
    cases heq
    exact ⟨hb, rfl⟩
  · intro h
    exact ⟨a, h.1, by rw [h.2]⟩

theorem takeBytes_ok_iff :
    takeBytes eof n bytes = .ok (taken, rest) ↔ bytes = taken ++ rest ∧ taken.length = n := by
  unfold takeBytes
  apply Iff.intro
  · intro h
    split at h
    · rename_i hle
      cases h
      exact ⟨(take_append_drop n bytes).symm, by rw [length_take, Nat.min_eq_left hle]⟩
    · cases h
  · intro h
    obtain ⟨rfl, rfl⟩ := h
    rw [if_pos (by rw [length_append]; omega), take_left, drop_left]

theorem takeLe_ok_iff :
    takeLe eof width bytes = .ok (n, rest) ↔ bytes = leBytes width n.1 ++ rest := by
  unfold takeLe
  apply Iff.intro
  · intro h
    split at h
    · rename_i hle
      cases h
      have hlen : (bytes.take width).length = width := by rw [length_take, Nat.min_eq_left hle]
      rw [leBytes_of_length hlen, take_append_drop]
    · cases h
  · intro h
    subst h
    have hlen : (leBytes width n.1).length = width := length_leBytes width n.1
    rw [dif_pos (by rw [length_append, hlen]; omega)]
    have htake : (leBytes width n.1 ++ rest).take width = leBytes width n.1 := take_left' hlen
    have hdrop : (leBytes width n.1 ++ rest).drop width = rest := drop_left' hlen
    congr 2
    · apply Subtype.ext
      change ofLeBytes ((leBytes width n.1 ++ rest).take width) = n.1
      rw [htake, ofLeBytes_leBytes n.2]

/-- The reader takes exactly these bytes and gives this value, whatever follows. -/
def Reads (read : Reader ε α) (bytes : List UInt8) (a : α) : Prop :=
  ∀ rest, read (bytes ++ rest) = .ok (a, rest)

theorem Reads.pure (a : α) : Reads (Pure.pure a : Reader ε α) [] a := fun _ => rfl

theorem Reads.bind {read : Reader ε α} {next : α → Reader ε β} (h : Reads read bytes a) (hnext : Reads (next a) bytes' b) :
    Reads (read >>= next) (bytes ++ bytes') b := by
  intro rest
  rw [append_assoc]
  exact read_bind_ok_iff.2 ⟨a, bytes' ++ rest, h _, hnext rest⟩

theorem Reads.lift (h : x = .ok a) : Reads (liftRead x) [] a := by
  intro rest
  exact liftRead_ok_iff.2 ⟨h, rfl⟩

theorem Reads.takeLe (eof : ε) (h : n < 256 ^ width) :
    Reads (Lib.takeLe eof width) (leBytes width n) ⟨n, h⟩ :=
  fun _ => takeLe_ok_iff.2 rfl

theorem Reads.takeBytes (eof : ε) (h : bytes.length = n) :
    Reads (Lib.takeBytes eof n) bytes bytes :=
  fun _ => takeBytes_ok_iff.2 ⟨rfl, h⟩

theorem Reads.many {read : Reader ε α} {write : β → List UInt8} {value : β → α} {xs : List β}
    (h : ∀ x ∈ xs, Reads read (write x) (value x)) :
    Reads (takeMany read xs.length) (xs.flatMap write) (xs.map value) := by
  induction xs with
  | nil => exact Reads.pure []
  | cons x xs ih =>
    rw [flatMap_cons]
    apply Reads.bind (h x (.head _))
    have hrest := ih fun y hy => h y (.tail _ hy)
    have hcons : Reads (takeMany read xs.length >>= fun as => (Pure.pure (value x :: as)))
        (xs.flatMap write ++ []) (value x :: xs.map value) := hrest.bind (Reads.pure _)
    rwa [append_nil] at hcons

theorem readAll_flatMap {read : Reader ε α} (h : ∀ x ∈ xs, Reads read (write x) x)
    (hne : ∀ x ∈ xs, write x ≠ []) (hfuel : xs.length ≤ fuel) :
    readAll read fuel (xs.flatMap write) = .ok xs := by
  induction xs generalizing fuel with
  | nil =>
    cases fuel with
    | zero => rfl
    | succ fuel => rfl
  | cons x xs ih =>
    cases fuel with
    | zero => exact absurd hfuel (Nat.not_succ_le_zero _)
    | succ fuel =>
      have hrest := ih (fun y hy => h y (.tail _ hy)) (fun y hy => hne y (.tail _ hy))
        (Nat.le_of_succ_le_succ hfuel)
      obtain ⟨byte, bytes, hwrite⟩ := exists_cons_of_ne_nil (hne x (.head _))
      have hread := h x (.head _) (xs.flatMap write)
      rw [flatMap_cons]
      rw [hwrite, cons_append] at hread ⊢
      rw [readAll, hread]
      change (readAll read fuel (xs.flatMap write) >>= fun as => pure (x :: as)) = _
      rw [hrest]
      rfl

/-- Where the reader takes some bytes it has looked at no others, and of a part of them it makes the
end of the input. -/
def Sequential (eof : ε) (read : Reader ε α) : Prop :=
  ∀ bytes a rest, read bytes = .ok (a, rest) → ∃ taken, bytes = taken ++ rest ∧ Reads read taken a ∧
    ∀ front, front <+: taken → front ≠ taken → read front = .error eof

theorem Sequential.pure (eof : ε) (a : α) : Sequential eof (Pure.pure a : Reader ε α) := by
  intro bytes b rest h
  obtain ⟨rfl, rfl⟩ := read_pure_ok_iff.1 h
  exact ⟨[], rfl, Reads.pure a, fun _ hfront hne => absurd (prefix_nil.1 hfront) hne⟩

theorem Sequential.lift (eof : ε) (x : Except ε α) : Sequential eof (liftRead x) := by
  intro bytes a rest h
  obtain ⟨hx, rfl⟩ := liftRead_ok_iff.1 h
  exact ⟨[], rfl, Reads.lift hx, fun _ hfront hne => absurd (prefix_nil.1 hfront) hne⟩

theorem length_lt_of_prefix (h : front <+: taken) (hne : front ≠ taken) :
    front.length < taken.length := by
  apply lt_of_le_of_ne h.length_le
  intro hlen
  exact hne (h.eq_of_length hlen)

theorem Sequential.takeBytes (eof : ε) (n : Nat) : Sequential eof (Lib.takeBytes eof n) := by
  intro bytes taken rest h
  obtain ⟨rfl, hlen⟩ := takeBytes_ok_iff.1 h
  refine ⟨taken, rfl, Reads.takeBytes eof hlen, fun front hfront hne => ?_⟩
  have hlt := length_lt_of_prefix hfront hne
  exact if_neg (by omega)

theorem Sequential.takeLe (eof : ε) (width : Nat) : Sequential eof (Lib.takeLe eof width) := by
  intro bytes n rest h
  have hbytes := takeLe_ok_iff.1 h
  refine ⟨_, hbytes, Reads.takeLe eof n.2, fun front hfront hne => ?_⟩
  have hlt := length_lt_of_prefix hfront hne
  rw [length_leBytes] at hlt
  exact dif_neg (by omega)

theorem Sequential.bind {read : Reader ε α} {next : α → Reader ε β} (h : Sequential eof read)
    (hnext : ∀ a, Sequential eof (next a)) :
    Sequential eof (read >>= next) := by
  intro bytes b rest hread
  obtain ⟨a, mid, ha, hb⟩ := read_bind_ok_iff.1 hread
  obtain ⟨taken, rfl, hreads, hcut⟩ := h bytes a mid ha
  obtain ⟨taken', rfl, hreads', hcut'⟩ := hnext a mid b rest hb
  refine ⟨taken ++ taken', by rw [append_assoc], hreads.bind hreads', fun front hfront hne => ?_⟩
  by_cases hlen : front.length < taken.length
  · have hprefix := prefix_of_prefix_length_le hfront (prefix_append _ _) hlen.le
    have herr := hcut front hprefix fun heq => absurd (congrArg List.length heq) hlen.ne
    change read front >>= _ = _
    rw [herr]
    rfl
  · obtain ⟨back, rfl⟩ := prefix_of_prefix_length_le (prefix_append _ _) hfront
      (Nat.not_lt.1 hlen)
    have hback := (prefix_append_right_inj taken).1 hfront
    have herr := hcut' back hback fun heq => hne (by rw [heq])
    change read (taken ++ back) >>= _ = _
    rw [hreads back]
    exact herr

theorem Sequential.many {read : Reader ε α} (h : Sequential eof read) (n : Nat) :
    Sequential eof (takeMany read n) := by
  induction n with
  | zero => exact Sequential.pure eof []
  | succ n ih => exact h.bind fun a => ih.bind fun as => Sequential.pure eof (a :: as)

theorem Sequential.cut {read : Reader ε α} (h : Sequential eof read) (hreads : Reads read bytes a)
    (hfront : front <+: bytes) (hne : front ≠ bytes) :
    read front = .error eof := by
  have hall := hreads []
  obtain ⟨taken, htaken, _, hcut⟩ := h _ _ _ hall
  obtain rfl : bytes = taken := by simpa using htaken
  exact hcut front hfront hne

end Heddle.Lib
