import Heddle.Object.NameEncoding
import Heddle.Lib.SelfDelimiting

namespace Heddle
open Heddle.Lib List

theorem chunks_flatten (hsize : size ≠ 0) (bytes : Bytes) : (chunks size bytes).flatten = bytes := by
  induction bytes using chunks.induct size with
  | case1 bytes h =>
    rw [chunks, if_pos h, flatten_nil]
    exact (h.resolve_right hsize).symm
  | case2 bytes h ih => rw [chunks, if_neg h, flatten_cons, ih, take_append_drop]

def isEncodedByte (b : UInt8) : Bool := isPlainNameByte b || b = percent || (65 ≤ b && b ≤ 70)

theorem isEncodedByte_hexByte (hn : n < 16) : isEncodedByte (hexByte n) = true :=
  forall_nibble (p := fun n => isEncodedByte (hexByte n) = true) (by decide) hn

theorem isEncodedByte_escapeByte (b : UInt8) :
    (escapeByte isPlainNameByte b).all isEncodedByte = true := by
  unfold escapeByte
  split
  · rename_i hplain
    simp [isEncodedByte, hplain]
  · have hpercent : isEncodedByte percent = true := by decide
    simp only [all_cons, all_nil, hpercent, isEncodedByte_hexByte (high_lt b),
      isEncodedByte_hexByte (low_lt b), Bool.and_self]

theorem isEncodedByte_escape (h : b ∈ escape isPlainNameByte bytes) : isEncodedByte b = true := by
  obtain ⟨source, _, hb⟩ := mem_flatMap.1 h
  exact all_eq_true.1 (isEncodedByte_escapeByte source) b hb

theorem isEncodedByte_facts (b : UInt8) (h : isEncodedByte b = true) :
    b.toNat < 128 ∧ b ≠ slash ∧ asciiLower b ≠ slash := by
  simp only [isEncodedByte, isPlainNameByte, percent, Bool.or_eq_true, Bool.and_eq_true,
    decide_eq_true_eq, UInt8.le_iff_toNat_le, ← UInt8.toNat_inj] at h
  simp only [asciiLower, slash, ne_eq, ← UInt8.toNat_inj, UInt8.le_iff_toNat_le]
  split
  · simp [UInt8.toNat_add] at *
    omega
  · simp at *
    omega

theorem asciiLower_plain (b : UInt8) (h : isPlainNameByte b = true) : asciiLower b = b := by
  simp only [isPlainNameByte, Bool.or_eq_true, Bool.and_eq_true, decide_eq_true_eq,
    UInt8.le_iff_toNat_le, ← UInt8.toNat_inj] at h
  refine if_neg fun hupper => ?_
  simp [UInt8.le_iff_toNat_le] at h hupper
  omega

theorem utf8_asciiText_encoded (h : ∀ b ∈ bytes, isEncodedByte b = true) :
    utf8 (asciiText bytes) = bytes :=
  utf8_asciiText fun b hb => (isEncodedByte_facts b (h b hb)).1

theorem asciiText_flatten_cons (bytes : Bytes) (rest : List Bytes) :
    asciiText (bytes :: rest).flatten = asciiText bytes ++ asciiText rest.flatten := by
  simp only [asciiText, flatten_cons, map_append, String.ofList_append]

theorem drop_utf8_encodeName (value : String) :
    (utf8 (encodeName value)).drop 2 = escape isPlainNameByte (utf8 value) := by
  have hstart : utf8 "n-" = [110, 45] := by decide
  rw [encodeName, utf8_append, hstart, utf8_asciiText_encoded fun b hb => isEncodedByte_escape hb]
  rfl

@[simp] theorem decodeName_encodeName (value : String) : decodeName (encodeName value) = some value := by
  have hescaped : utf8 (asciiText (escape isPlainNameByte (utf8 value))) =
      escape isPlainNameByte (utf8 value) :=
    utf8_asciiText_encoded fun b hb => isEncodedByte_escape hb
  have hprefix : stripPrefix (encodeName value) "n-" =
      some (asciiText (escape isPlainNameByte (utf8 value))) := stripPrefix_append ..
  simp only [decodeName, hprefix, Option.bind_eq_bind, Option.bind_some, hescaped,
    unescape_escape (show isPlainNameByte percent = false by decide), fromUtf8_utf8, if_pos]

theorem gitName_nativeGitName (name : String) : (gitName (nativeGitName name)).text = name := by
  by_cases h : isReservedHeddleNamespace name ∨ "git%".toList <+: name.toList
  · have hnative : nativeGitName name = "git%" ++ encodeName name := by rw [nativeGitName, if_pos h]
    have hstrip : (stripPrefix (nativeGitName name) "git%").bind decodeName = some name := by
      rw [hnative, stripPrefix_append, Option.bind_some, decodeName_encodeName]
    rw [gitName, hstrip]
    simp only [if_pos, Cow.text]
  · have hnative : nativeGitName name = name := by rw [nativeGitName, if_neg h]
    have hstrip : stripPrefix name "git%" = none := by
      rw [stripPrefix, if_neg fun hprefix => h (.inr hprefix)]
    rw [hnative, gitName, hstrip]
    rfl

theorem nativeGitName_injective : Function.Injective nativeGitName :=
  Function.LeftInverse.injective (g := fun native => (gitName native).text) gitName_nativeGitName

theorem gitName_cases (native : String) :
    gitName native = .borrowed native ∨
      ∃ name, gitName native = .owned name ∧ nativeGitName name = native := by
  unfold gitName
  split
  · rename_i name _
    split
    · rename_i hsame
      exact .inr ⟨name, rfl, hsame⟩
    · exact .inl rfl
  · exact .inl rfl

def nameOf (imported : Bool) (source : String) : String :=
  if imported then nativeGitName source else source

theorem nameOf_gitName (value : String) :
    nameOf (gitName value).isOwned (gitName value).text = value := by
  rcases gitName_cases value with h | ⟨name, h, hname⟩
  · rw [h]
    rfl
  · rw [h]
    exact hname

def chunkParts (value : String) : List Bytes :=
  (chunks 180 (escape isPlainNameByte (utf8 (gitName value).text))).map (utf8 "n-" ++ ·)

def nameParts (value : String) : List Bytes :=
  (if (gitName value).isOwned then [utf8 "git"] else []) ++ chunkParts value

def directPath (value : String) : Bytes := joinPath (nameParts value ++ [utf8 "entry"])

def storedParts (blake3 : Bytes → ContentHash) (value : String) : List Bytes :=
  if (directPath value).length > namePathBudget then [utf8 ("h-" ++ (blake3 (utf8 value)).toHex)]
  else nameParts value

theorem isEncodedByte_chunk (h : chunk ∈ chunks 180 (escape isPlainNameByte bytes)) :
    ∀ b ∈ chunk, isEncodedByte b = true := by
  intro b hb
  have hmem : b ∈ (chunks 180 (escape isPlainNameByte bytes)).flatten :=
    mem_flatten.2 ⟨chunk, h, hb⟩
  rw [chunks_flatten (by decide)] at hmem
  exact isEncodedByte_escape hmem

def hexPair (b : UInt8) : Bytes :=
  [UInt8.ofNat (hexDigit (b.toNat / 16)).toNat, UInt8.ofNat (hexDigit (b.toNat % 16)).toNat]

theorem digits_lt (b : UInt8) : b.toNat / 16 < 16 ∧ b.toNat % 16 < 16 := by
  have hb := b.toNat_lt
  omega

theorem utf8EncodeChar_hexDigit : ∀ n < 16,
    String.utf8EncodeChar (hexDigit n) = [UInt8.ofNat (hexDigit n).toNat] := by decide

theorem utf8EncodeChar_hexPair (b : UInt8) :
    [hexDigit (b.toNat / 16), hexDigit (b.toNat % 16)].flatMap String.utf8EncodeChar = hexPair b := by
  obtain ⟨hhigh, hlow⟩ := digits_lt b
  simp only [flatMap_cons, flatMap_nil, utf8EncodeChar_hexDigit _ hhigh,
    utf8EncodeChar_hexDigit _ hlow]
  rfl

theorem utf8_toHex (hash : ContentHash) : utf8 hash.toHex = hash.asBytes.flatMap hexPair := by
  rw [utf8_eq_flatMap, ContentHash.toHex, String.toList_ofList, flatMap_assoc]
  exact flatMap_congr fun b _ => utf8EncodeChar_hexPair b

def isDigestByte (c : UInt8) : Bool := (48 ≤ c && c ≤ 57) || (97 ≤ c && c ≤ 102)

theorem isDigestByte_hexDigit : ∀ n < 16,
    isDigestByte (UInt8.ofNat (hexDigit n).toNat) = true := by decide

theorem isDigestByte_hexPair (b : UInt8) : (hexPair b).all isDigestByte = true := by
  obtain ⟨hhigh, hlow⟩ := digits_lt b
  simp only [hexPair, all_cons, all_nil, isDigestByte_hexDigit _ hhigh,
    isDigestByte_hexDigit _ hlow, Bool.and_self]

theorem isDigestByte_facts (c : UInt8) (h : isDigestByte c = true) : c ≠ slash ∧ asciiLower c = c := by
  simp only [isDigestByte, Bool.or_eq_true, Bool.and_eq_true, decide_eq_true_eq,
    UInt8.le_iff_toNat_le] at h
  constructor
  · rintro rfl
    revert h
    decide
  · refine if_neg fun hupper => ?_
    simp [UInt8.le_iff_toNat_le] at h hupper
    omega

theorem toDigit16_hexDigit : ∀ n < 16,
    toDigit16 (UInt8.ofNat (hexDigit n).toNat) = some (UInt8.ofNat n) := by decide

theorem toDigit16_hexPair (b : UInt8) :
    (hexPair b).map toDigit16 = [some (b >>> 4), some (b &&& 15)] := by
  obtain ⟨hhigh, hlow⟩ := digits_lt b
  rw [← toNat_high] at hhigh
  rw [← toNat_low] at hlow
  simp only [hexPair, map_cons, map_nil, ← toNat_high, ← toNat_low,
    toDigit16_hexDigit _ hhigh, toDigit16_hexDigit _ hlow, UInt8.ofNat_toNat]

theorem hexPair_injective : Function.Injective hexPair := by
  intro a b h
  have hdigits : [some (a >>> 4), some (a &&& 15)] = [some (b >>> 4), some (b &&& 15)] := by
    rw [← toDigit16_hexPair, ← toDigit16_hexPair, h]
  simp only [List.cons.injEq, Option.some.injEq, and_true] at hdigits
  rw [← high_low a, ← high_low b, hdigits.1, hdigits.2]

theorem mem_utf8_toHex {hash : ContentHash} (h : c ∈ utf8 hash.toHex) :
    ((48 ≤ c && c ≤ 57) || (97 ≤ c && c ≤ 102)) = true ∧ c ≠ slash ∧ asciiLower c = c := by
  rw [utf8_toHex] at h
  obtain ⟨b, _, hc⟩ := mem_flatMap.1 h
  have hdigit : isDigestByte c = true := all_eq_true.1 (isDigestByte_hexPair b) c hc
  exact ⟨hdigit, isDigestByte_facts c hdigit⟩

theorem length_utf8_toHex (hash : ContentHash) : (utf8 hash.toHex).length = 64 := by
  have hpair : ∀ b ∈ hash.asBytes, (hexPair b).length = 2 := fun _ _ => rfl
  rw [utf8_toHex, length_flatMap, map_congr_left hpair, map_const',
    ContentHash.asBytes_length]
  decide

theorem toHex_injective : Function.Injective ContentHash.toHex := by
  intro a b h
  have hpairs : SelfDelimiting (fun _ : UInt8 => True) hexPair :=
    .fixed 2 (fun _ => rfl) fun _ _ _ _ heq => hexPair_injective heq
  have hbytes : a.asBytes.flatMap hexPair ++ [] = b.asBytes.flatMap hexPair ++ [] := by
    rw [← utf8_toHex, ← utf8_toHex, h]
  have hlength : a.asBytes.length = b.asBytes.length := by
    rw [ContentHash.asBytes_length, ContentHash.asBytes_length]
  obtain ⟨heq, _⟩ := hpairs.flatMap hlength (fun _ _ => trivial) (fun _ _ => trivial) hbytes
  exact ContentHash.ext (Vector.toList_inj.1 heq)

theorem foldCase_toHex (hash : ContentHash) : foldCase (utf8 hash.toHex) = utf8 hash.toHex :=
  (map_congr_left fun _ hc => (mem_utf8_toHex hc).2.2).trans (map_id _)

theorem slash_not_mem_chunk (h : ∀ b ∈ chunk, isEncodedByte b = true) :
    slash ∉ chunk ∧ slash ∉ foldCase chunk := by
  constructor
  · intro hmem
    exact (isEncodedByte_facts slash (h slash hmem)).2.1 rfl
  · intro hmem
    obtain ⟨b, hb, hfold⟩ := mem_map.1 hmem
    exact (isEncodedByte_facts b (h b hb)).2.2 hfold

/-- A part that stays one component, and keeps its first byte, when its case is folded. -/
def Portable (first : UInt8) (part : Bytes) : Prop :=
  (part.head? = some first ∧ (foldCase part).head? = some first) ∧
    slash ∉ part ∧ slash ∉ foldCase part

theorem portable_git : Portable 103 (utf8 "git") := by
  unfold Portable
  decide

theorem portable_entry : Portable 101 (utf8 "entry") := by
  unfold Portable
  decide

theorem portable_chunk (h : ∀ b ∈ chunk, isEncodedByte b = true) :
    Portable 110 (utf8 "n-" ++ chunk) := by
  have hstart : utf8 "n-" = [110, 45] := by decide
  have hfold : foldCase [110, 45] = [110, 45] := by decide
  obtain ⟨hslash, hslash'⟩ := slash_not_mem_chunk h
  have hclean : slash ∉ ([110, 45] : Bytes) := by decide
  simp only [Portable, hstart, foldCase_append, hfold, mem_append, not_or]
  exact ⟨⟨rfl, rfl⟩, ⟨hclean, hslash⟩, hclean, hslash'⟩

theorem portable_digest (digest : ContentHash) : Portable 104 (utf8 ("h-" ++ digest.toHex)) := by
  have hstart : utf8 "h-" = [104, 45] := by decide
  have hfold : foldCase [104, 45] = [104, 45] := by decide
  have hslash : slash ∉ utf8 digest.toHex := fun hmem => (mem_utf8_toHex hmem).2.1 rfl
  have hclean : slash ∉ ([104, 45] : Bytes) := by decide
  simp only [Portable, utf8_append, hstart, foldCase_append, hfold, foldCase_toHex, mem_append,
    not_or]
  exact ⟨⟨rfl, rfl⟩, ⟨hclean, hslash⟩, hclean, hslash⟩

theorem Portable.plain (h : Portable first part) (hfirst : first ≠ dot) : PlainPart part :=
  plainPart_of_head h.1.1 hfirst h.2.1

theorem Portable.plain_foldCase (h : Portable first part) (hfirst : first ≠ dot) :
    PlainPart (foldCase part) :=
  plainPart_of_head h.1.2 hfirst h.2.2

theorem Portable.ne (h : Portable first part) (h' : Portable first' part') (hne : first ≠ first') :
    foldCase part ≠ foldCase part' := by
  intro heq
  have hhead := h.1.2
  rw [heq, h'.1.2] at hhead
  exact hne (Option.some.inj hhead).symm

theorem nameParts_portable (h : part ∈ nameParts value) :
    Portable 103 part ∨ Portable 110 part := by
  rcases mem_append.1 h with h | h
  · split at h
    · obtain rfl := mem_singleton.1 h
      exact .inl portable_git
    · cases h
  · obtain ⟨chunk, hchunk, rfl⟩ := mem_map.1 h
    exact .inr (portable_chunk (isEncodedByte_chunk hchunk))

theorem storedParts_portable (h : part ∈ storedParts blake3 value) :
    Portable 103 part ∨ Portable 110 part ∨ Portable 104 part := by
  unfold storedParts at h
  split at h
  · obtain rfl := mem_singleton.1 h
    exact .inr (.inr (portable_digest _))
  · rcases nameParts_portable h with h | h
    · exact .inl h
    · exact .inr (.inl h)

theorem storedPath_plain (h : part ∈ storedParts blake3 value ++ [utf8 "entry"]) :
    PlainPart part ∧ PlainPart (foldCase part) := by
  rcases mem_append.1 h with h | h
  · rcases storedParts_portable h with h | h | h
    all_goals exact ⟨h.plain (by decide), h.plain_foldCase (by decide)⟩
  · obtain rfl := mem_singleton.1 h
    exact ⟨portable_entry.plain (by decide), portable_entry.plain_foldCase (by decide)⟩

theorem entry_not_mem :
    utf8 "entry" ∉ (storedParts blake3 value).map foldCase := by
  intro hmem
  obtain ⟨part, hpart, heq⟩ := mem_map.1 hmem
  have hentry : foldCase (utf8 "entry") = utf8 "entry" := by decide
  rw [← hentry] at heq
  rcases storedParts_portable hpart with h | h | h
  all_goals exact h.ne portable_entry (by decide) heq

theorem joinPath_foldCase (parts : List Bytes) :
    foldCase (joinPath parts) = joinPath (parts.map foldCase) := by
  induction parts with
  | nil => rfl
  | cons part parts ih =>
    cases parts with
    | nil => simp [joinPath]
    | cons next parts =>
      have hslash : asciiLower slash = slash := by decide
      have htail : foldCase (slash :: joinPath (next :: parts)) =
          slash :: foldCase (joinPath (next :: parts)) := by
        rw [foldCase, map_cons, hslash, foldCase]
      rw [joinPath_cons_cons, foldCase_append, htail, ih]
      simp only [map_cons, joinPath_cons_cons]

section
variable (blake3 : Bytes → ContentHash) (value : String)

theorem namePath_eq :
    namePath blake3 value = joinPath (storedParts blake3 value ++ [utf8 "entry"]) := by
  have hplain : ∀ part ∈ nameParts value ++ [utf8 "entry"], PlainPart part := by
    intro part hpart
    rcases mem_append.1 hpart with h | h
    · rcases nameParts_portable h with h | h
      all_goals exact h.plain (by decide)
    · obtain rfl := mem_singleton.1 h
      exact portable_entry.plain (by decide)
  have hpush : pushPath ((chunks 180 ((utf8 (encodeName (gitName value).text)).drop 2)).foldl
      (fun path chunk => pushPath path (utf8 "n-" ++ chunk))
      (if (gitName value).isOwned then pushPath [] (utf8 "git") else [])) (utf8 "entry") =
        directPath value := by
    rw [directPath, ← foldl_pushPath_nil hplain, nameParts, chunkParts, drop_utf8_encodeName,
      foldl_append, foldl_append, foldl_map, foldl_cons, foldl_nil]
    split
    · rfl
    · rfl
  simp only [namePath, hpush]
  unfold storedParts
  split
  · rw [digestNamePath, singleton_append, joinPath_cons_cons, utf8_append]
    rfl
  · rfl

theorem components_namePath :
    pathComponents (namePath blake3 value) =
      (storedParts blake3 value ++ [utf8 "entry"]).map .normal := by
  rw [namePath_eq, pathComponents_joinPath (by simp) fun part hpart => (storedPath_plain hpart).1]

theorem components_foldCase :
    pathComponents (foldCase (namePath blake3 value)) =
      ((storedParts blake3 value).map foldCase ++ [utf8 "entry"]).map .normal := by
  have hentry : foldCase (utf8 "entry") = utf8 "entry" := by decide
  rw [namePath_eq, joinPath_foldCase, pathComponents_joinPath (by simp), map_append,
    map_singleton, hentry]
  intro part hpart
  obtain ⟨source, hsource, rfl⟩ := mem_map.1 hpart
  exact (storedPath_plain hsource).2

end

/-- The parts of a path that is no digest path tell the Git name and whether it was mapped. -/
theorem nameParts_inj (h : (nameParts a).map foldCase = (nameParts b).map foldCase) : a = b := by
  have htext : (chunkParts a).map foldCase = (chunkParts b).map foldCase →
      (gitName a).text = (gitName b).text := by
    intro hchunks
    have hescape : ∀ value, (((chunkParts value).map foldCase).map (List.drop 2)).flatten =
        foldCase (escape isPlainNameByte (utf8 (gitName value).text)) := by
      intro value
      have hdrop : ∀ chunk : Bytes, (foldCase (utf8 "n-" ++ chunk)).drop 2 = foldCase chunk := by
        intro chunk
        have hstart : foldCase (utf8 "n-") = [110, 45] := by decide
        rw [foldCase_append, hstart]
        rfl
      simp only [chunkParts, map_map, Function.comp_def, hdrop]
      calc ((chunks 180 (escape isPlainNameByte (utf8 (gitName value).text))).map foldCase).flatten
          _ = foldCase (chunks 180 (escape isPlainNameByte (utf8 (gitName value).text))).flatten :=
            map_flatten.symm
          _ = foldCase (escape isPlainNameByte (utf8 (gitName value).text)) := by
            rw [chunks_flatten (by decide)]
    have hsame : foldCase (escape isPlainNameByte (utf8 (gitName a).text)) =
        foldCase (escape isPlainNameByte (utf8 (gitName b).text)) := by
      rw [← hescape, ← hescape, hchunks]
    have hread := congrArg unescape hsame
    rw [unescape_foldCase_escape (by decide) asciiLower_plain,
      unescape_foldCase_escape (by decide) asciiLower_plain] at hread
    exact utf8_injective (Option.some.inj hread)
  have hnot : ∀ value (rest : List Bytes),
      (chunkParts value).map foldCase ≠ foldCase (utf8 "git") :: rest := by
    intro value rest heq
    have hmem : foldCase (utf8 "git") ∈ (chunkParts value).map foldCase := heq ▸ mem_cons_self
    obtain ⟨part, hpart, hsame⟩ := mem_map.1 hmem
    obtain ⟨chunk, hchunk, rfl⟩ := mem_map.1 hpart
    exact (portable_chunk (isEncodedByte_chunk hchunk)).ne portable_git (by decide) hsame
  have hsource : (gitName a).isOwned = (gitName b).isOwned ∧
      (chunkParts a).map foldCase = (chunkParts b).map foldCase := by
    unfold nameParts at h
    cases ha : (gitName a).isOwned with
    | false =>
      cases hb : (gitName b).isOwned with
      | false =>
        rw [ha, hb] at h
        exact ⟨rfl, h⟩
      | true =>
        rw [ha, hb] at h
        exact absurd h (hnot a _)
    | true =>
      cases hb : (gitName b).isOwned with
      | false =>
        rw [ha, hb] at h
        exact absurd h.symm (hnot b _)
      | true =>
        rw [ha, hb] at h
        exact ⟨rfl, (List.cons.inj h).2⟩
  rw [← nameOf_gitName a, ← nameOf_gitName b, hsource.1, htext hsource.2]

/-- Two names stored under the same parts, in any case, are one name, or their digests collide. -/
theorem storedParts_inj (hhash : blake3 (utf8 a) = blake3 (utf8 b) → a = b)
    (h : (storedParts blake3 a).map foldCase = (storedParts blake3 b).map foldCase) : a = b := by
  have hmixed : ∀ (value : String) (digest : ContentHash),
      (nameParts value).map foldCase ≠ [foldCase (utf8 ("h-" ++ digest.toHex))] := by
    intro value digest heq
    have hmem : foldCase (utf8 ("h-" ++ digest.toHex)) ∈ (nameParts value).map foldCase :=
      heq ▸ mem_cons_self
    obtain ⟨part, hpart, hsame⟩ := mem_map.1 hmem
    rcases nameParts_portable hpart with hportable | hportable
    all_goals exact hportable.ne (portable_digest digest) (by decide) hsame
  unfold storedParts at h
  split at h
  · split at h
    · simp only [map_cons, map_nil, utf8_append, foldCase_append, foldCase_toHex,
        List.cons.injEq, and_true] at h
      have hhex := append_cancel_left h
      exact hhash (toHex_injective (utf8_injective hhex))
    · exact absurd h.symm (hmixed b _)
  · split at h
    · exact absurd h (hmixed a _)
    · exact nameParts_inj h

theorem length_namePath (blake3 : Bytes → ContentHash) (value : String) :
    (namePath blake3 value).length ≤ namePathBudget := by
  rw [namePath_eq]
  unfold storedParts
  split
  · have hstart : (utf8 "h-").length = 2 := by decide
    have hend : (joinPath [utf8 "entry"]).length = 5 := by decide
    rw [singleton_append, joinPath_cons_cons, length_append, length_cons,
      utf8_append, length_append, length_utf8_toHex, hstart, hend]
    decide
  · rename_i hshort
    exact not_lt.1 hshort

theorem isDigestHex_toHex (digest : ContentHash) : isDigestHex digest.toHex = true := by
  simp only [isDigestHex, length_utf8_toHex, decide_true, Bool.true_and, all_eq_true]
  exact fun c hc => (mem_utf8_toHex hc).1

theorem isDigestNamePath_long (h : (directPath value).length > namePathBudget) :
    isDigestNamePath (namePath blake3 value) = true := by
  have hparts : pathComponents (namePath blake3 value) =
      [.normal (utf8 ("h-" ++ (blake3 (utf8 value)).toHex)), .normal (utf8 "entry")] := by
    rw [components_namePath, storedParts, if_pos h]
    rfl
  simp only [isDigestNamePath, hparts, PathComponent.asOsStr, fromUtf8_utf8, Option.bind_some,
    stripPrefix_append, Option.any_some, isDigestHex_toHex, decide_true, Bool.and_true]

theorem decodeParts_chunks (parts : List Bytes) (encoded : String)
    (h : ∀ chunk ∈ parts, ∀ b ∈ chunk, isEncodedByte b = true) :
    decodeParts encoded ((parts.map (utf8 "n-" ++ ·) ++ [utf8 "entry"]).map .normal) =
      some (encoded ++ asciiText parts.flatten) := by
  induction parts generalizing encoded with
  | nil =>
    have hempty : encoded ++ asciiText [] = encoded := String.append_empty
    rw [flatten_nil, hempty]
    simp [decodeParts, PathComponent.asOsStr]
  | cons chunk parts ih =>
    obtain ⟨hchunk, hrest⟩ := forall_mem_cons.1 h
    have htext : utf8 "n-" ++ chunk = utf8 ("n-" ++ asciiText chunk) := by
      rw [utf8_append, utf8_asciiText_encoded hchunk]
    have hnext : ∃ part rest, (parts.map (utf8 "n-" ++ ·) ++ [utf8 "entry"]).map
        PathComponent.normal = part :: rest :=
      exists_cons_of_ne_nil (by simp)
    obtain ⟨part, rest, hnext⟩ := hnext
    have hih := ih (encoded ++ asciiText chunk) hrest
    rw [hnext] at hih
    rw [map_cons, cons_append, map_cons, hnext, decodeParts, PathComponent.asOsStr,
      htext, fromUtf8_utf8]
    simp only [Option.bind_eq_bind, Option.bind_some, stripPrefix_append]
    rw [hih, asciiText_flatten_cons, String.append_assoc]
    simp

theorem decodeNamePath_namePath (h : isDigestNamePath (namePath blake3 value) = false) :
    decodeNamePath blake3 (namePath blake3 value) = some value := by
  have hshort : ¬ (directPath value).length > namePathBudget := by
    intro hlong
    rw [isDigestNamePath_long hlong] at h
    cases h
  have hcomponents : pathComponents (namePath blake3 value) =
      ((if (gitName value).isOwned then [utf8 "git"] else []) ++
        (chunkParts value ++ [utf8 "entry"])).map .normal := by
    rw [components_namePath, storedParts, if_neg hshort, nameParts, append_assoc]
  have hdecode : decodeParts "n-" ((chunkParts value ++ [utf8 "entry"]).map .normal) =
      some (encodeName (gitName value).text) := by
    rw [chunkParts, decodeParts_chunks _ _ fun chunk hchunk => isEncodedByte_chunk hchunk,
      chunks_flatten (by decide)]
    rfl
  have hhead : ((chunkParts value ++ [utf8 "entry"]).map PathComponent.normal).head?.any
      (·.asOsStr = utf8 "git") = false := by
    have hportable : ∀ part ∈ chunkParts value ++ [utf8 "entry"], part ≠ utf8 "git" := by
      rintro part hpart rfl
      rcases mem_append.1 hpart with hmem | hmem
      · obtain ⟨chunk, hchunk, hsame⟩ := mem_map.1 hmem
        exact (portable_chunk (isEncodedByte_chunk hchunk)).ne portable_git (by decide)
          (congrArg foldCase hsame)
      · revert hmem
        decide
    cases hparts : chunkParts value ++ [utf8 "entry"] with
    | nil => rfl
    | cons part parts =>
      have hne := hportable part (hparts ▸ mem_cons_self)
      simp [PathComponent.asOsStr, hne]
  have hvalue := nameOf_gitName value
  unfold nameOf at hvalue
  cases howned : (gitName value).isOwned with
  | false =>
    rw [howned] at hcomponents hvalue
    simp only [Bool.false_eq_true, if_false, nil_append] at hcomponents hvalue
    simp only [decodeNamePath, hcomponents, hhead, Bool.false_eq_true, if_false, hdecode,
      Option.bind_eq_bind, Option.bind_some, decodeName_encodeName, hvalue, SamePath, if_pos]
  | true =>
    rw [howned] at hcomponents hvalue
    simp only [if_true, singleton_append, map_cons] at hcomponents hvalue
    simp only [decodeNamePath, hcomponents, head?_cons, Option.any_some,
      PathComponent.asOsStr, decide_true, tail_cons, hdecode,
      Option.bind_eq_bind, Option.bind_some, decodeName_encodeName, hvalue, SamePath, if_pos]

theorem decodeNamePath_digest (h : isDigestNamePath path = true) :
    decodeNamePath blake3 path = none := by
  unfold isDigestNamePath at h
  split at h
  · rename_i digest entry hcomponents
    have hdigest := (Bool.and_eq_true_iff.1 h).1
    cases hstrip : (fromUtf8 digest.asOsStr).bind (stripPrefix · "h-") with
    | none =>
      rw [hstrip] at hdigest
      cases hdigest
    | some hex =>
      obtain ⟨name, hname, hhex⟩ := Option.bind_eq_some_iff.1 hstrip
      obtain rfl := stripPrefix_eq_some.1 hhex
      have hgit : digest.asOsStr ≠ utf8 "git" := by
        rw [← utf8_of_fromUtf8 hname]
        intro heq
        have htext := congrArg String.toList (utf8_injective heq)
        rw [String.toList_append] at htext
        cases htext
      have hchunk : stripPrefix ("h-" ++ hex) "n-" = none := by
        cases hstart : stripPrefix ("h-" ++ hex) "n-" with
        | none => rfl
        | some chunk =>
          have htext := congrArg String.toList (stripPrefix_eq_some.1 hstart)
          rw [String.toList_append, String.toList_append] at htext
          cases htext
      have hdecode : decodeParts "n-" [digest, entry] = none := by
        rw [decodeParts, hname]
        simp only [Option.bind_eq_bind, Option.bind_some, hchunk, Option.bind_none]
        exact fun hnil => absurd hnil (cons_ne_nil _ _)
      simp only [decodeNamePath, hcomponents, head?_cons, Option.any_some, hgit, decide_false,
        Bool.false_eq_true, if_false, hdecode, Option.bind_eq_bind, Option.bind_none]
  · cases h

/-- The reader takes the path of the name it gives, and no digest path. -/
theorem decodeNamePath_eq_some (h : decodeNamePath blake3 path = some value) :
    SamePath (namePath blake3 value) path ∧ isDigestNamePath path = false := by
  constructor
  · simp only [decodeNamePath, Option.bind_eq_bind, Option.bind_eq_some_iff,
      Option.ite_none_right_eq_some] at h
    obtain ⟨_, _, _, _, hsame, hvalue⟩ := h
    rwa [Option.some.inj hvalue] at hsame
  · rw [Bool.eq_false_iff]
    intro hdigest
    rw [decodeNamePath_digest hdigest] at h
    cases h

/-- Portable ref paths are faithful, over any set of names whose digests do not collide. -/
theorem portableNames (blake3 : Bytes → ContentHash) (names : Set String)
    (hinj : Set.InjOn (fun name => blake3 (utf8 name)) names) :
    (∀ a ∈ names, ∀ b ∈ names,
      foldCase (namePath blake3 a) = foldCase (namePath blake3 b) → a = b) ∧
    (∀ a ∈ names, ∀ b ∈ names, pathComponents (foldCase (namePath blake3 a)) <+:
      pathComponents (foldCase (namePath blake3 b)) → a = b) ∧
    (∀ a, (namePath blake3 a).length ≤ namePathBudget) ∧
    (∀ a, isDigestNamePath (namePath blake3 a) = false →
      decodeNamePath blake3 (namePath blake3 a) = some a) ∧
    (∀ path a, decodeNamePath blake3 path = some a →
      SamePath (namePath blake3 a) path ∧ isDigestNamePath path = false) ∧
    (∀ name, (gitName (nativeGitName name)).text = name) ∧ Function.Injective nativeGitName := by
  have hprefix : ∀ a ∈ names, ∀ b ∈ names, pathComponents (foldCase (namePath blake3 a)) <+:
      pathComponents (foldCase (namePath blake3 b)) → a = b := by
    intro a ha b hb h
    rw [components_foldCase, components_foldCase] at h
    have hparts := (prefix_map_iff_of_injective fun _ _ => PathComponent.normal.inj).1 h
    exact storedParts_inj (fun hhash => hinj ha hb hhash) (prefix_of_terminal entry_not_mem hparts)
  refine ⟨?_, hprefix, length_namePath blake3, fun _ => decodeNamePath_namePath,
    fun _ _ => decodeNamePath_eq_some, gitName_nativeGitName, nativeGitName_injective⟩
  intro a ha b hb h
  exact hprefix a ha b hb (h ▸ prefix_rfl)

def longName (c : Char) : String := String.ofList (List.replicate 121 c)

def longNameDigest (bytes : Bytes) : ContentHash :=
  if bytes = utf8 (longName 'x') then ⟨#v[61, 26, 124, 199, 100, 181, 189, 32, 156, 42, 180, 184, 61, 20, 230, 218, 154, 231, 199, 91, 116, 4,
    173, 62, 67, 14, 206, 177, 252, 89, 124, 66]⟩
  else ⟨#v[71, 195, 243, 205, 38, 139, 118, 71, 62, 153, 11, 75, 15, 226, 107, 85, 191, 212, 200, 68, 3, 120,
    149, 199, 7, 125, 82, 192, 232, 100, 76, 189]⟩

theorem portableNames_long :
    isDigestNamePath (namePath longNameDigest (longName 'x')) = true ∧
      foldCase (namePath longNameDigest (longName 'x')) ≠
        foldCase (namePath longNameDigest (longName 'y')) := by
  have hne : longName 'x' ≠ longName 'y' := by decide +kernel
  have hdigests : longNameDigest (utf8 (longName 'x')) ≠ longNameDigest (utf8 (longName 'y')) := by
    decide +kernel
  have hinj : Set.InjOn (fun name => longNameDigest (utf8 name)) {longName 'x', longName 'y'} := by
    rintro a (rfl | rfl) b (rfl | rfl) h
    · rfl
    · exact absurd h hdigests
    · exact absurd h.symm hdigests
    · rfl
  refine ⟨isDigestNamePath_long (by decide +kernel), fun h => hne ?_⟩
  exact (portableNames longNameDigest _ hinj).1 _ (.inl rfl) _ (.inr rfl) h

end Heddle
