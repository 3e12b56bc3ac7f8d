import Heddle.Git.ExtensionHeaders

namespace Heddle
open Heddle.Lib Heddle.Oplog List

section Zone

structure ZoneToken where
  negative : Bool
  hours : Nat
  minutes : Nat
  hours_lt : hours < 100
  minutes_lt : minutes < 60

namespace ZoneToken

def spelling (zone : ZoneToken) : Bytes :=
  [if zone.negative then 45 else 43, UInt8.ofNat (48 + zone.hours / 10),
    UInt8.ofNat (48 + zone.hours % 10), UInt8.ofNat (48 + zone.minutes / 10),
    UInt8.ofNat (48 + zone.minutes % 10)]

def minutesEast (zone : ZoneToken) : Int :=
  if zone.negative then -(60 * zone.hours + zone.minutes : Nat) else (60 * zone.hours + zone.minutes : Nat)

def IsNegativeUtc (zone : ZoneToken) : Prop :=
  zone.negative = true ∧ zone.hours = 0 ∧ zone.minutes = 0

end ZoneToken

theorem twoDigits_lt_hundred (h : n < 100) :
    twoDigits n = [UInt8.ofNat (48 + n / 10), UInt8.ofNat (48 + n % 10)] := by
  rw [twoDigits]
  split
  · rename_i hten
    rw [digitBytes_of_lt le_rfl hten, Nat.div_eq_of_lt hten, Nat.mod_eq_of_lt hten]
    rfl
  · rename_i hten
    have htens : 0 < n / 10 := by omega
    have hdigits := digitBytes_append (by omega) le_rfl htens (Nat.mod_lt n (by omega : 0 < 10))
    rw [Nat.div_add_mod, digitBytes_of_lt le_rfl (by omega)] at hdigits
    exact hdigits.symm

theorem ZoneToken.natAbs_minutesEast (zone : ZoneToken) :
    zone.minutesEast.natAbs = 60 * zone.hours + zone.minutes := by
  rw [minutesEast]
  split <;> omega

theorem ZoneToken.minutesEast_neg_iff (zone : ZoneToken) (hpositive : ¬ zone.IsNegativeUtc) :
    zone.minutesEast < 0 ↔ zone.negative = true := by
  rw [minutesEast]
  split
  · rename_i hnegative
    have hne : ¬ (zone.hours = 0 ∧ zone.minutes = 0) := fun h => hpositive ⟨hnegative, h⟩
    exact iff_of_true (by omega) hnegative
  · rename_i hnegative
    exact iff_of_false (by omega) hnegative

theorem toInt_minutes_mul (zone : ZoneToken) {minutes : Int16}
    (hminutes : minutes.toInt = zone.minutesEast) :
    (minutes.toInt32 * 60).toInt = 60 * zone.minutesEast := by
  have habs := zone.natAbs_minutesEast
  have hhours := zone.hours_lt
  have hmins := zone.minutes_lt
  have hsixty : (60 : Int32).toInt = 60 := by decide
  rw [Int32.toInt_mul, Int16.toInt_toInt32, hminutes, hsixty, Int.mul_comm]
  exact Int.bmod_eq_of_le_mul_two (by omega) (by omega)

theorem formatTzOffset_gitTzOffsetSeconds (zone : ZoneToken) {time : GitTime}
    (hminutes : time.timezoneOffsetMinutes.toInt = zone.minutesEast)
    (hnegative : time.negativeUtc = true ↔ zone.IsNegativeUtc) :
    formatTzOffset (gitTzOffsetSeconds time.timezoneOffsetMinutes time.negativeUtc) =
      zone.spelling := by
  by_cases hutc : zone.IsNegativeUtc
  · rw [gitTzOffsetSeconds, if_pos (hnegative.2 hutc), formatTzOffset, if_pos rfl,
      ZoneToken.spelling, hutc.1, hutc.2.1, hutc.2.2]
    decide
  · have hoffset := toInt_minutes_mul zone hminutes
    have habs := zone.natAbs_minutesEast
    have hsign := zone.minutesEast_neg_iff hutc
    have hhours := zone.hours_lt
    have hmins := zone.minutes_lt
    rw [gitTzOffsetSeconds, if_neg fun h => hutc (hnegative.1 h)]
    generalize time.timezoneOffsetMinutes.toInt32 * 60 = offset at hoffset
    have hne : offset ≠ tzOffsetNegativeUtc := by
      rintro rfl
      have hmin : (tzOffsetNegativeUtc).toInt = -2147483648 := by decide
      omega
    have hlt : offset < 0 ↔ zone.negative = true := by
      rw [Int32.lt_iff_toInt_lt, hoffset, ← hsign, Int32.toInt_zero]
      omega
    have hwhole : offset.toInt.natAbs / 60 = 60 * zone.hours + zone.minutes := by
      omega
    have hdiv : (60 * zone.hours + zone.minutes) / 60 = zone.hours := by omega
    have hmod : (60 * zone.hours + zone.minutes) % 60 = zone.minutes := by omega
    rw [formatTzOffset, if_neg hne]
    dsimp only
    rw [hwhole, hdiv, hmod, twoDigits_lt_hundred hhours, twoDigits_lt_hundred (by omega)]
    simp only [hlt]
    rfl

end Zone

section LineFeeds

theorem not_mem_digitBytes : 10 ∉ digitBytes 10 n := by
  intro h
  exact absurd (isDigitBelow_of_mem h).1 (by decide)

theorem not_mem_twoDigits : 10 ∉ twoDigits n := by
  rw [twoDigits]
  split
  · exact fun h => (mem_cons.1 h).elim (by decide) not_mem_digitBytes
  · exact not_mem_digitBytes

theorem not_mem_decimalBytes : 10 ∉ decimalBytes n := by
  rw [decimalBytes]
  split
  · exact fun h => (mem_cons.1 h).elim (by decide) not_mem_digitBytes
  · exact not_mem_digitBytes

theorem not_mem_formatTzOffset (offset : Int32) : 10 ∉ formatTzOffset offset := by
  rw [formatTzOffset]
  split
  · decide
  · intro h
    rcases mem_cons.1 h with h | h
    · split at h <;> exact absurd h (by decide)
    · exact (mem_append.1 h).elim not_mem_twoDigits not_mem_twoDigits

theorem GitObjectId.not_mem_toHex (id : GitObjectId) : 10 ∉ id.toHex := by
  have hdigit : ∀ n < 16, UInt8.ofNat (Nat.digitChar n).toNat ≠ 10 := by decide
  intro h
  obtain ⟨c, hc, hten⟩ := mem_map.1 h
  obtain ⟨b, _, hb⟩ := mem_flatMap.1 hc
  have hlt := b.toNat_lt
  rcases mem_pair.1 hb with rfl | rfl
  · exact hdigit _ (by omega) hten
  · exact hdigit _ (by omega) hten

end LineFeeds

section Core

def identBytes (who : Principal) (seconds : Int64) (tzOffsetSecs : Int32) : Bytes :=
  (if who.name = [] then [] else who.name ++ [32]) ++ 60 :: who.email ++ utf8 "> " ++
    decimalBytes seconds.toInt ++ 32 :: formatTzOffset tzOffsetSecs

def coreLine (name : String) (value : Bytes) : Bytes := utf8 name ++ 32 :: value

def coreLines (tree : GitObjectId) (parents : List GitObjectId) (author committer : Bytes) :
    List Bytes :=
  coreLine "tree" tree.toHex :: (parents.map fun parent => coreLine "parent" parent.toHex) ++
    [coreLine "author" author, coreLine "committer" committer]

theorem unlines_coreLines (tree : GitObjectId) (parents : List GitObjectId) (author committer : Bytes) :
    unlines 10 (coreLines tree parents author committer) =
      idLine "tree " tree ++ parents.flatMap (idLine "parent ") ++ (coreLine "author" author ++ [10]) ++
        (coreLine "committer" committer ++ [10]) := by
  have hid : ∀ (id : GitObjectId), idLine "tree " id = coreLine "tree" id.toHex ++ [10] ∧
      idLine "parent " id = coreLine "parent" id.toHex ++ [10] := by
    have htree : utf8 "tree " = utf8 "tree" ++ [32] := by decide
    have hparent : utf8 "parent " = utf8 "parent" ++ [32] := by decide
    intro id
    simp [idLine, coreLine, htree, hparent]
  have hparents : unlines 10 (parents.map fun parent => coreLine "parent" parent.toHex) =
      parents.flatMap (idLine "parent ") := by
    rw [unlines, flatMap_map]
    exact flatMap_congr fun id _ => (hid id).2.symm
  simp [coreLines, unlines_append, hparents, hid]

def OnOneLine (who : Principal) : Prop := 10 ∉ who.name ∧ 10 ∉ who.email

theorem OnOneLine.not_mem_identBytes (h : OnOneLine who) (seconds : Int64) (tzOffsetSecs : Int32) :
    10 ∉ identBytes who seconds tzOffsetSecs := by
  have hend : 10 ∉ utf8 "> " := by decide
  have hname : 10 ∉ (if who.name = [] then [] else who.name ++ [32]) := by
    split
    · exact not_mem_nil
    · simpa using h.1
  rw [identBytes]
  simp [hend, hname, h.2, not_mem_decimalBytes, not_mem_formatTzOffset]

theorem actorLine_eq (label : String) (who : Principal) (seconds : Int64) (tzOffsetSecs : Int32) :
    actorLine label who seconds tzOffsetSecs =
      coreLine label (identBytes who seconds tzOffsetSecs) ++ [10] := by
  simp [actorLine, coreLine, identBytes]

theorem writeActorLine_eq_ok : writeActorLine label who seconds tzOffsetSecs = .ok line ↔
      (-2 ^ 63 ≤ seconds.toInt + tzOffsetSecs.toInt ∧ seconds.toInt + tzOffsetSecs.toInt < 2 ^ 63) ∧
        line = actorLine label who seconds tzOffsetSecs := by
  simp only [writeActorLine, checkedActorTimestamp, bind_eq_ok, refuse_eq_ok, pure_eq_ok,
    Except.ok.injEq, not_or, not_lt, not_le]
  constructor
  · rintro ⟨_, ⟨_, hrange, rfl⟩, rfl⟩
    exact ⟨hrange, rfl⟩
  · rintro ⟨hrange, rfl⟩
    exact ⟨seconds, ⟨(), hrange, rfl⟩, rfl⟩

def commitBytes (tree : GitObjectId) (parents : List GitObjectId) (author committer headers message : Bytes) :
    Bytes :=
  unlines 10 (coreLines tree parents author committer) ++ headers ++ 10 :: message

theorem serializeCommit_eq_ok : serializeCommit metadata tree parents = .ok content ↔
      (∀ parent ∈ parents, parent.format = tree.format) ∧
      (∃ line, writeActorLine "author" metadata.author metadata.authorSeconds
        metadata.authorTzOffset = .ok line) ∧
      (∃ line, writeActorLine "committer" metadata.committer metadata.committerSeconds
        metadata.committerTzOffset = .ok line) ∧
      content = commitBytes tree parents
        (identBytes metadata.author metadata.authorSeconds metadata.authorTzOffset)
        (identBytes metadata.committer metadata.committerSeconds metadata.committerTzOffset)
        (metadata.extraHeaders.flatMap extraHeaderBytes) metadata.message := by
  have hformat : (parents.any fun id => id.format ≠ tree.format) = true ↔
      ¬ ∀ parent ∈ parents, parent.format = tree.format := by
    simp
  simp only [serializeCommit, bind_eq_ok, refuse_eq_ok, writeActorLine_eq_ok, pure_eq_ok,
    Except.ok.injEq, hformat, not_not, commitBytes, unlines_coreLines, ← actorLine_eq]
  constructor
  · rintro ⟨_, hparents, _, ⟨hauthor, rfl⟩, _, ⟨hcommitter, rfl⟩, rfl⟩
    exact ⟨hparents, ⟨_, hauthor, rfl⟩, ⟨_, hcommitter, rfl⟩, rfl⟩
  · rintro ⟨hparents, ⟨_, hauthor, rfl⟩, ⟨_, hcommitter, rfl⟩, rfl⟩
    exact ⟨(), hparents, _, ⟨hauthor, rfl⟩, _, ⟨hcommitter, rfl⟩, rfl⟩

theorem coreLine_isHeaderLine (hname : IsHeaderName (utf8 name)) (hvalue : 10 ∉ value) :
    IsHeaderLine (coreLine name value) ∧
      ¬ IsContinuation (coreLine name value) ∧
      splitHeaderLine (coreLine name value) = (utf8 name, value) := by
  refine ⟨⟨by simp [coreLine], by simpa [coreLine, hvalue] using hname.2.2⟩, ?_, ?_⟩
  · rw [coreLine]
    cases hbytes : utf8 name with
    | nil => exact absurd hbytes hname.1
    | cons b rest => exact fun h => hname.2.1 (hbytes ▸ Option.some.inj h ▸ mem_cons_self)
  · exact splitHeaderLine_spaced hname.2.1 value

theorem coreHeaderNames_isHeaderName : ∀ name ∈ ["tree", "parent", "author", "committer"],
    IsHeaderName (utf8 name) := by
  unfold IsHeaderName
  decide

theorem mem_coreLines (hauthor : 10 ∉ author) (hcommitter : 10 ∉ committer)
    (h : line ∈ coreLines tree parents author committer) :
    ∃ name ∈ ["tree", "parent", "author", "committer"], ∃ value, 10 ∉ value ∧
      line = coreLine name value := by
  rcases mem_append.1 h with h | h
  · rcases mem_cons.1 h with rfl | h
    · exact ⟨"tree", by decide, _, tree.not_mem_toHex, rfl⟩
    · obtain ⟨parent, _, rfl⟩ := mem_map.1 h
      exact ⟨"parent", by decide, _, parent.not_mem_toHex, rfl⟩
  · rcases mem_pair.1 h with rfl | rfl
    · exact ⟨"author", by decide, _, hauthor, rfl⟩
    · exact ⟨"committer", by decide, _, hcommitter, rfl⟩

theorem map_split_coreLines (hauthor : 10 ∉ author) (hcommitter : 10 ∉ committer)
    (tree : GitObjectId) (parents : List GitObjectId) :
    ∃ headers : List (Bytes × Bytes), (∀ header ∈ headers, header.1 ≠ utf8 "committer") ∧
      (coreLines tree parents author committer).map splitHeaderLine =
        headers ++ [(utf8 "committer", committer)] := by
  have hsplit : ∀ name ∈ ["tree", "parent", "author", "committer"], ∀ value : Bytes, 10 ∉ value →
      splitHeaderLine (coreLine name value) = (utf8 name, value) := fun name hname value hvalue =>
    (coreLine_isHeaderLine (coreHeaderNames_isHeaderName name hname) hvalue).2.2
  refine ⟨(utf8 "tree", tree.toHex) :: (parents.map fun parent => (utf8 "parent", parent.toHex)) ++
    [(utf8 "author", author)], fun header hmem => ?_, ?_⟩
  · have hne : ∀ name ∈ ["tree", "parent", "author"], utf8 name ≠ utf8 "committer" := by decide
    rcases mem_append.1 hmem with hmem | hmem
    · rcases mem_cons.1 hmem with rfl | hmem
      · exact hne "tree" (by decide)
      · obtain ⟨parent, _, rfl⟩ := mem_map.1 hmem
        exact hne "parent" (by decide)
    · obtain rfl := mem_singleton.1 hmem
      exact hne "author" (by decide)
  · have hparents : parents.map (splitHeaderLine ∘ fun parent => coreLine "parent" parent.toHex) =
        parents.map fun parent => (utf8 "parent", parent.toHex) :=
      map_congr_left fun parent _ => hsplit "parent" (by decide) _ parent.not_mem_toHex
    simp only [coreLines, map_append, map_cons, map_map, map_nil, hparents,
      hsplit "tree" (by decide) _ tree.not_mem_toHex, hsplit "author" (by decide) _ hauthor,
      hsplit "committer" (by decide) _ hcommitter, append_assoc, cons_append,
      nil_append]

theorem parse_commitBytes (hauthor : 10 ∉ author) (hcommitter : 10 ∉ committer)
    (tree : GitObjectId) (parents : List GitObjectId) (hlines : ∀ line ∈ lines, 10 ∉ line)
    (message : Bytes) :
    parseCommitExtensionHeaders
        (commitBytes tree parents author committer (unlines 10 lines) message) =
      (lines.takeWhile (· ≠ [])).foldl readHeaderLine [] := by
  have hcore : ∀ line ∈ coreLines tree parents author committer,
      IsHeaderLine line ∧ ¬ IsContinuation line := by
    intro line hline
    obtain ⟨name, hname, value, hvalue, rfl⟩ := mem_coreLines hauthor hcommitter hline
    have h := coreLine_isHeaderLine (coreHeaderNames_isHeaderName name hname) hvalue
    exact ⟨h.1, h.2.1⟩
  obtain ⟨rest, hrest⟩ := @unlines_takeWhile_nonempty UInt8 10
    (coreLines tree parents author committer ++ lines) message
  rw [takeWhile_append_of_pos fun line hline => by simpa using (hcore line hline).1.1,
    unlines_append] at hrest
  obtain ⟨headers, hheaders, hsplit⟩ := map_split_coreLines hauthor hcommitter tree parents
  rw [commitBytes, hrest, parseCommitExtensionHeaders_lines, foldl_append,
    foldl_readHeaderLine_starts fun line hline => (hcore line hline).2, hsplit, nil_append]
  · obtain ⟨value, hbelow⟩ := foldl_readHeaderLine_below (utf8 "committer") committer
    rw [hbelow]
    exact extensionHeaders_committer hheaders value _
  · exact cons_ne_nil _ _
  · intro line hline
    rcases mem_append.1 hline with hline | hline
    · exact (hcore line hline).1
    · refine ⟨by simpa using mem_takeWhile_imp hline, hlines line ?_⟩
      exact (List.takeWhile_prefix _).subset hline

theorem parse_serialized_iff (hauthor : 10 ∉ author) (hcommitter : 10 ∉ committer)
    (tree : GitObjectId) (parents : List GitObjectId) (headers : List (Bytes × Bytes))
    (message : Bytes) :
    parseCommitExtensionHeaders (commitBytes tree parents author committer
        (headers.flatMap extraHeaderBytes) message) = headers ↔
      ∀ header ∈ headers, IsHeaderName header.1 := by
  have hfree : ∀ line ∈ headers.flatMap headerLines, 10 ∉ line := by
    intro line hline
    obtain ⟨header, _, hmem⟩ := mem_flatMap.1 hline
    exact not_mem_of_mem_splitOn hmem
  rw [flatMap_extraHeaderBytes, parse_commitBytes hauthor hcommitter tree parents hfree]
  constructor
  · intro h
    rw [← h]
    apply foldl_readHeaderLine_names fun _ hmem => absurd hmem not_mem_nil
    intro line hline
    exact ⟨by simpa using mem_takeWhile_imp hline,
      hfree line ((List.takeWhile_prefix _).subset hline)⟩
  · intro h
    have hall : (headers.flatMap headerLines).takeWhile (· ≠ []) = headers.flatMap headerLines := by
      rw [takeWhile_eq_self_iff]
      intro line hline
      obtain ⟨header, hheader, hmem⟩ := mem_flatMap.1 hline
      simpa using (headerLines_isHeaderLine (h header hheader) line hmem).1
    rw [hall, foldl_flatMap_headerLines h, nil_append]

end Core

section Import
variable {fromIdentLine : Bytes → Option GitSignature} {debugLossy : Bytes → String}

theorem timestampOpt_eq_some (h : timestampOpt seconds = some time) :
    time.secs = seconds.toInt := by
  rw [timestampOpt] at h
  split at h
  · obtain rfl := Option.some.inj h
    rfl
  · cases h

theorem parseGitSignature_ok (h : parseGitSignature fromIdentLine debugLossy raw commit field =
    .ok signature) : ∃ value, fromIdentLine raw = some value ∧
      ¬ (value.name = [] ∧ [32, 60].isPrefixOf raw) ∧ signature.name = value.name ∧
      signature.email = value.email ∧ signature.time.secs = value.time.seconds.toInt ∧
      signature.tzOffset =
        gitTzOffsetSeconds value.time.timezoneOffsetMinutes value.time.negativeUtc := by
  unfold parseGitSignature at h
  split at h
  · rename_i value hvalue
    simp only [bind_eq_ok, refuse_eq_ok] at h
    obtain ⟨_, hname, h⟩ := h
    split at h
    · rename_i time htime
      obtain rfl := Except.ok.inj h
      exact ⟨value, hvalue, hname, rfl, rfl, timestampOpt_eq_some htime, rfl⟩
    · cases h
  · cases h

/-- `raw` spells the identity that was read from it; only without a name may the space before the
address be left out. -/
def SpellsIdent (raw : Bytes) (value : GitSignature) : Prop :=
  ∃ (gap : Bytes) (zone : ZoneToken), (gap = [32] ∨ value.name = [] ∧ gap = []) ∧
    raw = value.name ++ gap ++ 60 :: value.email ++ utf8 "> " ++
      decimalBytes value.time.seconds.toInt ++ 32 :: zone.spelling ∧
    value.time.timezoneOffsetMinutes.toInt = zone.minutesEast ∧
    (value.time.negativeUtc = true ↔ zone.IsNegativeUtc) ∧ 10 ∉ value.name ∧ 10 ∉ value.email

theorem Timestamp.toInt_secs (time : Timestamp) : (Int64.ofInt time.secs).toInt = time.secs := by
  have hge := time.secs_ge
  have hle := time.secs_le
  exact Int64.toInt_ofInt_of_le (by omega) (by omega)

theorem identBytes_parsed (hspells : ∀ value, fromIdentLine raw = some value → SpellsIdent raw value)
    (h : parseGitSignature fromIdentLine debugLossy raw commit field = .ok signature) :
    identBytes ⟨signature.name, signature.email⟩ (Int64.ofInt signature.time.secs)
      signature.tzOffset = raw ∧ OnOneLine ⟨signature.name, signature.email⟩ := by
  obtain ⟨value, hvalue, hname, hname', hemail, hsecs, hoffset⟩ := parseGitSignature_ok h
  obtain ⟨gap, zone, hgap, hraw, hminutes, hnegative, hfree, hfree'⟩ := hspells value hvalue
  have hgap' : (if value.name = [] then [] else value.name ++ [32]) = value.name ++ gap := by
    split
    · rename_i hnil
      rcases hgap with rfl | ⟨_, rfl⟩
      · refine absurd ⟨hnil, ?_⟩ hname
        rw [hraw, hnil]
        rfl
      · rw [hnil, append_nil]
    · rename_i hnil
      rw [hgap.resolve_right fun h => hnil h.1]
  refine ⟨?_, by rw [hname']; exact hfree, by rw [hemail]; exact hfree'⟩
  rw [identBytes, Timestamp.toInt_secs, hsecs, hoffset,
    formatTzOffset_gitTzOffsetSeconds zone hminutes hnegative, hname', hemail, hgap', hraw]

theorem writeActorLine_timestamp (label : String) (who : Principal) (time : Timestamp)
    (tzOffsetSecs : Int32) :
    ∃ line, writeActorLine label who (Int64.ofInt time.secs) tzOffsetSecs = .ok line := by
  have hge := time.secs_ge
  have hle := time.secs_le
  have hoffset := tzOffsetSecs.le_toInt
  have hoffset' := tzOffsetSecs.toInt_lt
  refine ⟨_, writeActorLine_eq_ok.2 ⟨?_, rfl⟩⟩
  rw [Timestamp.toInt_secs]
  omega

/-- A commit body with its core headers in canonical spelling: below them stand header lines, an
empty line and the message. -/
structure CanonicalBody (fromIdentLine : Bytes → Option GitSignature) (parsed : CommitRef)
    (lines : List Bytes) (body : Bytes) : Prop where
  body_eq : body = commitBytes parsed.tree parsed.parents parsed.author parsed.committer
    (unlines 10 lines) parsed.message
  lines : ∀ line ∈ lines, IsHeaderLine line
  author : ∀ value, fromIdentLine parsed.author = some value → SpellsIdent parsed.author value
  committer : ∀ value, fromIdentLine parsed.committer = some value →
    SpellsIdent parsed.committer value
  format : ∀ parent ∈ parsed.parents, parent.format = parsed.tree.format

section Imported
variable {objectIdForBytes : GitObjectFormat → Bytes → Except String GitObjectId}
  {parseRef : GitObjectFormat → Bytes → Except String CommitRef} {base state : State J}

theorem convertRawCommit_ok (hparse : parseRef objectFormat body = .ok parsed)
    (h : convertRawCommit objectIdForBytes parseRef fromIdentLine debugLossy base oid objectFormat
      body = .ok state) : ∃ commitId author committer,
      parseGitSignature fromIdentLine debugLossy parsed.author commitId "author" = .ok author ∧
      parseGitSignature fromIdentLine debugLossy parsed.committer commitId "committer" =
        .ok committer ∧
      state = convertCommit base
        ⟨author, committer, parsed.message, parseCommitExtensionHeaders body⟩ := by
  simp only [convertRawCommit, hparse, bind_eq_ok, refuse_eq_ok, pure_eq_ok,
    Except.ok.injEq] at h
  obtain ⟨actualOid, _, _, _, _, hparsed, author, hauthor, committer, hcommitter, rfl⟩ := h
  obtain rfl := Except.ok.inj hparsed
  exact ⟨String.ofList actualOid.hexChars, author, committer, hauthor, hcommitter, rfl⟩

theorem imported_roundTrip_iff (hparse : parseRef objectFormat body = .ok parsed)
    (hcanonical : CanonicalBody fromIdentLine parsed lines body)
    (himport : convertRawCommit objectIdForBytes parseRef fromIdentLine debugLossy base oid
      objectFormat body = .ok state) :
    serializeCommit state.commitMetadata parsed.tree parsed.parents = .ok body ↔
      (∀ line ∈ lines, 32 ∈ line) ∧ ∀ first ∈ lines.head?, ¬ IsContinuation first := by
  obtain ⟨commitId, author, committer, hauthor, hcommitter, rfl⟩ := convertRawCommit_ok hparse himport
  obtain ⟨hauthorBytes, hauthorLine⟩ := identBytes_parsed hcanonical.author hauthor
  obtain ⟨hcommitterBytes, hcommitterLine⟩ := identBytes_parsed hcanonical.committer hcommitter
  have hfree : 10 ∉ parsed.author ∧ 10 ∉ parsed.committer := by
    rw [← hauthorBytes, ← hcommitterBytes]
    exact ⟨hauthorLine.not_mem_identBytes _ _, hcommitterLine.not_mem_identBytes _ _⟩
  have hlines : lines.takeWhile (· ≠ []) = lines := by
    rw [takeWhile_eq_self_iff]
    intro line hline
    simpa using (hcanonical.lines line hline).1
  have hheaders : parseCommitExtensionHeaders body = lines.foldl readHeaderLine [] := by
    rw [hcanonical.body_eq, parse_commitBytes hfree.1 hfree.2 _ _
      (fun line hline => (hcanonical.lines line hline).2), hlines]
  have hwritten : serializeCommit (convertCommit base ⟨author, committer, parsed.message,
      parseCommitExtensionHeaders body⟩).commitMetadata parsed.tree parsed.parents =
      .ok (commitBytes parsed.tree parsed.parents parsed.author parsed.committer
        ((lines.foldl readHeaderLine []).flatMap extraHeaderBytes) parsed.message) := by
    refine serializeCommit_eq_ok.2 ⟨hcanonical.format, writeActorLine_timestamp _ _ _ _,
      writeActorLine_timestamp _ _ _ _, ?_⟩
    rw [← hheaders, ← hauthorBytes, ← hcommitterBytes]
    rfl
  rw [← rewritten_iff hcanonical.lines, hwritten, hcanonical.body_eq, Except.ok.injEq, commitBytes,
    commitBytes, append_left_inj, append_right_inj]

end Imported

/-- An imported body is reproduced just when each line of its extension headers has a space and the
first is no continuation; written headers are read back just when each has a name that its line
shows. -/
theorem gitCommit_roundTrip_iff {objectIdForBytes : GitObjectFormat → Bytes → Except String GitObjectId}
    {parseRef : GitObjectFormat → Bytes → Except String CommitRef} {base state : State J}
    (hparse : parseRef objectFormat body = .ok parsed)
    (hcanonical : CanonicalBody fromIdentLine parsed lines body)
    (himport : convertRawCommit objectIdForBytes parseRef fromIdentLine debugLossy base oid
      objectFormat body = .ok state)
    {metadata : CommitMetadata} (hserialize : serializeCommit metadata tree parents = .ok content)
    (hauthor : OnOneLine metadata.author) (hcommitter : OnOneLine metadata.committer) :
    (serializeCommit state.commitMetadata parsed.tree parsed.parents = .ok body ↔
      (∀ line ∈ lines, 32 ∈ line) ∧ ∀ first ∈ lines.head?, ¬ IsContinuation first) ∧
    (parseCommitExtensionHeaders content = metadata.extraHeaders ↔
      ∀ header ∈ metadata.extraHeaders, IsHeaderName header.1) := by
  refine ⟨imported_roundTrip_iff hparse hcanonical himport, ?_⟩
  obtain ⟨_, _, _, rfl⟩ := serializeCommit_eq_ok.1 hserialize
  exact parse_serialized_iff (hauthor.not_mem_identBytes _ _) (hcommitter.not_mem_identBytes _ _)
    tree parents metadata.extraHeaders metadata.message

section Example

def sampleIdent : GitSignature := ⟨utf8 "A", utf8 "a@x", ⟨1, 0, false⟩⟩

def sampleTree : GitObjectId := .sha1 (Vector.replicate 20 0)

def sampleRef : CommitRef :=
  ⟨sampleTree, [], utf8 "A <a@x> 1 +0000", utf8 "A <a@x> 1 +0000", utf8 "body"⟩

def sampleBody (lines : List Bytes) : Bytes :=
  commitBytes sampleTree [] sampleRef.author sampleRef.committer (unlines 10 lines) sampleRef.message

def sampleBase : State Unit where
  stateId := ⟨Vector.replicate 32 0⟩
  changeId := ⟨Vector.replicate 16 0⟩
  tree := ⟨Vector.replicate 32 0⟩
  parents := []
  attribution := ⟨⟨[], []⟩, none⟩
  createdAt := ⟨0, 0, Timestamp.epoch_ge, Timestamp.epoch_le, Timestamp.zero_nanos_lt⟩

def sampleState (lines : List Bytes) : State Unit :=
  let author : GitImportSignature :=
    ⟨utf8 "A", utf8 "a@x", ⟨1, 0, Timestamp.second_ge, Timestamp.second_le, Timestamp.zero_nanos_lt⟩, 0⟩
  convertCommit sampleBase
    ⟨author, author, sampleRef.message, parseCommitExtensionHeaders (sampleBody lines)⟩

theorem sampleIdent_spells : SpellsIdent sampleRef.author sampleIdent := by
  refine ⟨[32], ⟨false, 0, 0, by omega, by omega⟩, .inl rfl, by decide, rfl, ?_, by decide, by decide⟩
  exact iff_of_false (by decide) fun h => absurd h.1 (by decide)

theorem sampleBody_canonical (hlines : ∀ line ∈ lines, IsHeaderLine line) :
    CanonicalBody (fun _ => some sampleIdent) sampleRef lines (sampleBody lines) where
  body_eq := rfl
  lines := hlines
  author := fun _ h => Option.some.inj h ▸ sampleIdent_spells
  committer := fun _ h => Option.some.inj h ▸ sampleIdent_spells
  format := fun _ h => absurd h not_mem_nil

theorem sampleBody_import (lines : List Bytes) :
    convertRawCommit (fun _ _ => .ok sampleTree) (fun _ _ => .ok sampleRef)
      (fun _ => some sampleIdent) (fun _ => "") sampleBase sampleTree .sha1 (sampleBody lines) =
      .ok (sampleState lines) := rfl

theorem sampleState_serialize (lines : List Bytes) : ∃ content,
    serializeCommit (sampleState lines).commitMetadata sampleTree [] = .ok content := by
  have hactor := writeActorLine_timestamp
  refine ⟨_, serializeCommit_eq_ok.2 ⟨?_, hactor _ _ _ _, hactor _ _ _ _, rfl⟩⟩
  exact fun _ h => absurd h not_mem_nil

theorem sampleState_onOneLine (lines : List Bytes) :
    OnOneLine (sampleState lines).commitMetadata.author ∧
      OnOneLine (sampleState lines).commitMetadata.committer := by
  have hident : OnOneLine ⟨utf8 "A", utf8 "a@x"⟩ := ⟨by decide, by decide⟩
  exact ⟨hident, hident⟩

def signedLines : List Bytes := [utf8 "gpgsig one", utf8 " two"]

theorem gitCommit_roundTrip_iff_signed : ∃ content,
    (serializeCommit (sampleState signedLines).commitMetadata sampleRef.tree sampleRef.parents =
        .ok (sampleBody signedLines) ↔
      (∀ line ∈ signedLines, 32 ∈ line) ∧ ∀ first ∈ signedLines.head?, ¬ IsContinuation first) ∧
    (parseCommitExtensionHeaders content = (sampleState signedLines).commitMetadata.extraHeaders ↔
      ∀ header ∈ (sampleState signedLines).commitMetadata.extraHeaders,
        IsHeaderName header.1) := by
  have hlines : ∀ line ∈ signedLines, IsHeaderLine line := by
    unfold IsHeaderLine
    decide
  obtain ⟨content, hcontent⟩ := sampleState_serialize signedLines
  obtain ⟨hauthor, hcommitter⟩ := sampleState_onOneLine signedLines
  exact ⟨content, gitCommit_roundTrip_iff rfl (sampleBody_canonical hlines)
    (sampleBody_import signedLines) hcontent hauthor hcommitter⟩

/-- A line without a space is written with one, and a name with a space is cut short. -/
theorem gitCommit_roundTrip_drifts :
    (∃ state, convertRawCommit (fun _ _ => .ok sampleTree) (fun _ _ => .ok sampleRef)
        (fun _ => some sampleIdent) (fun _ => "") sampleBase sampleTree .sha1
          (sampleBody [utf8 "flag"]) = .ok state ∧
      serializeCommit state.commitMetadata sampleTree [] ≠ .ok (sampleBody [utf8 "flag"])) ∧
    ∃ content, serializeCommit { (sampleState []).commitMetadata with
        extraHeaders := [(utf8 "a b", utf8 "c")] } sampleTree [] = .ok content ∧
      parseCommitExtensionHeaders content ≠ [(utf8 "a b", utf8 "c")] := by
  constructor
  · have hlines : ∀ line ∈ [utf8 "flag"], IsHeaderLine line := by
      unfold IsHeaderLine
      decide
    refine ⟨_, sampleBody_import _, fun h => ?_⟩
    have hiff := imported_roundTrip_iff rfl (sampleBody_canonical hlines) (sampleBody_import _)
    have hspace : ∀ line ∈ [utf8 "flag"], 32 ∈ line := (hiff.1 h).1
    exact absurd hspace (by decide)
  · have hactor := writeActorLine_timestamp
    have honeLine : OnOneLine ⟨utf8 "A", utf8 "a@x"⟩ := ⟨by decide, by decide⟩
    have hnoParents : ∀ parent ∈ ([] : List GitObjectId), parent.format = sampleTree.format :=
      fun _ h => absurd h not_mem_nil
    refine ⟨_, serializeCommit_eq_ok.2 ⟨hnoParents, hactor _ _ _ _, hactor _ _ _ _, rfl⟩, fun h => ?_⟩
    have hnames := (parse_serialized_iff (honeLine.not_mem_identBytes _ _)
      (honeLine.not_mem_identBytes _ _) _ _ _ _).1 h
    exact absurd (hnames _ mem_cons_self).2.1 (by decide)

end Example

end Import

end Heddle
