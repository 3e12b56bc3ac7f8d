import Heddle.Lib.TextLines
import Heddle.Object.PortableNames
import Heddle.Refs.Readers
import Mathlib

namespace Heddle.Refs
open Heddle.Lib List

/-- What the refs take from packages outside the repository: Git's check of a full ref name and of a
branch name, the Crockford alphabet of base32, and the upper case of Unicode. -/
structure RefPackages where
  checkRefnameFormat : String → Bool
  fromBranchName : String → Bool
  base32Encode : Bytes → String
  base32Decode : String → Option Bytes
  toUppercase : String → String

/-- What the packages say of themselves. A ref name has no control character in it. -/
structure RefPackages.Documented (packages : RefPackages) : Prop where
  control : ∀ name, packages.checkRefnameFormat name → ∀ c ∈ name.toList, 32 ≤ c.toNat
  decode : ∀ bytes, packages.base32Decode (packages.base32Encode bytes) = some bytes
  alphabet : ∀ bytes, ∀ c ∈ (packages.base32Encode bytes).toList, c.isDigit ∨ c.isUpper
  uppercase : ∀ text : String, (∀ c ∈ text.toList, c.toNat < 128) →
    packages.toUppercase text = text.toUpper

def threadsPrefix : String := "refs/threads/"

def markersPrefix : String := "refs/markers/"

/-- A carriage return in front of a newline belongs to the line's end. -/
def stripReturn (line : List Char) : List Char :=
  if line.getLast? = some '\r' then line.dropLast else line

/-- `lines`. The text behind the last newline is a line when there is any. -/
def textLines (text : List Char) : List (List Char) :=
  let pieces := text.splitOn '\n'
  pieces.dropLast.map stripReturn ++ pieces.getLast?.toList.filter (· ≠ [])

namespace RefPackages
variable (packages : RefPackages)

def validateRefName (name : String) : Bool :=
  let source := (gitName name).text
  packages.checkRefnameFormat ("refs/heads/" ++ source) && !isReservedHeddleNamespace name &&
    !("git%".toList <+: name.toList && nativeGitName source ≠ name)

def stateIdText (state : StateId) : String :=
  "hs-" ++ (packages.base32Encode state.bytes.toList).toLower

def stateIdFromSlice (bytes : Bytes) : Option StateId :=
  if h : bytes.length = 32 then some ⟨⟨bytes.toArray, h⟩⟩ else none

/-- `StateId::parse`: with or without its `hs-`. -/
def parseStateId (text : String) : Option StateId :=
  (packages.base32Decode (packages.toUppercase ((stripPrefix text "hs-").getD text))).bind
    stateIdFromSlice

def names : RefNames where
  requireUserRefName := packages.validateRefName
  fromGitBranch := fun name =>
    let branch := (gitName name).text
    branch ≠ "HEAD" && (utf8 branch).length + (utf8 "refs/heads/").length ≤ 1024 &&
      packages.fromBranchName branch
  fromGitTag := fun name =>
    let full := "refs/tags/" ++ (gitName name).text
    (utf8 full).length ≤ 1024 && packages.checkRefnameFormat full
  toStringFull := packages.stateIdText

/-- The ref that a line packs. A line that is empty or malformed and a comment pack none. -/
def lineRef (line : List Char) : Option (RefKey × StateId) :=
  if line = [] ∨ line.head? = some '#' then none
  else
    match line.dropWhile (· ≠ ' ') with
    | [] => none
    | _ :: rest => do
      let state ← packages.parseStateId (String.ofList (line.takeWhile (· ≠ ' ')))
      let refname := String.ofList rest
      match stripPrefix refname threadsPrefix with
      | some name => return (.thread name, state)
      | none => return (.marker (← stripPrefix refname markersPrefix), state)

def setLine (packed : PackedRefs) (line : List Char) : PackedRefs :=
  match packages.lineRef line with
  | some (key, state) => packed.set key state
  | none => packed

def parse (contents : String) : PackedRefs := (textLines contents.toList).foldl packages.setLine {}

def refLine (directory : String) (ref : Sigma fun _ : String => StateId) : String :=
  packages.stateIdText ref.2 ++ " " ++ (directory ++ ref.1)

def packedHeader : String := "# packed-refs with: peeled fully-peeled sorted"

def packedLines (packed : PackedRefs) : List String :=
  packedHeader :: (packed.threads.entries.map (packages.refLine threadsPrefix) ++
    packed.markers.entries.map (packages.refLine markersPrefix))

def toText (packed : PackedRefs) : String :=
  String.ofList (['\n'].intercalate ((sortBy id (packages.packedLines packed)).map String.toList) ++
    ['\n'])

end RefPackages

/-- The files of the refs, the packed ones as the text that holds them. -/
structure RefFiles where
  store : RefStore := {}
  packedText : Option String := none

namespace RefPackages
variable (packages : RefPackages)

def load (files : RefFiles) : RefStore :=
  { files.store with packed := files.packedText.map packages.parse }

def rebuildFiles (files : RefFiles) : RefFiles :=
  { files with store := rebuildStep packages.names (packages.load files) }

def packFileSteps (files : RefFiles) : List (RefFiles → RefFiles) :=
  match packedWithLoose packages.names (packages.load files) with
  | .error _ => []
  | .ok (keys, packed) =>
    if packed.isEmpty then [packages.rebuildFiles]
    else
      (fun files => { files with packedText := some (packages.toText packed) }) ::
        (keys.map (fun key files => { files with store := removeLooseFile files.store key }) ++
          [packages.rebuildFiles])

end RefPackages

section Names
variable {packages : RefPackages} {name : String}

theorem control_of_all {text : String} (h : text.toList.all fun c => n ≤ c.toNat) :
    ∀ c ∈ text.toList, n ≤ c.toNat :=
  fun c hc => of_decide_eq_true (all_eq_true.1 h c hc)

theorem control_encodedByte (h : isEncodedByte b = true) : 32 ≤ (Char.ofNat b.toNat).toNat := by
  have hvalid : b.toNat.isValidChar := .inl (by have hb := b.toNat_lt; omega)
  have hval : (Char.ofNat b.toNat).toNat = b.toNat := by
    rw [Char.ofNat, dif_pos hvalid]
    rfl
  rw [hval]
  simp only [isEncodedByte, isPlainNameByte, percent, Bool.or_eq_true, Bool.and_eq_true,
    decide_eq_true_eq, UInt8.le_iff_toNat_le, ← UInt8.toNat_inj] at h
  simp at h
  omega

theorem control_encodeName (value : String) : ∀ c ∈ (encodeName value).toList, 32 ≤ c.toNat := by
  intro c hc
  rw [encodeName, String.toList_append, mem_append] at hc
  rcases hc with hc | hc
  · exact control_of_all (by decide) c hc
  · rw [asciiText, String.toList_ofList] at hc
    obtain ⟨b, hb, rfl⟩ := mem_map.1 hc
    exact control_encodedByte (isEncodedByte_escape hb)

/-- Git checks the name that is behind a mapped one, and the mapping adds no control character. -/
theorem control_of_validateRefName (h : packages.Documented) (hname : packages.validateRefName name) :
    ∀ c ∈ name.toList, 32 ≤ c.toNat := by
  simp only [RefPackages.validateRefName, Bool.and_eq_true] at hname
  have hsource : ∀ c ∈ (gitName name).text.toList, 32 ≤ c.toNat := by
    intro c hc
    apply h.control _ hname.1.1
    rw [String.toList_append]
    exact mem_append_right _ hc
  rcases gitName_cases name with hgit | ⟨source, hgit, rfl⟩
  · rw [hgit] at hsource
    exact hsource
  · rw [hgit] at hsource
    unfold nativeGitName
    split
    · intro c hc
      rw [String.toList_append, mem_append] at hc
      rcases hc with hc | hc
      · exact control_of_all (by decide) c hc
      · exact control_encodeName source c hc
    · exact hsource

end Names

section StateIds
variable {packages : RefPackages}

theorem ascii_of_alphabet {c : Char} (hc : c.isDigit ∨ c.isUpper) : c.toNat < 128 := by
  simp only [Char.isDigit, Char.isUpper, Bool.and_eq_true, decide_eq_true_eq, ge_iff_le,
    UInt32.le_iff_toNat_le] at hc
  rcases hc with hc | hc
  · exact lt_of_le_of_lt hc.2 (by decide)
  · exact lt_of_le_of_lt hc.2 (by decide)

theorem alphabet_facts {c : Char} (hc : c.isDigit ∨ c.isUpper) :
    c.toLower.toUpper = c ∧ c.toLower.toNat < 128 ∧ 32 < c.toLower.toNat := by
  have hall : ∀ n : Fin 128, ((Char.ofNat n).isDigit ∨ (Char.ofNat n).isUpper) →
      (Char.ofNat n).toLower.toUpper = Char.ofNat n ∧ (Char.ofNat n).toLower.toNat < 128 ∧
        32 < (Char.ofNat n).toLower.toNat := by decide
  have hfacts := hall ⟨c.toNat, ascii_of_alphabet hc⟩
  rw [Char.ofNat_toNat] at hfacts
  exact hfacts hc

theorem parseStateId_stateIdText (h : packages.Documented) (state : StateId) :
    packages.parseStateId (packages.stateIdText state) = some state := by
  have halphabet := h.alphabet state.bytes.toList
  generalize htext : packages.base32Encode state.bytes.toList = text at halphabet
  have hlower : text.toLower.toList = text.toList.map Char.toLower := String.toList_map
  have hupper : text.toLower.toUpper = text := by
    apply String.toList_inj.1
    rw [String.toUpper, String.toList_map, hlower, map_map]
    exact (map_congr_left fun c hc => (alphabet_facts (halphabet c hc)).1).trans (map_id _)
  have hascii : ∀ c ∈ text.toLower.toList, c.toNat < 128 := by
    intro c hc
    rw [hlower] at hc
    obtain ⟨letter, hletter, rfl⟩ := mem_map.1 hc
    exact (alphabet_facts (halphabet letter hletter)).2.1
  rw [RefPackages.parseStateId, RefPackages.stateIdText, stripPrefix_append, Option.getD_some, htext,
    h.uppercase _ hascii, hupper, ← htext, h.decode, Option.bind_some, RefPackages.stateIdFromSlice,
    dif_pos state.bytes.length_toList]
  rfl

theorem plain_stateIdText (h : packages.Documented) (state : StateId) :
    ∀ c ∈ (packages.stateIdText state).toList, 32 < c.toNat := by
  intro c hc
  rw [RefPackages.stateIdText, String.toList_append, mem_append] at hc
  rcases hc with hc | hc
  · exact control_of_all (n := 33) (by decide) c hc
  · rw [String.toLower, String.toList_map] at hc
    obtain ⟨letter, hletter, rfl⟩ := mem_map.1 hc
    exact (alphabet_facts (h.alphabet _ letter hletter)).2.2

end StateIds

section Lines
variable {packages : RefPackages} {packed : PackedRefs} {key : RefKey}

theorem textLines_intercalate {lines : List String} (hne : lines ≠ [])
    (hlines : ∀ line ∈ lines, ∀ c ∈ line.toList, 32 ≤ c.toNat) :
    textLines (['\n'].intercalate (lines.map String.toList) ++ ['\n']) =
      lines.map String.toList := by
  have hcontrol : ∀ line ∈ lines.map String.toList, ∀ c ∈ line, 32 ≤ c.toNat := by
    intro line hline
    obtain ⟨text, htext, rfl⟩ := mem_map.1 hline
    exact hlines text htext
  have hsplit := splitOn_unlines fun line hline hmem => absurd (hcontrol line hline '\n' hmem) (by decide)
  have hstrip : ∀ line ∈ lines.map String.toList, stripReturn line = line := by
    intro line hline
    refine if_neg fun hlast => ?_
    exact absurd (hcontrol line hline '\r' (mem_of_getLast? hlast)) (by decide)
  rw [← unlines_eq_intercalate (fun h => hne (map_eq_nil_iff.1 h)), textLines, hsplit,
    dropLast_concat, getLast?_concat, map_congr_left hstrip, map_id']
  exact append_nil _

theorem lineRef_idText (h : packages.Documented) (state : StateId) (refname : String) :
    packages.lineRef (packages.stateIdText state ++ " " ++ refname).toList =
      match stripPrefix refname threadsPrefix with
      | some name => some (.thread name, state)
      | none => (stripPrefix refname markersPrefix).map fun name => (.marker name, state) := by
  have hplain := plain_stateIdText h state
  have hspace : ∀ c ∈ (packages.stateIdText state).toList, decide (c ≠ ' ') = true := by
    intro c hc
    refine decide_eq_true fun heq => ?_
    exact absurd (heq ▸ hplain c hc) (by decide)
  have htext : (packages.stateIdText state ++ " " ++ refname).toList =
      (packages.stateIdText state).toList ++ ' ' :: refname.toList := by
    rw [String.toList_append, String.toList_append, append_assoc]
    rfl
  have hfirst : ¬((packages.stateIdText state ++ " " ++ refname).toList = [] ∨
      (packages.stateIdText state ++ " " ++ refname).toList.head? = some '#') := by
    rw [htext, RefPackages.stateIdText, String.toList_append]
    simp
  rw [RefPackages.lineRef, if_neg hfirst, htext, dropWhile_append_of_pos hspace,
    takeWhile_append_of_pos hspace, dropWhile_cons_of_neg (by decide),
    takeWhile_cons_of_neg (by decide), append_nil, String.ofList_toList]
  simp only [parseStateId_stateIdText h, String.ofList_toList, Option.bind_eq_bind, Option.bind_some]
  cases stripPrefix refname threadsPrefix with
  | some name => rfl
  | none => cases stripPrefix refname markersPrefix <;> rfl

theorem lineRef_thread (h : packages.Documented) (name : String) (state : StateId) :
    packages.lineRef (packages.refLine threadsPrefix ⟨name, state⟩).toList =
      some (.thread name, state) := by
  rw [RefPackages.refLine, lineRef_idText h, stripPrefix_append]

theorem lineRef_marker (h : packages.Documented) (name : String) (state : StateId) :
    packages.lineRef (packages.refLine markersPrefix ⟨name, state⟩).toList =
      some (.marker name, state) := by
  have hthread : stripPrefix (markersPrefix ++ name) threadsPrefix = none := by
    refine if_neg fun hprefix => ?_
    rw [String.toList_append] at hprefix
    obtain ⟨rest, hrest⟩ := hprefix
    have hnth := congrArg (·[5]?) hrest
    simp [threadsPrefix, markersPrefix] at hnth
  rw [RefPackages.refLine, lineRef_idText h, hthread, stripPrefix_append]
  rfl

theorem lineRef_packable (h : packages.lineRef line = some (key, state)) : key.packable = true := by
  unfold RefPackages.lineRef at h
  split at h
  · cases h
  · split at h
    · cases h
    · simp only [Option.bind_eq_bind, Option.bind_eq_some_iff] at h
      obtain ⟨_, _, h⟩ := h
      split at h
      · cases h
        rfl
      · obtain ⟨_, _, h⟩ := Option.bind_eq_some_iff.1 h
        cases h
        rfl

theorem get_foldl_setLine {lines : List (List Char)} {want : Option StateId}
    (hlines : ∀ line ∈ lines, ∀ state, packages.lineRef line = some (key, state) → want = some state)
    (hwant : packed.get key = want ∨ ∃ line ∈ lines, ∃ state, packages.lineRef line = some (key, state)) :
    (lines.foldl packages.setLine packed).get key = want := by
  induction lines generalizing packed with
  | nil => exact hwant.resolve_right fun ⟨_, hmem, _⟩ => absurd hmem not_mem_nil
  | cons line lines ih =>
    obtain ⟨hline, hlines⟩ := forall_mem_cons.1 hlines
    rw [foldl_cons]
    apply ih hlines
    unfold RefPackages.setLine
    cases href : packages.lineRef line with
    | none =>
      refine hwant.imp_right fun ⟨line', hmem, state, hstate⟩ => ?_
      rcases mem_cons.1 hmem with rfl | hmem
      · rw [href] at hstate
        cases hstate
      · exact ⟨line', hmem, state, hstate⟩
    | some ref =>
      obtain ⟨key', state⟩ := ref
      by_cases hkey : key = key'
      · subst hkey
        rw [hline state href]
        exact .inl (PackedRefs.get_set_self packed (lineRef_packable href) state)
      · simp only [PackedRefs.get_set_ne packed hkey]
        refine hwant.imp_right fun ⟨line', hmem, state', hstate⟩ => ?_
        rcases mem_cons.1 hmem with rfl | hmem
        · rw [href] at hstate
          cases hstate
          exact absurd rfl hkey
        · exact ⟨line', hmem, state', hstate⟩

end Lines

section RoundTrip
variable {packages : RefPackages} {packed : PackedRefs} {key : RefKey}

section
variable (h : packages.Documented)
include h

theorem control_of_refPath (hpath : refPath packages.names (.thread name) = .ok path ∨
    refPath packages.names (.marker name) = .ok path) : ∀ c ∈ name.toList, 32 ≤ c.toNat := by
  have haccepted : requireName packages.validateRefName name = .ok () := by
    rcases hpath with hpath | hpath
    · obtain ⟨_, haccepted, _⟩ := bind_eq_ok.1 hpath
      exact haccepted
    · obtain ⟨_, haccepted, _⟩ := bind_eq_ok.1 hpath
      exact haccepted
  apply control_of_validateRefName h
  by_contra hname
  rw [requireName, if_neg hname] at haccepted
  cases haccepted

theorem control_refLine (directory : String) {name : String} (state : StateId)
    (hdirectory : ∀ c ∈ directory.toList, 32 ≤ c.toNat) (hname : ∀ c ∈ name.toList, 32 ≤ c.toNat) :
    ∀ c ∈ (packages.refLine directory ⟨name, state⟩).toList, 32 ≤ c.toNat := by
  intro c hc
  simp only [RefPackages.refLine, String.toList_append, mem_append] at hc
  rcases hc with (hc | hc) | hc | hc
  · exact (plain_stateIdText h state c hc).le
  · exact control_of_all (by decide) c hc
  · exact hdirectory c hc
  · exact hname c hc

theorem packedLines_cases
    (hvalid : ∀ key, (packed.get key).isSome → refPath packages.names key = .ok (.entry key))
    (hline : line ∈ packages.packedLines packed) : (∀ c ∈ line.toList, 32 ≤ c.toNat) ∧
      (packages.lineRef line.toList = none ∨ ∃ key state, packed.get key = some state ∧
        packages.lineRef line.toList = some (key, state)) := by
  rcases mem_cons.1 hline with rfl | hline
  · exact ⟨control_of_all (by decide), .inl rfl⟩
  rcases mem_append.1 hline with hline | hline
  · obtain ⟨⟨name, state⟩, hentry, rfl⟩ := mem_map.1 hline
    have hget : packed.get (.thread name) = some state := AList.mem_lookup_iff.2 hentry
    refine ⟨control_refLine h _ state (control_of_all (by decide)) ?_, .inr ⟨_, _, hget, lineRef_thread h name state⟩⟩
    exact control_of_refPath h (.inl (hvalid _ (hget ▸ rfl)))
  · obtain ⟨⟨name, state⟩, hentry, rfl⟩ := mem_map.1 hline
    have hget : packed.get (.marker name) = some state := AList.mem_lookup_iff.2 hentry
    refine ⟨control_refLine h _ state (control_of_all (by decide)) ?_, .inr ⟨_, _, hget, lineRef_marker h name state⟩⟩
    exact control_of_refPath h (.inr (hvalid _ (hget ▸ rfl)))

theorem exists_packedLine (hget : packed.get key = some state) :
    ∃ line ∈ packages.packedLines packed, packages.lineRef line.toList = some (key, state) := by
  cases key with
  | thread name =>
    refine ⟨_, mem_cons_of_mem _ (mem_append_left _ (mem_map_of_mem (AList.mem_lookup_iff.1 hget))), ?_⟩
    exact lineRef_thread h name state
  | marker name =>
    refine ⟨_, mem_cons_of_mem _ (mem_append_right _ (mem_map_of_mem (AList.mem_lookup_iff.1 hget))), ?_⟩
    exact lineRef_marker h name state
  | remoteThread remote name => cases hget

theorem parse_toText
    (hvalid : ∀ key, (packed.get key).isSome → refPath packages.names key = .ok (.entry key))
    (key : RefKey) : (packages.parse (packages.toText packed)).get key = packed.get key := by
  have hne : sortBy id (packages.packedLines packed) ≠ [] :=
    ne_nil_of_mem (mem_sortBy.2 mem_cons_self)
  rw [RefPackages.parse, RefPackages.toText, String.toList_ofList, textLines_intercalate hne
    fun line hline => (packedLines_cases h hvalid (mem_sortBy.1 hline)).1]
  apply get_foldl_setLine
  · intro line hline state href
    obtain ⟨text, htext, rfl⟩ := mem_map.1 hline
    rcases (packedLines_cases h hvalid (mem_sortBy.1 htext)).2 with hnone | ⟨_, _, hget, hsome⟩
    · rw [hnone] at href
      cases href
    · rw [hsome] at href
      cases href
      exact hget
  · cases hget : packed.get key with
    | none =>
      apply Or.inl
      cases key <;> rfl
    | some state =>
      obtain ⟨line, hline, href⟩ := exists_packedLine h hget
      exact .inr ⟨_, mem_map_of_mem (mem_sortBy.2 hline), state, href⟩

end

end RoundTrip

section Packing
variable {names : RefNames} {store : RefStore} {key : RefKey}

theorem scanLoose_eq (h : scanLoose names store toKey dirNames = .ok loose) :
    loose = looseRefs store toKey dirNames := by
  obtain ⟨found, hfound, hloose⟩ := bind_eq_ok.1 h
  obtain rfl := Except.ok.inj hloose
  clear h hloose
  unfold looseRefs
  induction dirNames generalizing found with
  | nil =>
    cases hfound
    rfl
  | cons name dirNames ih =>
    rw [mapM_cons] at hfound
    obtain ⟨ref, href, hfound⟩ := bind_eq_ok.1 hfound
    obtain ⟨rest, hrest, hfound⟩ := bind_eq_ok.1 hfound
    obtain ⟨_, _, href⟩ := bind_eq_ok.1 href
    obtain ⟨state, hstate, href⟩ := bind_eq_ok.1 href
    cases hfound
    cases href
    rw [filterMap_cons, ← readStateIdAt_looseState hstate, ← ih rest hrest]
    cases state <;> rfl

theorem packLoose_reads (h : packLoose names store toKey refNames packed = .ok packed') :
    ∀ name ∈ refNames, ∃ path, refPath names (toKey name) = .ok path ∧
      readStateIdAt names store (toKey name) = .ok (looseState store (toKey name)) := by
  unfold packLoose at h
  induction refNames generalizing packed with
  | nil => exact fun _ hmem => absurd hmem not_mem_nil
  | cons name refNames ih =>
    rw [foldlM_cons] at h
    obtain ⟨middle, hstep, hrest⟩ := bind_eq_ok.1 h
    obtain ⟨path, hpath, hstep⟩ := bind_eq_ok.1 hstep
    obtain ⟨state, hstate, _⟩ := bind_eq_ok.1 hstep
    exact forall_mem_cons.2 ⟨⟨path, hpath, readStateIdAt_looseState hstate ▸ hstate⟩, ih hrest⟩

/-- What a pack goes through and saves. -/
structure Packs (names : RefNames) (store : RefStore) (keys : List RefKey) (packed : PackedRefs) :
    Prop where
  reads : ∀ key ∈ keys, key.packable ∧ refPath names key = .ok (.entry key) ∧
    readStateIdAt names store key = .ok (looseState store key)
  values : ∀ key, key.packable →
    packed.get key = (looseState store key).or (store.packedRefs.get key)
  named : ∀ key, (packed.get key).isSome → key ∈ keys

theorem packedWithLoose_packs {keys : List RefKey} (h : packedWithLoose names store = .ok (keys, packed)) :
    Packs names store keys packed := by
  have hget := packedWithLoose_get h
  obtain ⟨threads, hlistThreads, hrest⟩ := bind_eq_ok.1 h
  obtain ⟨middle, hthreads, hrest⟩ := bind_eq_ok.1 hrest
  obtain ⟨markers, hlistMarkers, hrest⟩ := bind_eq_ok.1 hrest
  obtain ⟨saved, hmarkers, hrest⟩ := bind_eq_ok.1 hrest
  cases hrest
  obtain ⟨looseThreads, hscanThreads, hlistThreads⟩ := bind_eq_ok.1 hlistThreads
  obtain ⟨looseMarkers, hscanMarkers, hlistMarkers⟩ := bind_eq_ok.1 hlistMarkers
  obtain rfl := Except.ok.inj hlistThreads
  obtain rfl := Except.ok.inj hlistMarkers
  obtain rfl := scanLoose_eq hscanThreads
  obtain rfl := scanLoose_eq hscanMarkers
  have hnamed (key : RefKey) (hpackable : key.packable) (hsome : (storedEntry store key).isSome) :
      key ∈ (listFromStorage (looseRefs store .thread (listRefsRecursive store threadDirName))
          store.packedRefs.threads).map RefKey.thread ++
        (listFromStorage (looseRefs store .marker (listRefsRecursive store markerDirName))
          store.packedRefs.markers).map RefKey.marker := by
    cases key with
    | thread name =>
      exact mem_append_left _ (mem_map_of_mem ((mem_listFromStorage listsKeys_thread
        (fun _ => rfl) name).2 hsome))
    | marker name =>
      exact mem_append_right _ (mem_map_of_mem ((mem_listFromStorage listsKeys_marker
        (fun _ => rfl) name).2 hsome))
    | remoteThread remote name => cases hpackable
  have hvalues (key : RefKey) (hpackable : key.packable) :
      packed.get key = (looseState store key).or (store.packedRefs.get key) := by
    rw [hget key]
    split
    · rfl
    · rename_i hkey
      have hnone := mt (hnamed key hpackable) hkey
      rw [storedEntry_isSome, not_or, Option.not_isSome_iff_eq_none] at hnone
      rw [hnone.1, Option.none_or]
  refine ⟨fun key hkey => ?_, hvalues, fun key hsome => ?_⟩
  · rcases mem_append.1 hkey with hkey | hkey
    · obtain ⟨name, hname, rfl⟩ := mem_map.1 hkey
      obtain ⟨path, hpath, hread⟩ := packLoose_reads hthreads name hname
      exact ⟨rfl, refPath_ok hpath ▸ hpath, hread⟩
    · obtain ⟨name, hname, rfl⟩ := mem_map.1 hkey
      obtain ⟨path, hpath, hread⟩ := packLoose_reads hmarkers name hname
      exact ⟨rfl, refPath_ok hpath ▸ hpath, hread⟩
  · cases hpackable : key.packable with
    | false =>
      rw [packed.get_not_packable hpackable] at hsome
      cases hsome
    | true =>
      apply hnamed key hpackable
      rw [hvalues key hpackable, Option.isSome_or, Bool.or_eq_true] at hsome
      exact storedEntry_isSome.2 hsome

end Packing

section Files
variable {packages : RefPackages} {files before : RefFiles} {keys : List RefKey} {packed : PackedRefs}

theorem get_of_isEmpty (h : packed.isEmpty = true) (key : RefKey) : packed.get key = none := by
  simp only [PackedRefs.isEmpty, Bool.and_eq_true, List.isEmpty_iff] at h
  cases key with
  | thread name => exact AList.lookup_eq_none.2 fun hmem => absurd (h.1 ▸ AList.mem_keys.1 hmem) not_mem_nil
  | marker name => exact AList.lookup_eq_none.2 fun hmem => absurd (h.2 ▸ AList.mem_keys.1 hmem) not_mem_nil
  | remoteThread remote name => rfl

theorem Packs.rawGet_iff {names : RefNames} {store : RefStore} (h : Packs names store keys packed)
    (hpackable : key.packable) :
    packed.get key = some state ↔ rawGet names store key = .ok (some state) := by
  constructor
  · intro hget
    obtain ⟨_, hpath, hread⟩ := h.reads key (h.named key (hget ▸ rfl))
    rw [h.values key hpackable] at hget
    rw [rawGet, hpath, hread, ← hget]
    cases looseState store key <;> rfl
  · intro hraw
    obtain ⟨_, _, hraw⟩ := bind_eq_ok.1 hraw
    obtain ⟨state', hread, hraw⟩ := bind_eq_ok.1 hraw
    obtain rfl := readStateIdAt_looseState hread
    rw [h.values key hpackable]
    cases hstate : looseState store key with
    | none =>
      rw [hstate] at hraw
      exact Except.ok.inj hraw
    | some id =>
      rw [hstate] at hraw
      exact Except.ok.inj hraw

theorem readStateIdAt_of_loose {names : RefNames} {left right : RefStore}
    (h : left.loose key = right.loose key) :
    readStateIdAt names left key = readStateIdAt names right key := by
  rw [readStateIdAt, readStateIdAt, h]

theorem packedRefs_saved (text : String) :
    (packages.load { before with packedText := some text }).packedRefs = packages.parse text := rfl

/-- While the loose files go, what they said is in the packed file. -/
structure Moving (packages : RefPackages) (before : RefFiles) (keys : List RefKey)
    (packed : PackedRefs) (files : RefFiles) : Prop where
  loose : ∀ key, files.store.loose key = before.store.loose key ∨
    key ∈ keys ∧ files.store.loose key = none
  packed : ∀ key, (packages.load files).packedRefs.get key = packed.get key

theorem Moving.rawGet_eq (h : Moving packages before keys packed files)
    (hpacks : Packs packages.names (packages.load before) keys packed) (key : RefKey) :
    rawGet packages.names (packages.load files) key =
      rawGet packages.names (packages.load before) key := by
  unfold rawGet
  cases refPath packages.names key with
  | error error => rfl
  | ok path =>
    have hvalue : (packages.load files).packedRefs.get key =
        (looseState (packages.load before) key).or ((packages.load before).packedRefs.get key) ∨
          key.packable = false := by
      cases hpackable : key.packable with
      | true => exact .inl ((h.packed key).trans (hpacks.values key hpackable))
      | false => exact .inr rfl
    rcases h.loose key with hsame | ⟨hmem, hnone⟩
    · have hread : readStateIdAt packages.names (packages.load files) key =
          readStateIdAt packages.names (packages.load before) key := readStateIdAt_of_loose hsame
      rw [hread]
      cases hbefore : readStateIdAt packages.names (packages.load before) key with
      | error error => rfl
      | ok state =>
        cases state with
        | some id => rfl
        | none =>
          have hstate := readStateIdAt_looseState hbefore
          rcases hvalue with hvalue | hpackable
          · rw [← hstate, Option.none_or] at hvalue
            exact congrArg Except.ok hvalue
          · apply congrArg Except.ok
            rw [PackedRefs.get_not_packable _ hpackable, PackedRefs.get_not_packable _ hpackable]
    · obtain ⟨hpackable, _, hread⟩ := hpacks.reads key hmem
      have hgone : readStateIdAt packages.names (packages.load files) key = .ok none := by
        have hloose : (packages.load files).loose key = none := hnone
        rw [readStateIdAt, hloose]
      rw [hread, hgone]
      have hsaved := hvalue.resolve_right (by rw [hpackable]; exact Bool.noConfusion)
      cases hstate : looseState (packages.load before) key with
      | none =>
        rw [hstate, Option.none_or] at hsaved
        exact congrArg Except.ok hsaved
      | some id =>
        rw [hstate, Option.some_or] at hsaved
        exact congrArg Except.ok hsaved

theorem moving_saved (h : packages.Documented)
    (hpacks : Packs packages.names (packages.load before) keys packed) :
    Moving packages before keys packed { before with packedText := some (packages.toText packed) } where
  loose := fun _ => .inl rfl
  packed := by
    rw [packedRefs_saved]
    exact parse_toText h fun key hsome => (hpacks.reads key (hpacks.named key hsome)).2.1

theorem Moving.remove (h : Moving packages before keys packed files) (hkey : key ∈ keys) :
    Moving packages before keys packed { files with store := removeLooseFile files.store key } where
  loose := by
    intro key'
    have hview : (refView key' (removeLooseFile files.store key)).1 = _ :=
      congrArg Prod.fst (refView_removeLooseFile files.store key)
    change (removeLooseFile files.store key).loose key' = _ at hview
    by_cases heq : key = key'
    · rw [if_pos heq] at hview
      exact .inr ⟨heq ▸ hkey, hview⟩
    · rw [if_neg heq] at hview
      rw [hview]
      exact h.loose key'
  packed := h.packed

theorem Moving.rebuild (h : Moving packages before keys packed files) :
    Moving packages before keys packed (packages.rebuildFiles files) where
  loose := by
    intro key
    have hfile : (packages.rebuildFiles files).store.loose key = files.store.loose key :=
      fileAt_rebuild packages.names (packages.load files) false (.entry key)
    rw [hfile]
    exact h.loose key
  packed := h.packed

/-- Wherever a pack stops, every ref has the value it had. When it ends, what the packed file says
is read as all the threads and markers that there are. -/
theorem packing_changes_no_ref (h : packages.Documented) (files : RefFiles) :
    (∀ n key, rawGet packages.names
        (packages.load (stateAfter (packages.packFileSteps files) files n)) key =
      rawGet packages.names (packages.load files) key) ∧
    ((packRefs packages.names (packages.load files)).1 = .ok () → ∀ key state, key.packable →
      (((runSteps (packages.packFileSteps files) files).packedText.elim {} packages.parse).get key =
          some state ↔
        rawGet packages.names (packages.load files) key = .ok (some state))) := by
  unfold RefPackages.packFileSteps packRefs
  cases hpacked : packedWithLoose packages.names (packages.load files) with
  | error error =>
    refine ⟨fun n key => ?_, nofun⟩
    simp only [stateAfter, take_nil]
    rfl
  | ok found =>
    obtain ⟨keys, packed⟩ := found
    have hpacks := packedWithLoose_packs hpacked
    have hread (files' : RefFiles) :
        files'.packedText.elim {} packages.parse = (packages.load files').packedRefs := by
      unfold RefPackages.load RefStore.packedRefs
      cases files'.packedText <;> rfl
    simp only [hread]
    cases hempty : packed.isEmpty with
    | true =>
      have hmoving : Moving packages files keys packed files := by
        refine ⟨fun _ => .inl rfl, fun key => ?_⟩
        rw [get_of_isEmpty hempty]
        cases hpackable : key.packable with
        | false => exact PackedRefs.get_not_packable _ hpackable
        | true =>
          have hvalue := hpacks.values key hpackable
          rw [get_of_isEmpty hempty] at hvalue
          exact (Option.or_eq_none_iff.1 hvalue.symm).2
      have hsteps : ∀ step ∈ [packages.rebuildFiles], ∀ files',
          Moving packages files keys packed files' → Moving packages files keys packed (step files') := by
        intro step hstep files' hfiles
        rw [mem_singleton.1 hstep]
        exact hfiles.rebuild
      refine ⟨fun n key => ?_, fun _ key state hpackable => ?_⟩
      · exact (stateAfter_inv hsteps hmoving n).rawGet_eq hpacks key
      · simp only [if_true]
        rw [(runSteps_inv hsteps hmoving).packed key]
        exact hpacks.rawGet_iff hpackable
    | false =>
      simp only [Bool.false_eq_true, if_false]
      generalize htail : (keys.map fun key files => ({ files with
        store := removeLooseFile files.store key } : RefFiles)) ++ [packages.rebuildFiles] = tail
      have hsteps : ∀ step ∈ tail, ∀ files',
          Moving packages files keys packed files' → Moving packages files keys packed (step files') := by
        intro step hstep files' hfiles
        rw [← htail, mem_append, mem_singleton, mem_map] at hstep
        rcases hstep with ⟨key, hkey, rfl⟩ | rfl
        · exact hfiles.remove hkey
        · exact hfiles.rebuild
      have hsaved := moving_saved h hpacks
      refine ⟨fun n key => ?_, fun _ key state hpackable => ?_⟩
      · cases n with
        | zero => rfl
        | succ n => exact (stateAfter_inv hsteps hsaved n).rawGet_eq hpacks key
      · rw [runSteps_cons, (runSteps_inv hsteps hsaved).packed key]
        exact hpacks.rawGet_iff hpackable

/-- Packages that read what they wrote. On 32 zero bytes the text is that of Crockford's base32. -/
def samplePackages : RefPackages where
  checkRefnameFormat := fun name => name.toList.all fun c => 32 ≤ c.toNat
  fromBranchName := fun _ => true
  base32Encode := fun bytes => String.ofList
    (if bytes = replicate 32 0 then replicate 52 '0'
    else 'X' :: unlines '2' (bytes.map fun b => replicate b.toNat '1'))
  base32Decode := fun text =>
    match text.toList with
    | 'X' :: rest => some ((rest.splitOn '2').dropLast.map fun digits => UInt8.ofNat digits.length)
    | _ => some (replicate 32 0)
  toUppercase := String.toUpper

theorem samplePackages_documented : samplePackages.Documented where
  control := by
    intro name hname c hc
    exact of_decide_eq_true (all_eq_true.1 hname c hc)
  decode := by
    intro bytes
    by_cases hzero : bytes = replicate 32 0
    · simp only [samplePackages, String.toList_ofList, hzero]
      rfl
    · have hsplit : (unlines '2' (bytes.map fun b => replicate b.toNat '1')).splitOn '2' = _ :=
        splitOn_unlines fun line hline hmem => by
          obtain ⟨b, _, rfl⟩ := mem_map.1 hline
          exact absurd (eq_of_mem_replicate hmem) (by decide)
      simp only [samplePackages, if_neg hzero, String.toList_ofList, hsplit, dropLast_concat, map_map]
      exact congrArg some ((map_congr_left fun b _ => by simp).trans (map_id bytes))
  alphabet := by
    intro bytes c hc
    by_cases hzero : bytes = replicate 32 0
    · simp only [samplePackages, if_pos hzero, String.toList_ofList] at hc
      rw [eq_of_mem_replicate hc]
      decide
    · simp only [samplePackages, if_neg hzero, String.toList_ofList, unlines, flatMap_map, mem_cons,
        mem_flatMap, mem_append, mem_replicate, not_mem_nil, or_false] at hc
      rcases hc with rfl | ⟨b, _, ⟨_, rfl⟩ | rfl⟩ <;> decide
  uppercase := fun _ _ => rfl

def mainFiles : RefFiles where
  store := ({} : RefStore).setFile (.entry (.thread "main")) (some (.state (numberedState 0)))

/-- The loose file is gone and the packed file has its value. -/
theorem packing_changes_no_ref_main :
    rawGet samplePackages.names (samplePackages.load
      (stateAfter (samplePackages.packFileSteps mainFiles) mainFiles 2)) (.thread "main") =
        .ok (some (numberedState 0)) :=
  ((packing_changes_no_ref samplePackages_documented mainFiles).1 2 (.thread "main")).trans
    (by decide +kernel)

end Files
end Heddle.Refs
