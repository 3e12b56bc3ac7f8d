import Heddle.Object.GitLayout
import Heddle.Object.State

namespace Heddle
open Heddle.Lib Heddle.Oplog

section Zone

def tzOffsetNegativeUtc : Int32 := Int32.minValue

def gitTzOffsetSeconds (minutesEast : Int16) (negativeUtc : Bool) : Int32 :=
  if negativeUtc then tzOffsetNegativeUtc else minutesEast.toInt32 * 60

def twoDigits (n : Nat) : Bytes :=
  if n < 10 then 48 :: digitBytes 10 n else digitBytes 10 n

def formatTzOffset (offsetSecs : Int32) : Bytes :=
  if offsetSecs = tzOffsetNegativeUtc then utf8 "-0000"
  else
    let minutes := offsetSecs.toInt.natAbs / 60
    (if offsetSecs < 0 then 45 else 43) :: (twoDigits (minutes / 60) ++ twoDigits (minutes % 60))

end Zone

section Serialize

structure CommitMetadata where
  author : Principal
  authorSeconds : Int64
  authorTzOffset : Int32
  committer : Principal
  committerSeconds : Int64
  committerTzOffset : Int32
  extraHeaders : List (Bytes × Bytes)
  message : Bytes
  deriving DecidableEq

def State.commitMetadata (state : State J) : CommitMetadata where
  author := state.attribution.principal
  authorSeconds := Int64.ofInt (state.authoredAt.getD state.createdAt).secs
  authorTzOffset := state.authoredTzOffset
  committer := state.committer.getD state.attribution.principal
  committerSeconds := Int64.ofInt state.createdAt.secs
  committerTzOffset := state.committerTzOffset
  extraHeaders := state.extraHeaders
  message := state.rawMessage.getD []

def GitObjectId.hexChars (id : GitObjectId) : List Char :=
  id.asBytes.flatMap fun b => [Nat.digitChar (b.toNat / 16), Nat.digitChar (b.toNat % 16)]

def GitObjectId.toHex (id : GitObjectId) : Bytes := id.hexChars.map fun c => UInt8.ofNat c.toNat

def decimalBytes (n : Int) : Bytes :=
  if n < 0 then 45 :: digitBytes 10 n.natAbs else digitBytes 10 n.natAbs

/-- The local seconds must not overflow, though only the UTC seconds are written. -/
def checkedActorTimestamp (label : String) (seconds : Int64) (tzOffsetSecs : Int32) :
    Except SerializeError Int64 := do
  let sum := seconds.toInt + tzOffsetSecs.toInt
  refuse (sum < -2 ^ 63 ∨ 2 ^ 63 ≤ sum) (.invalidObject (label ++ " timestamp " ++
    toString seconds.toInt ++ " with timezone offset " ++ toString tzOffsetSecs.toInt ++
      " overflows i64"))
  return seconds

def actorLine (label : String) (who : Principal) (seconds : Int64) (tzOffsetSecs : Int32) : Bytes :=
  utf8 label ++ 32 :: (if who.name = [] then [] else who.name ++ [32]) ++ 60 :: who.email ++
    utf8 "> " ++ decimalBytes seconds.toInt ++ 32 :: formatTzOffset tzOffsetSecs ++ [10]

def writeActorLine (label : String) (who : Principal) (seconds : Int64) (tzOffsetSecs : Int32) :
    Except SerializeError Bytes := do
  let seconds ← checkedActorTimestamp label seconds tzOffsetSecs
  return actorLine label who seconds tzOffsetSecs

def appendFolded (value : Bytes) : Bytes := [10, 32].intercalate (value.splitOn 10)

def extraHeaderBytes (header : Bytes × Bytes) : Bytes :=
  header.1 ++ 32 :: appendFolded header.2 ++ [10]

def idLine (label : String) (id : GitObjectId) : Bytes := utf8 label ++ id.toHex ++ [10]

def serializeCommit (metadata : CommitMetadata) (treeOid : GitObjectId)
    (parentOids : List GitObjectId) : Except SerializeError Bytes := do
  refuse (parentOids.any fun id => id.format ≠ treeOid.format)
    (.invalidObject "commit IDs use different Git object formats")
  let author ← writeActorLine "author" metadata.author metadata.authorSeconds
    metadata.authorTzOffset
  let committer ← writeActorLine "committer" metadata.committer metadata.committerSeconds
    metadata.committerTzOffset
  return idLine "tree " treeOid ++ parentOids.flatMap (idLine "parent ") ++ author ++ committer ++
    metadata.extraHeaders.flatMap extraHeaderBytes ++ 10 :: metadata.message

end Serialize

section ExtensionHeaders

def windowPosition (needle : Bytes) : Bytes → Option Nat
  | [] => none
  | b :: rest =>
    if needle.isPrefixOf (b :: rest) then some 0 else (windowPosition needle rest).map (· + 1)

def findSubslice (haystack needle : Bytes) : Option Nat :=
  if needle = [] ∨ haystack.length < needle.length then none else windowPosition needle haystack

def headerBlock (commitContent : Bytes) : Bytes :=
  match findSubslice commitContent [10, 10] with
  | some idx => commitContent.take idx
  | none => commitContent

def splitHeaderLine (line : Bytes) : Bytes × Bytes :=
  match line.idxOf? 32 with
  | some sp => (line.take sp, line.drop (sp + 1))
  | none => (line, [])

def appendToLast (headers : List (Bytes × Bytes)) (continuation : Bytes) : List (Bytes × Bytes) :=
  match headers.getLast? with
  | some (name, value) => headers.dropLast ++ [(name, value ++ 10 :: continuation)]
  | none => headers

def readHeaderLine (headers : List (Bytes × Bytes)) : Bytes → List (Bytes × Bytes)
  | 32 :: continuation => appendToLast headers continuation
  | line => headers ++ [splitHeaderLine line]

def coreHeaderNames : List Bytes := [utf8 "tree", utf8 "parent", utf8 "author", utf8 "committer"]

/-- The headers after `committer`, or all but the core headers when there is no such line. -/
def extensionHeaders (headers : List (Bytes × Bytes)) : List (Bytes × Bytes) :=
  match headers.findIdx? fun header => header.1 = utf8 "committer" with
  | some idx => headers.drop (idx + 1)
  | none => headers.filter fun header => header.1 ∉ coreHeaderNames

def parseCommitExtensionHeaders (commitContent : Bytes) : List (Bytes × Bytes) :=
  extensionHeaders (((headerBlock commitContent).splitOn 10).foldl readHeaderLine [])

end ExtensionHeaders

section Import

structure GitTime where
  seconds : Int64
  timezoneOffsetMinutes : Int16
  negativeUtc : Bool
  deriving DecidableEq

structure GitSignature where
  name : Bytes
  email : Bytes
  time : GitTime
  deriving DecidableEq

structure CommitRef where
  tree : GitObjectId
  parents : List GitObjectId
  author : Bytes
  committer : Bytes
  message : Bytes
  deriving DecidableEq

structure GitImportSignature where
  name : Bytes
  email : Bytes
  time : Timestamp
  tzOffset : Int32
  deriving DecidableEq

structure GitImportCommit where
  author : GitImportSignature
  committer : GitImportSignature
  message : Bytes
  extraHeaders : List (Bytes × Bytes)
  deriving DecidableEq

def timestampOpt (seconds : Int64) : Option Timestamp :=
  if h : -8334601228800 ≤ seconds.toInt ∧ seconds.toInt ≤ 8210266876799 then
    some ⟨seconds.toInt, 0, h.1, h.2, Timestamp.zero_nanos_lt⟩
  else none

-- The Git library: the id of a commit's bytes, its reader for commits and for identity lines.
variable (objectIdForBytes : GitObjectFormat → Bytes → Except String GitObjectId)
  (parseRef : GitObjectFormat → Bytes → Except String CommitRef)
  (fromIdentLine : Bytes → Option GitSignature)
  (debugLossy : Bytes → String)

def parseGitSignature (raw : Bytes) (commit field : String) :
    Except HeddleError GitImportSignature := do
  let some value := fromIdentLine raw
    | .error (.invalidObject ("Git commit " ++ commit ++ ": " ++ field ++
        " is not a valid identity (needs `name <email> seconds ±HHMM`): " ++ debugLossy raw))
  refuse (value.name = [] ∧ [32, 60].isPrefixOf raw) (.invalidObject ("Git commit " ++ commit ++
    ": " ++ field ++ " has an empty name followed by a space, which cannot be " ++
      "reconstructed byte-exactly: " ++ debugLossy raw))
  let some time := timestampOpt value.time.seconds
    | .error (.invalidObject ("Git commit " ++ commit ++ ": " ++ field ++ " timestamp " ++
        toString value.time.seconds.toInt ++ " is out of range"))
  return { name := value.name, email := value.email, time,
           tzOffset := gitTzOffsetSeconds value.time.timezoneOffsetMinutes value.time.negativeUtc }

/-- The state of a commit without a note; `base` has what the note, the message, the mapped tree
and parents and the identity give. -/
def convertCommit (base : State J) (commit : GitImportCommit) : State J :=
  { base with
    attribution := { base.attribution with
      principal := ⟨commit.author.name, commit.author.email⟩ }
    createdAt := commit.committer.time
    authoredAt := some commit.author.time
    committer := some ⟨commit.committer.name, commit.committer.email⟩
    authoredTzOffset := commit.author.tzOffset
    committerTzOffset := commit.committer.tzOffset
    rawMessage := some commit.message
    extraHeaders := commit.extraHeaders }

def convertRawCommit (base : State J) (oid : GitObjectId) (objectFormat : GitObjectFormat)
    (rawCommit : Bytes) : Except HeddleError (State J) := do
  let actualOid ← (objectIdForBytes objectFormat rawCommit).mapError fun error =>
    .invalidObject ("hash Git commit: " ++ error)
  refuse (actualOid.asBytes ≠ oid.asBytes) (.invalidObject "raw Git commit does not match its OID")
  let parsed ← (parseRef objectFormat rawCommit).mapError fun error =>
    .invalidObject ("invalid Git commit: " ++ error)
  let commitId := String.ofList actualOid.hexChars
  let author ← parseGitSignature fromIdentLine debugLossy parsed.author commitId "author"
  let committer ← parseGitSignature fromIdentLine debugLossy parsed.committer commitId "committer"
  return convertCommit base ⟨author, committer, parsed.message,
    parseCommitExtensionHeaders rawCommit⟩

end Import

end Heddle
