import Heddle.Visibility.Audience
import Heddle.Collaboration.Operation

namespace Heddle
open Heddle.Lib Heddle.Oplog

structure StateSignature where
  algorithm : String
  publicKey : String
  signature : String
  deriving DecidableEq

@[ext] structure StateVisibility (T : Type) where
  state : StateId
  tier : VisibilityTier
  embargoUntil : Option T
  declarer : Principal
  declaredAt : T
  signature : Option StateSignature
  supersedes : Option ContentHash
  deriving DecidableEq

inductive StateVisibilityError where
  | unsupportedVersion (version : Nat)
  | codec (message : String)
  | emptyTierLabel (tier : String)
  deriving DecidableEq

def tierName : VisibilityTier → String
  | .publicTier => "public"
  | .internal => "internal"
  | .teamScoped _ => "team_scoped"
  | .restricted _ => "restricted"
  | .privateTier _ => "private"

def tierLabel : VisibilityTier → String
  | .teamScoped teamId => teamId
  | .restricted scopeLabel => scopeLabel
  | .privateTier scopeLabel => scopeLabel
  | .publicTier => ""
  | .internal => ""

def blank (text : String) : Bool := text.toList.all isWhiteSpace

def StateVisibility.validate (record : StateVisibility T) : Except StateVisibilityError Unit :=
  match record.tier with
  | .teamScoped teamId => if blank teamId then .error (.emptyTierLabel "team_scoped") else .ok ()
  | .restricted scopeLabel =>
    if blank scopeLabel then .error (.emptyTierLabel "restricted") else .ok ()
  | .privateTier scopeLabel =>
    if blank scopeLabel then .error (.emptyTierLabel "private") else .ok ()
  | _ => .ok ()

structure PurgeEvidence (T : Type) where
  purger : Principal
  purgedAt : T
  signature : StateSignature
  deriving DecidableEq

@[ext] structure Redaction (T : Type) where
  redactedBlob : ContentHash
  state : StateId
  path : String
  reason : String
  redactor : Principal
  redactedAt : T
  signature : Option StateSignature
  purge : Option (PurgeEvidence T)
  supersedes : Option ContentHash
  deriving DecidableEq

section Payload
variable (toRfc3339 : T → Bytes)

def stateVisibilityVersionTag : Bytes := utf8 "hd-statevis-v1\x00"
def redactionVersionTag : Bytes := utf8 "hd-redact-v3\x00"
def purgeVersionTag : Bytes := utf8 "hd-purge-v1\x00"

def optionalBytes (encode : α → Bytes) : Option α → Bytes
  | none => []
  | some a => encode a

def StateVisibility.canonicalSigningPayload (record : StateVisibility T) : Bytes :=
  stateVisibilityVersionTag ++ record.state.bytes.toList ++ utf8 (tierName record.tier) ++ [0] ++
    utf8 (tierLabel record.tier) ++ [0] ++ optionalBytes toRfc3339 record.embargoUntil ++ [0] ++
    record.declarer.name ++ [0] ++ record.declarer.email ++ [0] ++ toRfc3339 record.declaredAt ++
    optionalBytes ContentHash.asBytes record.supersedes

def Redaction.canonicalSigningPayload (redaction : Redaction T) : Bytes :=
  redactionVersionTag ++ redaction.redactedBlob.asBytes ++ redaction.state.bytes.toList ++
    utf8 redaction.path ++ [0] ++ utf8 redaction.reason ++ [0] ++ redaction.redactor.name ++ [0] ++
    redaction.redactor.email ++ [0] ++ toRfc3339 redaction.redactedAt ++ [0] ++
    optionalBytes ContentHash.asBytes redaction.supersedes

def Redaction.declaration (blake3 : Bytes → ContentHash) (redaction : Redaction T) : ContentHash :=
  computeTyped blake3 "redaction-declaration-v3" (redaction.canonicalSigningPayload toRfc3339)

def Redaction.canonicalPurgeSigningPayload (blake3 : Bytes → ContentHash) (redaction : Redaction T)
    (purger : Principal) (purgedAt : T) : Bytes :=
  purgeVersionTag ++ (redaction.declaration toRfc3339 blake3).asBytes ++ purger.name ++ [0] ++
    purger.email ++ [0] ++ toRfc3339 purgedAt

end Payload

end Heddle
