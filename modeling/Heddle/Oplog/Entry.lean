import Heddle.Lib.ByteReader
import Heddle.Object.Frame
import Heddle.Oplog.Record

namespace Heddle.Oplog
open Heddle Heddle.Lib List

structure Timestamp where
  secs : Int
  nanos : Nat
  secs_ge : -8334601228800 ≤ secs
  secs_le : secs ≤ 8210266876799
  nanos_lt : nanos < 2000000000
  deriving DecidableEq

theorem Timestamp.zero_nanos_lt : 0 < 2000000000 := by decide
theorem Timestamp.epoch_ge : (-8334601228800 : Int) ≤ 0 := by decide
theorem Timestamp.epoch_le : (0 : Int) ≤ 8210266876799 := by decide
theorem Timestamp.second_ge : (-8334601228800 : Int) ≤ 1 := by decide
theorem Timestamp.second_le : (1 : Int) ≤ 8210266876799 := by decide

/-- One entry of the log. The bounds are those of the machine integers. -/
structure OpEntry where
  id : Nat
  timestamp : Timestamp
  operation : OpRecord
  undone : Bool
  batchId : Nat
  batchIndex : Nat
  scope : Option String
  actor : Principal
  operationId : Option OperationId
  id_lt : id < 256 ^ 8
  batchId_lt : batchId < 256 ^ 8
  batchIndex_lt : batchIndex < 256 ^ 4
  deriving DecidableEq

def effectiveBatchId (entry : OpEntry) : Nat := if entry.batchId = 0 then entry.id else entry.batchId

/-- The encoding of the records in a log. -/
structure PayloadCodec where
  encode : OpRecord → Except HeddleError Bytes
  decode : Bytes → Except HeddleError OpRecord

/-- The record is read back, and from no part that its encoding starts with. -/
def PayloadCodec.Lossless (codec : PayloadCodec) (record : OpRecord) : Prop :=
  ∀ bytes, codec.encode record = .ok bytes → codec.decode bytes = .ok record ∧
    ∀ front, front <+: bytes → codec.decode front = .ok record → front = bytes

def i64ToNat (v : Int) : Nat := (v % 2 ^ 64).toNat

def i64OfNat (n : Nat) : Int := if n < 2 ^ 63 then n else n - 2 ^ 64

theorem i64ToNat_lt (v : Int) : i64ToNat v < 256 ^ 8 := by
  unfold i64ToNat
  omega

theorem i64OfNat_i64ToNat (hge : -2 ^ 63 ≤ v) (hlt : v < 2 ^ 63) :
    i64OfNat (i64ToNat v) = v := by
  unfold i64OfNat i64ToNat
  split <;> omega

theorem i64ToNat_i64OfNat (h : n < 256 ^ 8) : i64ToNat (i64OfNat n) = n := by
  unfold i64OfNat i64ToNat
  split <;> omega

def operationIdBytes : Option OperationId → Bytes
  | some operationId => 1 :: operationId.uuid.toList
  | none => [0]

def entryBytes (entry : OpEntry) (undone : UInt8) (opData : Bytes) : Bytes :=
  leBytes 8 entry.id ++ (leBytes 8 entry.batchId ++ (leBytes 4 entry.batchIndex ++
  (leBytes 8 (i64ToNat entry.timestamp.secs) ++ (leBytes 4 entry.timestamp.nanos ++
  (leBytes 1 undone.toNat ++
  (leBytes 2 (utf8 (entry.scope.getD "")).length ++ (utf8 (entry.scope.getD "") ++
  (leBytes 4 opData.length ++ (opData ++
  (leBytes 2 entry.actor.name.length ++ (entry.actor.name ++
  (leBytes 2 entry.actor.email.length ++ (entry.actor.email ++
  operationIdBytes entry.operationId)))))))))))))

def encodeEntry (codec : PayloadCodec) (entry : OpEntry) : Except HeddleError Bytes := do
  let opData ← codec.encode entry.operation
  return entryBytes entry (if entry.undone then 1 else 0) opData

def readScope (bytes : Bytes) : Except HeddleError (Option String) :=
  if bytes.isEmpty then .ok none
  else (orElseErr (.invalidObject "invalid UTF-8 in scope") (fromUtf8 bytes)).map some

def readOperationId (eof : HeddleError) : Reader HeddleError (Option OperationId) := do
  let tag ← takeLe eof 1
  if tag.1 = 0 then return none
  else if tag.1 = 1 then
    let bytes ← takeBytes eof 16
    liftRead (if h : bytes.length = 16 then .ok (some ⟨⟨bytes.toArray, h⟩⟩) else .error eof)
  else
    liftRead (.error (.invalidObject ("invalid operation_id tag byte " ++ toString tag.1)))

/-- A leap second is refused, although a time can be one. -/
def readTimestamp (secs : Int) (nanos : Nat) : Except HeddleError Timestamp :=
  let message := "invalid oplog timestamp secs=" ++ toString secs ++ " nanos=" ++ toString nanos
  if nanos ≥ 1000000000 then .error (.invalidObject message)
  else if h : -8334601228800 ≤ secs ∧ secs ≤ 8210266876799 ∧ nanos < 2000000000 then
    .ok ⟨secs, nanos, h.1, h.2.1, h.2.2⟩
  else .error (.invalidObject message)

/-- One entry. The sequential parser and the reader at an offset differ in the error that they raise
where the bytes end. -/
def readEntry (codec : PayloadCodec) (eof : HeddleError) : Reader HeddleError OpEntry := do
  let id ← takeLe eof 8
  let batchId ← takeLe eof 8
  let batchIndex ← takeLe eof 4
  let secs ← takeLe eof 8
  let nanos ← takeLe eof 4
  let undone ← takeLe eof 1
  let scopeLen ← takeLe eof 2
  let scopeBytes ← takeBytes eof scopeLen.1
  let scope ← liftRead (readScope scopeBytes)
  let opLen ← takeLe eof 4
  let opData ← takeBytes eof opLen.1
  let operation ← liftRead (codec.decode opData)
  let nameLen ← takeLe eof 2
  let name ← takeBytes eof nameLen.1
  let emailLen ← takeLe eof 2
  let email ← takeBytes eof emailLen.1
  let operationId ← readOperationId eof
  let timestamp ← liftRead (readTimestamp (i64OfNat secs.1) nanos.1)
  return {
    id := id.1, timestamp, operation, undone := undone.1 ≠ 0, batchId := batchId.1
    batchIndex := batchIndex.1, scope, actor := ⟨name, email⟩, operationId
    id_lt := id.2, batchId_lt := batchId.2, batchIndex_lt := batchIndex.2 }

def cursorEof : HeddleError := .invalidObject "oplog truncated"

/-- What the operating system reports at the end of a file. -/
def fileEof : HeddleError := .io "failed to fill whole buffer"

def parseCurrentEntry (codec : PayloadCodec) : Reader HeddleError OpEntry := readEntry codec cursorEof

def readEntryAt (codec : PayloadCodec) (file : Bytes) (offset : Nat) : Except HeddleError OpEntry :=
  (readEntry codec fileEof (file.drop offset)).map Prod.fst

structure OpEntry.Short (entry : OpEntry) : Prop where
  scope : entry.scope ≠ some ""
  scope_lt : (utf8 (entry.scope.getD "")).length < 256 ^ 2
  name_lt : entry.actor.name.length < 256 ^ 2
  email_lt : entry.actor.email.length < 256 ^ 2
  nanos_lt : entry.timestamp.nanos < 1000000000

theorem readScope_ok_iff :
    readScope bytes = .ok scope ↔ scope ≠ some "" ∧ utf8 (scope.getD "") = bytes := by
  unfold readScope
  cases bytes with
  | nil =>
    apply Iff.intro
    · intro h
      cases h
      exact ⟨nofun, rfl⟩
    · intro h
      cases scope with
      | none => rfl
      | some s =>
        have hs : utf8 s = utf8 "" := h.2
        exact absurd (congrArg some (utf8_injective hs)) h.1
  | cons b bytes =>
    rw [if_neg (by simp), map_eq_ok_iff]
    apply Iff.intro
    · intro h
      obtain ⟨s, hs, rfl⟩ := h
      have hbytes := fromUtf8_eq_some.1 (orElseErr_eq_ok.1 hs)
      refine ⟨fun hempty => ?_, hbytes⟩
      cases hempty
      cases hbytes
    · intro h
      cases scope with
      | none => cases h.2
      | some s => exact ⟨s, orElseErr_eq_ok.2 (fromUtf8_eq_some.2 h.2), rfl⟩

theorem readTimestamp_ok_iff :
    readTimestamp secs nanos = .ok timestamp ↔
      timestamp.secs = secs ∧ timestamp.nanos = nanos ∧ nanos < 1000000000 := by
  unfold readTimestamp
  obtain ⟨s, n, hge, hle, hlt⟩ := timestamp
  by_cases hnanos : nanos ≥ 1000000000
  · rw [if_pos hnanos]
    apply Iff.intro
    · intro h
      cases h
    · intro h
      exact absurd h.2.2 (Nat.not_lt.2 hnanos)
  · rw [if_neg hnanos]
    apply Iff.intro
    · intro h
      split at h
      · cases h
        exact ⟨rfl, rfl, Nat.not_le.1 hnanos⟩
      · cases h
    · intro h
      obtain ⟨rfl, rfl, _⟩ := h
      rw [dif_pos ⟨hge, hle, hlt⟩]

theorem readOperationId_ok_iff :
    readOperationId eof bytes = .ok (operationId, rest) ↔
      bytes = operationIdBytes operationId ++ rest := by
  unfold readOperationId
  rw [read_bind_ok_iff]
  apply Iff.intro
  · intro h
    obtain ⟨⟨tag, hlt⟩, mid, htag, h⟩ := h
    rw [takeLe_ok_iff] at htag
    subst htag
    simp only at h
    by_cases hzero : tag = 0
    · subst hzero
      rw [if_pos rfl] at h
      obtain ⟨rfl, rfl⟩ := read_pure_ok_iff.1 h
      rfl
    · rw [if_neg hzero] at h
      by_cases hone : tag = 1
      · subst hone
        rw [if_pos rfl] at h
        obtain ⟨taken, rest', htaken, hid⟩ := read_bind_ok_iff.1 h
        obtain ⟨rfl, hlen⟩ := takeBytes_ok_iff.1 htaken
        obtain ⟨hid, rfl⟩ := liftRead_ok_iff.1 hid
        rw [dif_pos hlen] at hid
        cases hid
        rfl
      · rw [if_neg hone] at h
        cases (liftRead_ok_iff.1 h).1
  · intro h
    subst h
    cases operationId with
    | none => exact ⟨⟨0, by decide⟩, rest, takeLe_ok_iff.2 rfl, rfl⟩
    | some operationId =>
      obtain ⟨uuid⟩ := operationId
      have hlen : uuid.toList.length = 16 := by simp
      refine ⟨⟨1, by decide⟩, uuid.toList ++ rest, takeLe_ok_iff.2 rfl, ?_⟩
      rw [if_neg (by decide), if_pos rfl]
      refine read_bind_ok_iff.2 ⟨uuid.toList, rest, takeBytes_ok_iff.2 ⟨rfl, hlen⟩, ?_⟩
      refine liftRead_ok_iff.2 ⟨?_, rfl⟩
      rw [dif_pos hlen]
      rfl

/-- What a reader takes as an entry: its bytes, with any byte for `undone` that says the same, and
with any record bytes that decode to its record. -/
theorem readEntry_ok_iff :
    readEntry codec eof bytes = .ok (entry, rest) ↔
      ∃ undone opData, (entry.undone = true ↔ undone ≠ 0) ∧
        opData.length < 256 ^ 4 ∧ codec.decode opData = .ok entry.operation ∧ entry.Short ∧
        bytes = entryBytes entry undone opData ++ rest := by
  unfold readEntry
  simp only [read_bind_ok_iff, takeLe_ok_iff, takeBytes_ok_iff, liftRead_ok_iff, readScope_ok_iff,
    readOperationId_ok_iff, readTimestamp_ok_iff, read_pure_ok_iff]
  apply Iff.intro
  · intro h
    obtain ⟨⟨id, hid⟩, _, rfl, ⟨batchId, hbatchId⟩, _, rfl, ⟨batchIndex, hbatchIndex⟩, _, rfl,
      ⟨secs, hsecs⟩, _, rfl, ⟨nanos, hnanos⟩, _, rfl, ⟨undone, hundone⟩, _, rfl, h⟩ := h
    obtain ⟨⟨scopeLen, hscopeLen⟩, _, rfl, scopeBytes, _, ⟨rfl, hscopeBytes⟩, scope, _,
      ⟨⟨hscope, rfl⟩, rfl⟩, ⟨opLen, hopLen⟩, _, rfl, opData, _, ⟨rfl, hopData⟩, operation, _,
      ⟨hoperation, rfl⟩, h⟩ := h
    obtain ⟨⟨nameLen, hnameLen⟩, _, rfl, name, _, ⟨rfl, hname⟩,
      ⟨emailLen, hemailLen⟩, _, rfl, email, _, ⟨rfl, hemail⟩, operationId, _, rfl, timestamp, _,
      ⟨⟨htimestamp, htimestampNanos, hshort⟩, rfl⟩, rfl, rfl⟩ := h
    simp only at hscopeBytes hopData hname hemail htimestamp htimestampNanos hshort
    subst hscopeBytes hopData hname hemail htimestampNanos
    have hbyte : (UInt8.ofNat undone).toNat = undone := by
      rw [UInt8.toNat_ofNat']
      exact Nat.mod_eq_of_lt hundone
    refine ⟨UInt8.ofNat undone, opData, ?_, hopLen, hoperation,
      ⟨hscope, hscopeLen, hnameLen, hemailLen, hshort⟩, ?_⟩
    · simp only [decide_eq_true_eq, ne_eq, ← UInt8.toNat_inj, hbyte, UInt8.toNat_zero]
    · simp only [entryBytes, htimestamp, i64ToNat_i64OfNat hsecs, hbyte, append_assoc]
  · intro h
    obtain ⟨undone, opData, hundone, hopLen, hoperation, hshort, rfl⟩ := h
    have hsecs := i64OfNat_i64ToNat (v := entry.timestamp.secs)
      (le_trans (by decide) entry.timestamp.secs_ge)
      (lt_of_le_of_lt entry.timestamp.secs_le (by decide))
    simp only [entryBytes, append_assoc]
    refine ⟨⟨entry.id, entry.id_lt⟩, _, rfl, ⟨entry.batchId, entry.batchId_lt⟩, _, rfl,
      ⟨entry.batchIndex, entry.batchIndex_lt⟩, _, rfl,
      ⟨i64ToNat entry.timestamp.secs, i64ToNat_lt _⟩, _, rfl,
      ⟨entry.timestamp.nanos, lt_trans hshort.nanos_lt (by decide)⟩, _, rfl,
      ⟨undone.toNat, undone.toNat_lt⟩, _, rfl, ⟨_, hshort.scope_lt⟩, _, rfl,
      _, _, ⟨rfl, rfl⟩, entry.scope, _, ⟨⟨hshort.scope, rfl⟩, rfl⟩, ⟨_, hopLen⟩, _, rfl,
      opData, _, ⟨rfl, rfl⟩, entry.operation, _, ⟨hoperation, rfl⟩, ⟨_, hshort.name_lt⟩, _, rfl,
      entry.actor.name, _, ⟨rfl, rfl⟩, ⟨_, hshort.email_lt⟩, _, rfl,
      entry.actor.email, _, ⟨rfl, rfl⟩, entry.operationId, _, rfl, entry.timestamp, _,
      ⟨⟨hsecs.symm, rfl, hshort.nanos_lt⟩, rfl⟩, ?_, rfl⟩
    have hflag : decide (undone.toNat ≠ 0) = entry.undone := by
      rw [Bool.eq_iff_iff, hundone, decide_eq_true_eq, ne_eq, ne_eq, ← UInt8.toNat_inj,
        UInt8.toNat_zero]
    rw [hflag]

/-- The record of the entry is short enough for its length to be written in 32 bits. -/
def OpEntry.Fits (codec : PayloadCodec) (entry : OpEntry) : Prop :=
  ∀ opData, codec.encode entry.operation = .ok opData → opData.length < 256 ^ 4

/-- What is read back from a container: the entry has no field that its encoding cuts down. -/
def OpEntry.Readable (codec : PayloadCodec) (entry : OpEntry) : Prop :=
  entry.Short ∧ entry.Fits codec ∧ codec.Lossless entry.operation

theorem encodeEntry_ok_iff :
    encodeEntry codec entry = .ok bytes ↔ ∃ opData, codec.encode entry.operation = .ok opData ∧
      entryBytes entry (if entry.undone then 1 else 0) opData = bytes := by
  unfold encodeEntry
  simp only [bind_eq_ok, pure_eq_ok, Except.ok.injEq]

theorem encodeEntry_pos (h : encodeEntry codec entry = .ok bytes) : 0 < bytes.length := by
  obtain ⟨opData, _, rfl⟩ := encodeEntry_ok_iff.1 h
  unfold entryBytes
  rw [length_append, length_leBytes]
  omega

theorem readEntry_reads (eof : HeddleError) (h : encodeEntry codec entry = .ok bytes)
    (hr : entry.Readable codec) :
    Reads (readEntry codec eof) bytes entry := by
  intro rest
  obtain ⟨opData, hencode, rfl⟩ := encodeEntry_ok_iff.1 h
  obtain ⟨hshort, hfits, hlossless⟩ := hr
  refine readEntry_ok_iff.2
    ⟨_, opData, ?_, hfits opData hencode, (hlossless opData hencode).1, hshort, rfl⟩
  cases entry.undone with
  | true => simp
  | false => simp

/-- The record bytes that a reader takes where an entry was written: those that were written, when
the reader gives the record that was written. -/
theorem entryBytes_inj {codec : PayloadCodec} {entry : OpEntry}
    (hlossless : codec.Lossless entry.operation) (hencode : codec.encode entry.operation = .ok opData)
    (hdecode : codec.decode opData' = .ok entry.operation) (hlen : opData'.length < 256 ^ 4)
    (h : entryBytes entry undone opData ++ rest = entryBytes entry undone' opData' ++ rest') :
    opData' = opData ∧ rest = rest' := by
  simp only [entryBytes, append_assoc] at h
  have h := (append_inj h rfl).2
  have h := (append_inj h rfl).2
  have h := (append_inj h rfl).2
  have h := (append_inj h rfl).2
  have h := (append_inj h rfl).2
  have h := (append_inj h (by simp)).2
  have h := (append_inj h rfl).2
  have h := (append_inj h rfl).2
  obtain ⟨hlengths, h⟩ := append_inj h (by simp)
  have hmod : opData.length % 256 ^ 4 = opData'.length := by
    have hof := congrArg ofLeBytes hlengths
    rwa [ofLeBytes_leBytes_mod, ofLeBytes_leBytes hlen] at hof
  have hle : opData'.length ≤ opData.length := hmod ▸ Nat.mod_le _ _
  have hprefix : opData' <+: opData := by
    have hleft : opData' <+: opData ++ _ := ⟨_, h.symm⟩
    exact prefix_of_prefix_length_le hleft (prefix_append _ _) hle
  have heq := (hlossless opData hencode).2 opData' hprefix hdecode
  subst heq
  have h := append_cancel_left h
  have h := append_cancel_left h
  have h := append_cancel_left h
  have h := append_cancel_left h
  have h := append_cancel_left h
  exact ⟨rfl, append_cancel_left h⟩

theorem readOperationId_sequential (eof : HeddleError) : Sequential eof (readOperationId eof) := by
  apply (Sequential.takeLe eof 1).bind
  intro tag
  split
  · exact Sequential.pure eof none
  · split
    · exact (Sequential.takeBytes eof 16).bind fun bytes => Sequential.lift eof _
    · exact Sequential.lift eof _

theorem readEntry_sequential (codec : PayloadCodec) (eof : HeddleError) :
    Sequential eof (readEntry codec eof) := by
  apply (Sequential.takeLe eof 8).bind; intro id
  apply (Sequential.takeLe eof 8).bind; intro batchId
  apply (Sequential.takeLe eof 4).bind; intro batchIndex
  apply (Sequential.takeLe eof 8).bind; intro secs
  apply (Sequential.takeLe eof 4).bind; intro nanos
  apply (Sequential.takeLe eof 1).bind; intro undone
  apply (Sequential.takeLe eof 2).bind; intro scopeLen
  apply (Sequential.takeBytes eof _).bind; intro scopeBytes
  apply (Sequential.lift eof _).bind; intro scope
  apply (Sequential.takeLe eof 4).bind; intro opLen
  apply (Sequential.takeBytes eof _).bind; intro opData
  apply (Sequential.lift eof _).bind; intro operation
  apply (Sequential.takeLe eof 2).bind; intro nameLen
  apply (Sequential.takeBytes eof _).bind; intro name
  apply (Sequential.takeLe eof 2).bind; intro emailLen
  apply (Sequential.takeBytes eof _).bind; intro email
  apply (readOperationId_sequential eof).bind; intro operationId
  apply (Sequential.lift eof _).bind; intro timestamp
  exact Sequential.pure eof _

end Heddle.Oplog
