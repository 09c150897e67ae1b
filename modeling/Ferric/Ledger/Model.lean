import Ferric.Lib.Action
import Ferric.Lib.Packet
import Mathlib.Data.Finset.Insert

/-!
# The durable ledger

`durable.rs` of the verifier service: a ledger file with a header and a chain of records, the state
that is cached of it, and the external head that anchors it.

## Conventions

* The digest is a parameter, a function from bytes to 32 bytes.
* Offsets of records are below `2 ^ 41`, so the arithmetic of `u64` offsets is that of `ℕ`.
* The ordered sets of the source are only inserted into and looked up, and are `Finset`s here.
-/

namespace Ferric

namespace Ledger

abbrev Identity := Block 32

/-- The bytes of an ASCII literal. -/
def literal (text : String) : List UInt8 := text.toList.map fun c => UInt8.ofNat c.toNat

def headerBytes : ℕ := 128

def recordBytes : ℕ := 224

/-- `VERSION` -/
def version : UInt16 := 3

def headerMagic : List UInt8 := literal "FRV2LED3"

def recordMagic : List UInt8 := literal "FRV2REC3"

def namespaceDomain : List UInt8 :=
  literal "FERRIC/M1/PROTECTED-VERIFIER/DURABLE-LEDGER-NAMESPACE/V3" ++ [0]

def headerDomain : List UInt8 :=
  literal "FERRIC/M1/PROTECTED-VERIFIER/DURABLE-LEDGER-HEADER/V3" ++ [0]

def recordDomain : List UInt8 :=
  literal "FERRIC/M1/PROTECTED-VERIFIER/DURABLE-LEDGER-RECORD/V3" ++ [0]

/-- `MAX_DURABLE_LEDGER_RECORDS_V1` -/
def maxDurableLedgerRecords : UInt32 := 1048576

/-- `DurableLedgerErrorV1`, without the errors of the system that some of them carry. -/
inductive LedgerError where
  | objectIdentityMismatch
  | policyIdentityMismatch
  | invalidCapacity
  | capacityExhausted
  | externalHeadIdentityMismatch
  | externalHeadMissing
  | externalHeadMismatch
  | externalHeadConflict
  | externalHead
  | inspect
  | lock
  | read
  | write
  | synchronize
  | corrupt (field : String)
  | alreadyProvisioned
  deriving DecidableEq

/-- `ProtectedLedgerKindV1` -/
inductive LedgerKind where
  | replay
  | reservation
  deriving DecidableEq

namespace LedgerKind

def tag : LedgerKind → UInt16
  | .replay => 1
  | .reservation => 2

/-- `from_tag` -/
def fromTag (tag : UInt16) : Option LedgerKind :=
  if tag = 1 then some .replay else if tag = 2 then some .reservation else none

theorem fromTag_eq_some {t : UInt16} {kind : LedgerKind} :
    fromTag t = some kind ↔ t = kind.tag := by
  rw [fromTag]
  constructor
  · intro h
    split at h
    · obtain rfl := Option.some.inj h
      assumption
    · split at h
      · obtain rfl := Option.some.inj h
        assumption
      · cases h
  · rintro rfl
    cases kind <;> rfl

end LedgerKind

/-- `ProtectedLedgerExternalHeadV1` -/
structure Head where
  policyIdentity : Identity
  headerIdentity : Identity
  recordCount : UInt32
  recordIdentity : Identity
  deriving DecidableEq

/-- What the constructor of a head asks for. -/
structure Head.Valid (head : Head) : Prop where
  policyIdentity : head.policyIdentity ≠ .zero 32
  headerIdentity : head.headerIdentity ≠ .zero 32
  empty_iff : head.recordCount = 0 ↔ head.recordIdentity = .zero 32

/-- `ProtectedLedgerExternalHeadV1::new` -/
def Head.new (policyIdentity headerIdentity : Identity) (recordCount : UInt32)
    (recordIdentity : Identity) : Outcome LedgerError Head := do
  failIf (policyIdentity = .zero 32 ∨ headerIdentity = .zero 32) .externalHeadMismatch
  failIf (decide (recordCount = 0) ≠ decide (recordIdentity = .zero 32)) .externalHeadMismatch
  return ⟨policyIdentity, headerIdentity, recordCount, recordIdentity⟩

theorem Head.new_eq_ok {policyIdentity headerIdentity recordIdentity : Identity}
    {recordCount : UInt32} {head : Head} :
    Head.new policyIdentity headerIdentity recordCount recordIdentity = .ok head ↔
      head = ⟨policyIdentity, headerIdentity, recordCount, recordIdentity⟩ ∧ head.Valid := by
  simp only [Head.new, bind_eq_ok, failIf_eq_ok, not_or, decide_eq_decide, not_not]
  constructor
  · rintro ⟨-, ⟨hpolicy, hheader⟩, -, hempty, hhead⟩
    obtain rfl := Except.ok.inj hhead
    exact ⟨rfl, hpolicy, hheader, hempty⟩
  · rintro ⟨rfl, hpolicy, hheader, hempty⟩
    exact ⟨(), ⟨hpolicy, hheader⟩, (), hempty, rfl⟩

/-- `LedgerRecordV1` -/
structure LedgerRecord where
  caller : UInt32 × UInt32 × UInt32
  policy : Identity
  primary : Identity
  secondary : Identity
  request : Identity
  kind : LedgerKind
  deriving DecidableEq

/-- `DecodedRecordV1` -/
structure DecodedRecord where
  caller : UInt32 × UInt32 × UInt32
  policy : Identity
  primary : Identity
  secondary : Identity
  request : Identity
  identity : Identity
  deriving DecidableEq

/-- `ReplayCoordinateV1` -/
abbrev ReplayCoordinate := (UInt32 × UInt32 × UInt32) × Identity × Identity

/-- `ValidatedLedgerStateV1` -/
structure LedgerState where
  externalHead : Head
  replay : Finset ReplayCoordinate
  challenges : Finset Identity
  reservations : Finset Identity
  requests : Finset Identity
  deriving DecidableEq

namespace LedgerState

/-- `empty` -/
def empty (externalHead : Head) : LedgerState := ⟨externalHead, ∅, ∅, ∅, ∅⟩

/-- `conflicts` -/
def conflicts (s : LedgerState) (candidate : LedgerRecord) : Bool :=
  match candidate.kind with
  | .replay => decide ((candidate.caller, candidate.policy, candidate.primary) ∈ s.replay)
  | .reservation => decide (candidate.primary ∈ s.challenges) ||
      decide (candidate.secondary ∈ s.reservations) || decide (candidate.request ∈ s.requests)

/-- The sets with the coordinates of a record. -/
def withCoordinates (s : LedgerState) (kind : LedgerKind) (caller : UInt32 × UInt32 × UInt32)
    (policy primary secondary request : Identity) : LedgerState :=
  match kind with
  | .replay => { s with replay := insert (caller, policy, primary) s.replay }
  | .reservation => { s with
      challenges := insert primary s.challenges
      reservations := insert secondary s.reservations
      requests := insert request s.requests }

/-- `insert`. A failed insertion may have changed some of the sets, and the caller gives the state
up. -/
def insert (s : LedgerState) (candidate : LedgerRecord) : Outcome LedgerError LedgerState := do
  failIf (s.conflicts candidate) (.corrupt "duplicate durable coordinate")
  return s.withCoordinates candidate.kind candidate.caller candidate.policy candidate.primary
    candidate.secondary candidate.request

end LedgerState

section Digest

variable (sha256 : List UInt8 → Identity)

/-- `hash_parts` -/
def hashParts (parts : List (List UInt8)) : Identity := sha256 parts.flatten

/-- `ledger_namespace` -/
def ledgerNamespace (policy : Identity) (kind : LedgerKind) : Identity :=
  hashParts sha256 [namespaceDomain, policy.val, (le16 kind.tag).val]

/-- The fields of a header in front of its digest. -/
def headerFields (kind : LedgerKind) (ns policy : Identity) (maxRecords : UInt32) :
    List (List UInt8) :=
  [headerMagic, (le16 version).val, (le16 kind.tag).val, (le32 128).val, (le32 224).val,
    (le32 maxRecords).val, (Block.zero 8).val, ns.val, policy.val]

/-- `encode_header` -/
def encodeHeader (kind : LedgerKind) (ns policy : Identity) (maxRecords : UInt32) : List UInt8 :=
  let fields := headerFields kind ns policy maxRecords
  fields.flatten ++ (hashParts sha256 [headerDomain, fields.flatten]).val

/-- The fields of a record in front of its digest. -/
def LedgerRecord.fields (r : LedgerRecord) (previous : Identity) : List (List UInt8) :=
  [recordMagic, (le16 version).val, (le16 r.kind.tag).val, (le32 224).val,
    (le32 r.caller.1).val, (le32 r.caller.2.1).val, (le32 r.caller.2.2).val, (Block.zero 4).val,
    r.policy.val, r.primary.val, r.secondary.val, r.request.val, previous.val]

/-- The identity of a record after `previous`. -/
def LedgerRecord.identity (r : LedgerRecord) (previous : Identity) : Identity :=
  hashParts sha256 [recordDomain, (r.fields previous).flatten]

/-- `LedgerRecordV1::encode` -/
def LedgerRecord.encode (r : LedgerRecord) (previous : Identity) : List UInt8 :=
  (r.fields previous).flatten ++ (r.identity sha256 previous).val

/-- `header_identity` -/
def headerIdentity (bytes : List UInt8) : List UInt8 := slice bytes 96 128

/-- `validate_header` -/
def validateHeader (bytes : List UInt8) (kind : LedgerKind) (ns policy : Identity)
    (maxRecords : UInt32) : Outcome LedgerError Unit :=
  failIf (slice bytes 0 8 ≠ headerMagic ∨ ofLe (slice bytes 8 10) ≠ version.toNat ∨
    ofLe (slice bytes 10 12) ≠ kind.tag.toNat ∨ ofLe (slice bytes 12 16) ≠ 128 ∨
    ofLe (slice bytes 16 20) ≠ 224 ∨ ofLe (slice bytes 20 24) ≠ maxRecords.toNat ∨
    slice bytes 24 32 ≠ (Block.zero 8).val ∨ slice bytes 32 64 ≠ ns.val ∨
    slice bytes 64 96 ≠ policy.val ∨
    slice bytes 96 128 ≠ (hashParts sha256 [headerDomain, slice bytes 0 96]).val)
    (.corrupt "header binding")

/-- `bytes[lo..hi].try_into().expect(..)` -/
def fixed (n : ℕ) (bytes : List UInt8) : Outcome LedgerError (Block n) :=
  orPanic (if h : bytes.length = n then some ⟨bytes, h⟩ else none)

/-- `decode_record` -/
def decodeRecord (bytes : List UInt8) (kind : LedgerKind) (previous : Identity) :
    Outcome LedgerError DecodedRecord := do
  failIf (slice bytes 0 8 ≠ recordMagic) (.corrupt "record magic")
  failIf (ofLe (slice bytes 8 10) ≠ version.toNat ∨ ofLe (slice bytes 10 12) ≠ kind.tag.toNat ∨
    ofLe (slice bytes 12 16) ≠ 224) (.corrupt "record header")
  failIf (slice bytes 28 32 ≠ (Block.zero 4).val ∨ slice bytes 160 192 ≠ previous.val)
    (.corrupt "record chain")
  let identity ← fixed 32 (slice bytes 192 224)
  failIf (identity ≠ hashParts sha256 [recordDomain, slice bytes 0 192])
    (.corrupt "record checksum")
  let primary ← fixed 32 (slice bytes 64 96)
  let secondary ← fixed 32 (slice bytes 96 128)
  let request ← fixed 32 (slice bytes 128 160)
  failIf (primary = .zero 32 ∨
    (kind = .replay ∧ (secondary ≠ .zero 32 ∨ request ≠ .zero 32)) ∨
    (kind = .reservation ∧ (secondary = .zero 32 ∨ request = .zero 32)))
    (.corrupt "record coordinates")
  let pid ← fixed 4 (slice bytes 16 20)
  let uid ← fixed 4 (slice bytes 20 24)
  let gid ← fixed 4 (slice bytes 24 28)
  let policy ← fixed 32 (slice bytes 32 64)
  return ⟨(ofLe32 pid, ofLe32 uid, ofLe32 gid), policy, primary, secondary, request, identity⟩

/-- `record_offset` -/
def recordOffset (recordCount : ℕ) : ℕ := recordCount * recordBytes + headerBytes

/-- `pread_all`, when no read fails. -/
def preadAll (file : List UInt8) (count offset : ℕ) : Outcome LedgerError (List UInt8) := do
  failIf (file.length < offset + count) (.corrupt "unexpected end of file")
  return slice file offset (offset + count)

/-- One round of the loop of `read_validated_state`: the state and the identity of the record. -/
def readRecord (file : List UInt8) (kind : LedgerKind) (policy : Identity) :
    LedgerState × Identity → ℕ → Outcome LedgerError (LedgerState × Identity)
  | (state, previous), index => do
    let bytes ← preadAll file recordBytes (recordOffset index)
    let record ← decodeRecord sha256 bytes kind previous
    failIf (record.policy ≠ policy) (.corrupt "record policy binding")
    let state ← state.insert ⟨record.caller, record.policy, record.primary, record.secondary,
      record.request, kind⟩
    return (state, record.identity)

/-- `read_validated_state`, of a file with the given bytes. -/
def readValidatedState (file : List UInt8) (kind : LedgerKind) (ns policy : Identity)
    (maxRecords : UInt32) : Outcome LedgerError LedgerState := do
  failIf (file.length < headerBytes ∨
    file.length > maxRecords.toNat * recordBytes + headerBytes)
    (.corrupt "length outside configured capacity")
  let bodyLength := file.length - headerBytes
  failIf (bodyLength % recordBytes ≠ 0) (.corrupt "torn length")
  let recordCount := bodyLength / recordBytes
  failIf (recordCount ≥ 2 ^ 32) (.corrupt "record count overflow")
  failIf (recordCount > maxRecords.toNat) (.corrupt "record capacity exceeded")
  let header ← preadAll file headerBytes 0
  validateHeader sha256 header kind ns policy maxRecords
  let headerIdentity ← fixed 32 (headerIdentity header)
  let state := LedgerState.empty ⟨policy, headerIdentity, .ofNat recordCount, .zero 32⟩
  let (state, previous) ← (List.range recordCount).foldlM (readRecord sha256 file kind policy)
    (state, .zero 32)
  return { state with externalHead := { state.externalHead with recordIdentity := previous } }

/-- `validate_cached_file_state` -/
def validateCachedFileState (file : List UInt8) (kind : LedgerKind) (ns policy : Identity)
    (maxRecords : UInt32) (state : LedgerState) : Outcome LedgerError Unit := do
  let recordCount := state.externalHead.recordCount.toNat
  failIf (file.length ≠ recordOffset recordCount) .externalHeadMismatch
  let header ← preadAll file headerBytes 0
  validateHeader sha256 header kind ns policy maxRecords
  failIf (headerIdentity header ≠ state.externalHead.headerIdentity.val) .externalHeadMismatch
  if recordCount > 0 then
    let tail ← preadAll file recordBytes (recordOffset (recordCount - 1))
    let tailIdentity := slice tail 192 224
    failIf (tailIdentity ≠ state.externalHead.recordIdentity.val ∨
      tailIdentity ≠ (hashParts sha256 [recordDomain, slice tail 0 192]).val) .externalHeadMismatch
  else
    failIf (state.externalHead.recordIdentity ≠ .zero 32) .externalHeadMismatch

end Digest

end Ledger

end Ferric
