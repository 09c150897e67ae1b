import Ferric.Ledger.Model

/-!
# Packets of the head store

`head_store_ipc.rs` of the verifier service: the fixed-width request and response packets, and the
checks of transitions and of responses.

## Conventions

* The five identities and the kind that every packet carries are one `Context`.
* A packet is written from the front to the back of a buffer of its size, so its bytes are the
  concatenation of its fields.
-/

namespace Ferric

namespace HeadStore

open Ledger

def magicRequest : List UInt8 := literal "F3HSRQ1" ++ [0]

def magicResponse : List UInt8 := literal "F3HSRS1" ++ [0]

/-- `VERSION_V1` -/
def protocolVersion : UInt16 := 1

def requestIdentityDomain : List UInt8 :=
  literal "FERRIC/PROTECTED-HEAD-STORE/REQUEST/V1" ++ [0]

def responseIdentityDomain : List UInt8 :=
  literal "FERRIC/PROTECTED-HEAD-STORE/RESPONSE/V1" ++ [0]

/-- `PREOPENED_PROTECTED_HEAD_STORE_REQUEST_BYTES_V1` -/
def requestBytes : ℕ := 428

/-- `PREOPENED_PROTECTED_HEAD_STORE_RESPONSE_BYTES_V1` -/
def responseBytes : ℕ := 360

/-- `ProtectedHeadStoreProtocolErrorV1` -/
inductive ProtocolError where
  | zeroProtocolIdentity
  | zeroProviderIdentity
  | zeroNamespaceIdentity
  | zeroPolicyIdentity
  | zeroAdmissionSessionIdentity
  | operation (actual : UInt16)
  | ledgerKind
  | reservedBytes
  | zeroRequestSequence
  | invalidHead
  | headPolicyMismatch
  | invalidInitialization
  | invalidAdvance
  | requestLength (expected actual : ℕ)
  | requestHeader
  | requestIdentity
  | noncanonicalRequest
  | responseLength (expected actual : ℕ)
  | responseHeader
  | responseStatus (actual : UInt16)
  | responseSemantics
  | responseIdentity
  | noncanonicalResponse
  | truncated
  | trailingBytes
  deriving DecidableEq

/-- `ProtectedHeadStoreOperationV1` -/
inductive Operation where
  | load
  | initializeHead
  | compareAndAdvance
  deriving DecidableEq

namespace Operation

def code : Operation → UInt16
  | .load => 1
  | .initializeHead => 2
  | .compareAndAdvance => 3

def decode (code : UInt16) : Outcome ProtocolError Operation :=
  if code = 1 then .ok .load
  else if code = 2 then .ok .initializeHead
  else if code = 3 then .ok .compareAndAdvance
  else .error (.err (.operation code))

end Operation

/-- `ProtectedHeadStoreResponseStatusV1` -/
inductive Status where
  | loaded
  | absent
  | advanced
  | conflict
  | rejected
  deriving DecidableEq

namespace Status

def code : Status → UInt16
  | .loaded => 1
  | .absent => 2
  | .advanced => 3
  | .conflict => 4
  | .rejected => 5

def decode (code : UInt16) : Outcome ProtocolError Status :=
  if code = 1 then .ok .loaded
  else if code = 2 then .ok .absent
  else if code = 3 then .ok .advanced
  else if code = 4 then .ok .conflict
  else if code = 5 then .ok .rejected
  else .error (.err (.responseStatus code))

end Status

/-- The identities and the kind that every packet carries. -/
structure Context where
  protocolIdentity : Identity
  providerIdentity : Identity
  namespaceIdentity : Identity
  policyIdentity : Identity
  admissionSessionIdentity : Identity
  kind : LedgerKind
  deriving DecidableEq

/-- `validate_context` -/
def Context.validate (c : Context) : Outcome ProtocolError Unit := do
  failIf (c.protocolIdentity = .zero 32) .zeroProtocolIdentity
  failIf (c.providerIdentity = .zero 32) .zeroProviderIdentity
  failIf (c.namespaceIdentity = .zero 32) .zeroNamespaceIdentity
  failIf (c.policyIdentity = .zero 32) .zeroPolicyIdentity
  failIf (c.admissionSessionIdentity = .zero 32) .zeroAdmissionSessionIdentity

/-- The fields of a context, in the order of the packets. -/
def Context.fields (c : Context) : List (List UInt8) :=
  [c.protocolIdentity.val, c.providerIdentity.val, c.namespaceIdentity.val, c.policyIdentity.val,
    c.admissionSessionIdentity.val, (le16 c.kind.tag).val]

/-- `validate_transition` -/
def validateTransition (operation : Operation) (policyIdentity : Identity)
    (current next : Option Head) : Outcome ProtocolError Unit := do
  failIf ((∃ head ∈ current, head.policyIdentity ≠ policyIdentity) ∨
    ∃ head ∈ next, head.policyIdentity ≠ policyIdentity) .headPolicyMismatch
  match operation, current, next with
  | .load, none, none => return ()
  | .initializeHead, none, some initial =>
    failIf (¬ (initial.recordCount = 0 ∧ initial.recordIdentity = .zero 32)) .invalidInitialization
  | .initializeHead, _, _ => .error (.err .invalidInitialization)
  | .compareAndAdvance, some current, some next =>
    failIf (¬ (next.headerIdentity = current.headerIdentity ∧
      next.recordCount.toNat = (checkedAdd 32 current.recordCount.toNat 1).getD 0 ∧
      next.recordIdentity ≠ .zero 32)) .invalidAdvance
  | .compareAndAdvance, _, _ => .error (.err .invalidAdvance)
  | .load, _, _ => .error (.err .responseSemantics)

/-- `encode_optional_head` -/
def encodeOptionalHead : Option Head → List UInt8
  | none => (Block.zero 100).val
  | some head => head.policyIdentity.val ++ (head.headerIdentity.val ++
      ((le32 head.recordCount).val ++ head.recordIdentity.val))

open Reader in
/-- `decode_optional_head` -/
def decodeOptionalHead (bytes : Block 100) : Outcome ProtocolError (Option Head) :=
  if bytes = .zero 100 then .ok none
  else do
    let (head, _) ← (do
      let policyIdentity ← array 32 .truncated
      let headerIdentity ← array 32 .truncated
      let recordCount ← u32 .truncated
      let recordIdentity ← array 32 .truncated
      mapErr (fun _ => ProtocolError.invalidHead)
        (Head.new policyIdentity headerIdentity recordCount recordIdentity) :
      Reader ProtocolError Head).run bytes.val
    return some head

/-- `ProtectedHeadStoreRequestV1` -/
structure Request where
  operation : Operation
  requestIdentity : Identity
  context : Context
  requestSequence : UInt64
  current : Option Head
  next : Option Head
  canonicalBytes : List UInt8
  deriving DecidableEq

/-- `ProtectedHeadStoreResponseV1` -/
structure Response where
  operation : Operation
  status : Status
  responseIdentity : Identity
  requestIdentity : Identity
  context : Context
  requestSequence : UInt64
  head : Option Head
  canonicalBytes : List UInt8
  deriving DecidableEq

/-- `validate_response_semantics` -/
def validateResponseSemantics (request : Request) (status : Status) (head : Option Head) :
    Outcome ProtocolError Unit := do
  failIf (∃ value ∈ head, value.policyIdentity ≠ request.context.policyIdentity) .headPolicyMismatch
  match request.operation, status, head with
  | .initializeHead, .advanced, some value => failIf (some value ≠ request.next) .responseSemantics
  | .compareAndAdvance, .advanced, some value =>
    failIf (some value ≠ request.next) .responseSemantics
  | .load, .loaded, some _ => return ()
  | .load, .absent, none => return ()
  | _, .rejected, none => return ()
  | .initializeHead, .conflict, none => return ()
  | .compareAndAdvance, .conflict, none => return ()
  | _, _, _ => .error (.err .responseSemantics)

/-- `validate_decoded_response_shape` -/
def validateDecodedResponseShape (operation : Operation) (status : Status)
    (policyIdentity : Identity) (head : Option Head) : Outcome ProtocolError Unit := do
  failIf (∃ value ∈ head, value.policyIdentity ≠ policyIdentity) .headPolicyMismatch
  match operation, status, head with
  | .load, .loaded, some _ => return ()
  | .load, .absent, none => return ()
  | _, .rejected, none => return ()
  | .initializeHead, .advanced, some _ => return ()
  | .compareAndAdvance, .advanced, some _ => return ()
  | .initializeHead, .conflict, none => return ()
  | .compareAndAdvance, .conflict, none => return ()
  | _, _, _ => .error (.err .responseSemantics)

section Digest

variable (sha256 : List UInt8 → Identity)

/-- `request_identity` -/
def requestIdentityOf (operation : Operation) (c : Context) (requestSequence : UInt64)
    (current next : List UInt8) : Identity :=
  hashParts sha256 ([requestIdentityDomain, (le16 protocolVersion).val, (le16 operation.code).val,
    (le32 428).val] ++ c.fields ++ [(le64 requestSequence).val, current, next])

/-- `encode_request` -/
def encodeRequest (operation : Operation) (requestIdentity : Identity) (c : Context)
    (requestSequence : UInt64) (current next : List UInt8) : List UInt8 :=
  ([magicRequest, (le16 protocolVersion).val, (le16 operation.code).val, (le16 0).val, (le16 0).val,
    (le32 428).val, requestIdentity.val] ++ c.fields ++
    [(le64 requestSequence).val, (Block.zero 6).val, current, next]).flatten

/-- `response_identity_fields` -/
def responseIdentityFields (operation : Operation) (status : Status) (requestIdentity : Identity)
    (c : Context) (requestSequence : UInt64) (head : List UInt8) : Identity :=
  hashParts sha256 ([responseIdentityDomain, (le16 protocolVersion).val, (le16 operation.code).val,
    (le16 status.code).val, (le32 360).val, requestIdentity.val] ++ c.fields ++
    [(le64 requestSequence).val, head])

/-- `encode_response_fields` -/
def encodeResponseFields (operation : Operation) (status : Status)
    (responseIdentity requestIdentity : Identity) (c : Context) (requestSequence : UInt64)
    (head : List UInt8) : List UInt8 :=
  ([magicResponse, (le16 protocolVersion).val, (le16 operation.code).val, (le16 status.code).val,
    (le16 0).val, (le32 360).val, responseIdentity.val, requestIdentity.val] ++ c.fields ++
    [(le64 requestSequence).val, (Block.zero 6).val, head]).flatten

namespace Request

/-- `new` -/
def new (operation : Operation) (c : Context) (requestSequence : UInt64)
    (current next : Option Head) : Outcome ProtocolError Request := do
  c.validate
  failIf (requestSequence = 0) .zeroRequestSequence
  validateTransition operation c.policyIdentity current next
  let currentBytes := encodeOptionalHead current
  let nextBytes := encodeOptionalHead next
  let requestIdentity :=
    requestIdentityOf sha256 operation c requestSequence currentBytes nextBytes
  let canonicalBytes :=
    encodeRequest operation requestIdentity c requestSequence currentBytes nextBytes
  return ⟨operation, requestIdentity, c, requestSequence, current, next, canonicalBytes⟩

/-- `load` -/
def load (c : Context) (requestSequence : UInt64) : Outcome ProtocolError Request :=
  new sha256 .load c requestSequence none none

/-- `initialize` -/
def initializeHead (c : Context) (requestSequence : UInt64) (initial : Head) :
    Outcome ProtocolError Request :=
  new sha256 .initializeHead c requestSequence none (some initial)

/-- `compare_and_advance` -/
def compareAndAdvance (c : Context) (requestSequence : UInt64) (current next : Head) :
    Outcome ProtocolError Request :=
  new sha256 .compareAndAdvance c requestSequence (some current) (some next)

end Request

open Reader in
/-- The five identities, the kind and the sequence of a packet. -/
def readContext : Reader ProtocolError Context := do
  let protocolIdentity ← array 32 .truncated
  let providerIdentity ← array 32 .truncated
  let namespaceIdentity ← array 32 .truncated
  let policyIdentity ← array 32 .truncated
  let admissionSessionIdentity ← array 32 .truncated
  let tag ← u16 .truncated
  let kind ← orErr ProtocolError.ledgerKind (LedgerKind.fromTag tag)
  return ⟨protocolIdentity, providerIdentity, namespaceIdentity, policyIdentity,
    admissionSessionIdentity, kind⟩

open Reader in
/-- The fields of a request packet: operation, identity, context, sequence and the two heads. -/
def readRequest : Reader ProtocolError
    (Operation × Identity × Context × UInt64 × Block 100 × Block 100) := do
  let magic ← array 8 .truncated
  let declaredVersion ← u16 .truncated
  failIf (magic.val ≠ magicRequest ∨ declaredVersion ≠ protocolVersion) ProtocolError.requestHeader
  let operation ← Operation.decode (← u16 .truncated)
  let flags ← u16 .truncated
  let reserved ← u16 .truncated
  let declaredBytes ← u32 .truncated
  failIf (flags ≠ 0 ∨ reserved ≠ 0 ∨ declaredBytes ≠ 428) ProtocolError.requestHeader
  let encodedIdentity ← array 32 .truncated
  let c ← readContext
  let requestSequence ← u64 .truncated
  let padding ← array 6 .truncated
  failIf (padding ≠ .zero 6) ProtocolError.reservedBytes
  let currentBytes ← array 100 .truncated
  let nextBytes ← array 100 .truncated
  failIf (!(← isFinished)) ProtocolError.trailingBytes
  return (operation, encodedIdentity, c, requestSequence, currentBytes, nextBytes)

/-- `ProtectedHeadStoreRequestV1::decode_canonical` -/
def Request.decodeCanonical (bytes : List UInt8) : Outcome ProtocolError Request := do
  failIf (bytes.length ≠ requestBytes) (.requestLength requestBytes bytes.length)
  let ((operation, encodedIdentity, c, requestSequence, currentBytes, nextBytes), _) ←
    readRequest.run bytes
  let current ← decodeOptionalHead currentBytes
  let next ← decodeOptionalHead nextBytes
  let request ← Request.new sha256 operation c requestSequence current next
  failIf (request.requestIdentity ≠ encodedIdentity) .requestIdentity
  failIf (request.canonicalBytes ≠ bytes) .noncanonicalRequest
  return request

open Reader in
/-- The fields of a response packet: operation, status, the two identities, context, sequence and
head. -/
def readResponse : Reader ProtocolError
    (Operation × Status × Identity × Identity × Context × UInt64 × Block 100) := do
  let magic ← array 8 .truncated
  let declaredVersion ← u16 .truncated
  failIf (magic.val ≠ magicResponse ∨ declaredVersion ≠ protocolVersion)
    ProtocolError.responseHeader
  let operation ← Operation.decode (← u16 .truncated)
  let status ← Status.decode (← u16 .truncated)
  let reserved ← u16 .truncated
  let declaredBytes ← u32 .truncated
  failIf (reserved ≠ 0 ∨ declaredBytes ≠ 360) ProtocolError.responseHeader
  let encodedIdentity ← array 32 .truncated
  let requestIdentity ← array 32 .truncated
  let c ← readContext
  let requestSequence ← u64 .truncated
  failIf (requestSequence = 0) ProtocolError.zeroRequestSequence
  let padding ← array 6 .truncated
  failIf (padding ≠ .zero 6) ProtocolError.reservedBytes
  let headBytes ← array 100 .truncated
  failIf (!(← isFinished)) ProtocolError.trailingBytes
  return (operation, status, encodedIdentity, requestIdentity, c, requestSequence, headBytes)

namespace Response

/-- `new` -/
def new (request : Request) (status : Status) (head : Option Head) :
    Outcome ProtocolError Response := do
  validateResponseSemantics request status head
  let headBytes := encodeOptionalHead head
  let responseIdentity := responseIdentityFields sha256 request.operation status
    request.requestIdentity request.context request.requestSequence headBytes
  let canonicalBytes := encodeResponseFields request.operation status responseIdentity
    request.requestIdentity request.context request.requestSequence headBytes
  return ⟨request.operation, status, responseIdentity, request.requestIdentity, request.context,
    request.requestSequence, head, canonicalBytes⟩

/-- `decode_canonical` -/
def decodeCanonical (bytes : List UInt8) : Outcome ProtocolError Response := do
  failIf (bytes.length ≠ responseBytes) (.responseLength responseBytes bytes.length)
  let ((operation, status, encodedIdentity, requestIdentity, c, requestSequence, headBytes), _) ←
    readResponse.run bytes
  let head ← decodeOptionalHead headBytes
  c.validate
  validateDecodedResponseShape operation status c.policyIdentity head
  let expectedIdentity := responseIdentityFields sha256 operation status requestIdentity c
    requestSequence headBytes.val
  failIf (expectedIdentity ≠ encodedIdentity) .responseIdentity
  let canonicalBytes := encodeResponseFields operation status expectedIdentity requestIdentity c
    requestSequence headBytes.val
  failIf (canonicalBytes ≠ bytes) .noncanonicalResponse
  return ⟨operation, status, expectedIdentity, requestIdentity, c, requestSequence, head,
    canonicalBytes⟩

/-- `matches_request` -/
def matchesRequest (response : Response) (request : Request) : Bool :=
  decide (response.operation = request.operation) &&
  decide (response.requestIdentity = request.requestIdentity) &&
  decide (response.context = request.context) &&
  decide (response.requestSequence = request.requestSequence) &&
  (validateResponseSemantics request response.status response.head).toBool

end Response

end Digest

end HeadStore

end Ferric
