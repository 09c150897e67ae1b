import Ferric.HeadStore.Codec
import Ferric.Lib.System

/-!
# The head-store client

The client of `head_store_ipc.rs`: it owns one endpoint, numbers its requests, and gives the
endpoint up when the outcome of an exchange is not known.

What the system and the peer do during one exchange is a `Transport`: any checks may fail, and the
packet that is received is any list of bytes. The requests that were handed to `send` are kept next
to the client as the wire.
-/

namespace Ferric

namespace HeadStore

open Ledger Ferric.Action

/-- `ProtectedHeadStoreClientErrorV1`, without the errors of the system that some of them carry. -/
inductive ClientError where
  | poisoned
  | protocol (error : ProtocolError)
  | endpointRevalidation
  | deadlineExpired
  | poll
  | send
  | partialSend
  | receive
  | peerClosed
  | packetTruncated
  | ancillaryData
  | responseLength (expected actual : ℕ)
  | responseRequestMismatch
  | providerRejected
  | invalidPeer
  | peerFailed
  | deadlineOverflow
  | requestSequenceExhausted
  | rollbackEvidence
  deriving DecidableEq

/-- `ProtectedHeadStoreClientCustodyV1` -/
inductive Custody where
  | retained
  | poisoned
  deriving DecidableEq

/-- `ProtectedHeadStoreClientFailureV1` -/
structure Failure where
  error : ClientError
  custody : Custody
  deriving DecidableEq

/-- `PreopenedProtectedHeadStoreClientV1`. Whether the endpoint is there, and what the protocol
needs. -/
structure Client where
  peer : Bool
  context : Context
  nextRequestSequence : UInt64
  observedExisting : Bool
  lastObservedHead : Option Head
  deriving DecidableEq

/-- How waiting for the endpoint can fail in `wait_for_peer`. -/
inductive WaitFailure where
  | deadlineExpired
  | poll
  | invalidPeer
  | peerFailed
  | peerClosed
  deriving DecidableEq

def WaitFailure.error : WaitFailure → ClientError
  | .deadlineExpired => .deadlineExpired
  | .poll => .poll
  | .invalidPeer => .invalidPeer
  | .peerFailed => .peerFailed
  | .peerClosed => .peerClosed

/-- What `send` returns: the length of the packet, an error or another length. -/
inductive Sent where
  | whole
  | error
  | part
  deriving DecidableEq

/-- What `recvmsg` returns: an error, ancillary data, a cut packet or a packet. -/
inductive Received where
  | error
  | ancillary
  | truncated
  | packet (bytes : List UInt8)
  deriving DecidableEq

/-- What the system and the peer do during one exchange. -/
structure Transport where
  /-- A deadline can be made. -/
  deadline : Bool
  /-- The endpoint is the admitted one before the send. -/
  endpointBeforeSend : Bool
  writable : Option WaitFailure
  sent : Sent
  endpointBeforeReceive : Bool
  readable : Option WaitFailure
  received : Received
  endpointAfterReceive : Bool
  /-- Time is left after the receive. -/
  remaining : Bool

/-- The client and the requests that were handed to `send`, in order. -/
structure Session where
  client : Client
  wire : List Request

/-- Calls of the client. -/
abbrev Call (α : Type) := Action Session Failure α

/-- `pre_send_failure` -/
def Client.preSendFailure (client : Client) (error : ClientError) : Failure :=
  ⟨error, if client.peer then .retained else .poisoned⟩

/-- `Err(retained_failure(error))` -/
def retainedFailure {α : Type} (error : ClientError) : Call α := fail ⟨error, .retained⟩

/-- `Err(self.poisoned_failure(error))` -/
def poisonedFailure {α : Type} (error : ClientError) : Call α := do
  modify fun s => { s with client := { s.client with peer := false } }
  fail ⟨error, .poisoned⟩

/-- `take_request_sequence` -/
def takeRequestSequence : Call UInt64 := do
  let client := (← get).client
  let sequence := client.nextRequestSequence
  Action.failIf (sequence = 0) (client.preSendFailure .requestSequenceExhausted)
  modify fun s => { s with client := { s.client with
    nextRequestSequence := .ofNat ((checkedAdd 64 sequence.toNat 1).getD 0) } }
  return sequence

/-- `observe_loaded_head` -/
def observeLoadedHead (head : Head) : Call Unit := do
  match (← get).client.lastObservedHead with
  | some prior =>
    if head.headerIdentity ≠ prior.headerIdentity ∨ head.recordCount < prior.recordCount ∨
        (head.recordCount = prior.recordCount ∧ head.recordIdentity ≠ prior.recordIdentity) then
      poisonedFailure .rollbackEvidence
  | none => pure ()
  modify fun s => { s with client := { s.client with
    observedExisting := true
    lastObservedHead := some head } }

/-- `send_packet`: the error, and whether it poisons. The wire has the request once `send` was
called. -/
def sendPacket (transport : Transport) (request : Request) :
    Call (Except (ClientError × Bool) Unit) := do
  match transport.writable with
  | some failure => return .error (failure.error, decide (failure ≠ .deadlineExpired))
  | none =>
    modify fun s => { s with wire := s.wire ++ [request] }
    match transport.sent with
    | .error => return .error (.send, true)
    | .part => return .error (.partialSend, true)
    | .whole => return .ok ()

/-- `receive_packet` -/
def receivePacket (transport : Transport) : Outcome ClientError (List UInt8) :=
  match transport.readable with
  | some failure => .error (.err failure.error)
  | none =>
    match transport.received with
    | .error => .error (.err .receive)
    | .ancillary => .error (.err .ancillaryData)
    | .truncated => .error (.err .packetTruncated)
    | .packet bytes => do
      failIf (bytes.length = 0) .peerClosed
      failIf (bytes.length ≠ responseBytes) (.responseLength responseBytes bytes.length)
      return bytes

section Digest

variable (sha256 : List UInt8 → Identity)

/-- `receive_correlated_response` -/
def receiveCorrelatedResponse (transport : Transport) (request : Request) :
    Outcome ClientError Response := do
  failIf (!transport.endpointBeforeReceive) .endpointRevalidation
  let bytes ← receivePacket transport
  failIf (!transport.endpointAfterReceive) .endpointRevalidation
  failIf (!transport.remaining) .deadlineExpired
  let response ← mapErr .protocol (Response.decodeCanonical sha256 bytes)
  failIf (!response.matchesRequest request) .responseRequestMismatch
  return response

/-- `exchange` -/
def exchange (transport : Transport) (request : Request) : Call Response := do
  let client := (← get).client
  Action.failIf (!transport.deadline) (client.preSendFailure .deadlineOverflow)
  if !client.peer then
    poisonedFailure .poisoned
  else
    modify fun s => { s with client := { s.client with peer := false } }
    Action.failIf (!transport.endpointBeforeSend) ⟨.endpointRevalidation, .poisoned⟩
    match ← sendPacket transport request with
    | .error (error, true) => fail ⟨error, .poisoned⟩
    | .error (error, false) => do
      modify fun s => { s with client := { s.client with peer := true } }
      fail ⟨error, .retained⟩
    | .ok () => do
      let response ← query fun _ =>
        mapErr (⟨·, .poisoned⟩) (receiveCorrelatedResponse sha256 transport request)
      modify fun s => { s with client := { s.client with peer := true } }
      return response

/-- The request of a call, or the failure before anything is sent. -/
def makeRequest (new : Context → UInt64 → Outcome ProtocolError Request) : Call Request := do
  let sequence ← takeRequestSequence
  query fun s => mapErr (fun e => s.client.preSendFailure (.protocol e))
    (new s.client.context sequence)

/-- `load_head_inner` -/
def loadHead (transport : Transport) : Call (Option Head) := do
  let request ← makeRequest (Request.load sha256)
  let response ← exchange sha256 transport request
  match response.status with
  | .loaded => do
    let head ← query fun _ => orPanic response.head
    observeLoadedHead head
    return some head
  | .absent => do
    if !(← get).client.observedExisting then return none
    poisonedFailure .rollbackEvidence
  | .rejected => retainedFailure .providerRejected
  | _ => poisonedFailure .responseRequestMismatch

/-- `exchange_mutation` -/
def exchangeMutation (transport : Transport) (request : Request) : Call Bool := do
  let response ← exchange sha256 transport request
  match response.status with
  | .advanced => do
    let head ← query fun _ => orPanic response.head
    observeLoadedHead head
    return true
  | .conflict => do
    modify fun s => { s with client := { s.client with observedExisting := true } }
    return false
  | .rejected => retainedFailure .providerRejected
  | _ => poisonedFailure .responseRequestMismatch

/-- `initialize_head_inner` -/
def initializeHead (transport : Transport) (initial : Head) : Call Bool := do
  let request ← makeRequest fun c sequence => Request.initializeHead sha256 c sequence initial
  exchangeMutation sha256 transport request

/-- `compare_and_advance_head_inner` -/
def compareAndAdvanceHead (transport : Transport) (current next : Head) : Call Bool := do
  let request ← makeRequest fun c sequence =>
    Request.compareAndAdvance sha256 c sequence current next
  exchangeMutation sha256 transport request

/-- A call with its arguments. Heads are those that their constructor admits. -/
inductive Op where
  | load
  | initializeHead (initial : { head : Head // head.Valid })
  | compareAndAdvance (current next : { head : Head // head.Valid })

/-- What a call returns. -/
inductive Reply where
  | head (head : Option Head)
  | done (advanced : Bool)
  deriving DecidableEq

/-- The request of a call. -/
def Op.request : Op → Context → UInt64 → Outcome ProtocolError Request
  | .load => Request.load sha256
  | .initializeHead initial => fun c sequence => Request.initializeHead sha256 c sequence initial
  | .compareAndAdvance current next => fun c sequence =>
    Request.compareAndAdvance sha256 c sequence current next

/-- The call that is made. -/
def Op.call (transport : Transport) : Op → Call Reply
  | .load => return .head (← loadHead sha256 transport)
  | .initializeHead initial => return .done (← HeadStore.initializeHead sha256 transport initial)
  | .compareAndAdvance current next =>
    return .done (← compareAndAdvanceHead sha256 transport current next)

/-- The client after its admission. -/
def Client.admitted (c : Context) : Client := ⟨true, c, 1, false, none⟩

end Digest

end HeadStore

end Ferric
