import Ferric.HeadStore.Client

/-!
# The calls of the head-store client

What one call of the client does, whatever the system and the peer do during it.

## Main results

* `exchange_runs` — one exchange
* `Op.call_runs` — one call: `Answered` or `Refused`
-/

namespace Ferric

namespace HeadStore

open Ledger Ferric.Action

/-- A head that may be observed after another. -/
structure Follows (prior head : Head) : Prop where
  headerIdentity : head.headerIdentity = prior.headerIdentity
  recordCount : prior.recordCount ≤ head.recordCount
  recordIdentity : head.recordCount = prior.recordCount → head.recordIdentity = prior.recordIdentity

theorem Follows.trans {a b c : Head} (hab : Follows a b) (hbc : Follows b c) : Follows a c := by
  refine ⟨hbc.headerIdentity.trans hab.headerIdentity,
    UInt32.le_trans hab.recordCount hbc.recordCount, fun heq => ?_⟩
  have hle : b.recordCount ≤ a.recordCount := heq ▸ hbc.recordCount
  have hba : b.recordCount = a.recordCount := UInt32.le_antisymm hle hab.recordCount
  have hcb : c.recordCount = b.recordCount := heq.trans hba.symm
  rw [hbc.recordIdentity hcb, hab.recordIdentity hba]

/-! ### The parts of a call -/

/-- The client with the sequence number after its next one. -/
def Client.advance (client : Client) : Client :=
  { client with
    nextRequestSequence := .ofNat ((checkedAdd 64 client.nextRequestSequence.toNat 1).getD 0) }

/-- The client without its endpoint. -/
def Client.poison (client : Client) : Client := { client with peer := false }

variable {s : Session}

theorem takeRequestSequence_runs : Runs s takeRequestSequence
    (fun sequence s' => sequence = s.client.nextRequestSequence ∧ sequence ≠ 0 ∧
      s' = { s with client := s.client.advance })
    (fun f s' => f.error = .requestSequenceExhausted ∧ s' = s) := by
  rw [takeRequestSequence]
  refine runs_get (runs_failIf (fun _ => ⟨rfl, rfl⟩) fun hne => ?_)
  exact runs_modify (runs_pure ⟨rfl, hne, rfl⟩)

theorem makeRequest_runs {new : Context → UInt64 → Outcome ProtocolError Request}
    (hnew : ∀ sequence, Total (new s.client.context sequence)) :
    Runs s (makeRequest new)
      (fun request s' => s.client.nextRequestSequence ≠ 0 ∧
        new s.client.context s.client.nextRequestSequence = .ok request ∧
        s' = { s with client := s.client.advance })
      (fun f s' => f.error ≠ .providerRejected ∧
        (s' = s ∨ s.client.nextRequestSequence ≠ 0 ∧
          s' = { s with client := s.client.advance })) := by
  rw [makeRequest]
  refine (takeRequestSequence_runs.mono (fun _ _ _ h => h) fun f s' _ h => ?_).bind
    fun sequence s' _ h => runs_query_last ?_
  · rw [h.1]
    exact ⟨by simp, .inl h.2⟩
  · obtain ⟨rfl, hne, rfl⟩ := h
    refine ensures_mapErr ((hnew s.client.nextRequestSequence).mono (fun e _ => ?_)
      fun request hx _ => ?_)
    · exact ⟨by simp [Client.preSendFailure], .inr ⟨hne, rfl⟩⟩
    · exact ⟨hne, hx, rfl⟩

variable {sha256 : List UInt8 → Identity}

/-- A request that was sent whole, and the response to it that the exchange accepted. -/
structure Correlated (sha256 : List UInt8 → Identity) (transport : Transport) (request : Request)
    (response : Response) : Prop where
  sent : transport.sent = .whole
  accepted : receiveCorrelatedResponse sha256 transport request = .ok response

/-- The provider rejected a request. -/
def Rejected (sha256 : List UInt8 → Identity) (transport : Transport) (request : Request) : Prop :=
  ∃ response, Correlated sha256 transport request response ∧ response.status = .rejected

variable {transport : Transport} {request : Request} {response : Response}

/-- There is one response to a request. -/
theorem Correlated.not_rejected (h : Correlated sha256 transport request response)
    (hstatus : response.status ≠ .rejected) : ¬ Rejected sha256 transport request := by
  rintro ⟨other, hother, hrejected⟩
  have heq := h.accepted.symm.trans hother.accepted
  obtain rfl := Except.ok.inj heq
  exact hstatus hrejected

theorem not_rejected_of_sent (h : transport.sent ≠ .whole) :
    ¬ Rejected sha256 transport request := by
  rintro ⟨_, hcorrelated, -⟩
  exact h hcorrelated.sent

theorem not_rejected_of_error {e : ClientError}
    (h : receiveCorrelatedResponse sha256 transport request = .error (.err e)) :
    ¬ Rejected sha256 transport request := by
  rintro ⟨_, hcorrelated, -⟩
  have heq := h.symm.trans hcorrelated.accepted
  cases heq

theorem receivePacket_ensures :
    Ensures (receivePacket transport) (· ≠ .providerRejected)
      fun bytes => transport.received = .packet bytes := by
  rw [receivePacket]
  cases transport.readable with
  | some failure => cases failure <;> simp [WaitFailure.error]
  | none =>
    cases transport.received with
    | packet bytes =>
      refine ensures_failIf_bind (by simp) fun _ => ensures_failIf_bind (by simp) fun _ => ?_
      exact ensures_pure.mpr rfl
    | _ => simp

/-- What was accepted was received, and is a response to the request. -/
theorem receiveCorrelatedResponse_ensures :
    Ensures (receiveCorrelatedResponse sha256 transport request) (· ≠ .providerRejected)
      fun response => (∃ bytes, transport.received = .packet bytes ∧
        Response.decodeCanonical sha256 bytes = .ok response) ∧
        response.matchesRequest request = true := by
  rw [receiveCorrelatedResponse]
  refine ensures_failIf_bind (by simp) fun _ => ?_
  refine receivePacket_ensures.bind fun bytes _ hreceived => ?_
  refine ensures_failIf_bind (by simp) fun _ => ensures_failIf_bind (by simp) fun _ => ?_
  have hresponse : Ensures (mapErr .protocol (Response.decodeCanonical sha256 bytes))
      (· ≠ ClientError.providerRejected)
      fun response => Response.decodeCanonical sha256 bytes = .ok response :=
    ensures_mapErr ((Response.total_decodeCanonical sha256 bytes).mono (fun _ _ => by simp)
      fun _ hx _ => hx)
  refine hresponse.bind fun response _ hdecoded => ?_
  refine ensures_failIf_bind (by simp) fun hmatches => ensures_pure.mpr ?_
  exact ⟨⟨bytes, hreceived, hdecoded⟩, by simpa using hmatches⟩

theorem Correlated.received (h : Correlated sha256 transport request response) :
    ∃ bytes, transport.received = .packet bytes ∧
      Response.decodeCanonical sha256 bytes = .ok response :=
  (receiveCorrelatedResponse_ensures.of_ok h.accepted).1

theorem Correlated.matches_ (h : Correlated sha256 transport request response) :
    response.matchesRequest request = true :=
  (receiveCorrelatedResponse_ensures.of_ok h.accepted).2

theorem runs_poisonedFailure {α β : Type} {e : ClientError} {f : α → Call β}
    {P : β → Session → Prop} {E : Failure → Session → Prop}
    (h : E ⟨e, .poisoned⟩ { s with client := s.client.poison }) :
    Runs s (poisonedFailure e >>= f) P E := by
  rw [poisonedFailure, bind_assoc]
  exact runs_modify h

theorem runs_poisonedFailure_last {α : Type} {e : ClientError} {P : α → Session → Prop}
    {E : Failure → Session → Prop} (h : E ⟨e, .poisoned⟩ { s with client := s.client.poison }) :
    Runs s (poisonedFailure e) P E := runs_modify h

/-- What a failed exchange did. Nothing was sent, or the request was sent, it was not rejected, and
the endpoint is gone. -/
structure Broken (sha256 : List UInt8 → Identity) (transport : Transport) (request : Request)
    (s : Session) (f : Failure) (s' : Session) : Prop where
  error : f.error ≠ .providerRejected
  client : s'.client = s.client ∨ s'.client = s.client.poison
  sent : s'.wire = s.wire ∨
    s'.wire = s.wire ++ [request] ∧ s.client.peer = true ∧ ¬ Rejected sha256 transport request ∧
      f.custody = .poisoned ∧ s'.client = s.client.poison

theorem sendPacket_runs :
    Runs s (sendPacket transport request)
      (fun r s' => match r with
        | .ok () => transport.sent = .whole ∧ s' = { s with wire := s.wire ++ [request] }
        | .error (e, true) => e ≠ .providerRejected ∧
          (s' = s ∨ transport.sent ≠ .whole ∧ s' = { s with wire := s.wire ++ [request] })
        | .error (e, false) => e ≠ .providerRejected ∧ s' = s)
      (fun _ _ => False) := by
  rw [sendPacket]
  cases transport.writable with
  | some failure => cases failure <;> exact runs_pure ⟨by simp [WaitFailure.error], by simp⟩
  | none =>
    refine runs_modify ?_
    cases hsent : transport.sent with
    | whole => exact runs_pure ⟨rfl, rfl⟩
    | error => exact runs_pure ⟨by simp, .inr ⟨by simp, rfl⟩⟩
    | part => exact runs_pure ⟨by simp, .inr ⟨by simp, rfl⟩⟩

/-- One exchange: a correlated response and everything as before, or no response. -/
theorem exchange_runs :
    Runs s (exchange sha256 transport request)
      (fun response s' => s.client.peer = true ∧
        s' = { s with wire := s.wire ++ [request] } ∧
        Correlated sha256 transport request response)
      (Broken sha256 transport request s) := by
  rw [exchange]
  refine runs_get (runs_failIf (fun _ => ⟨by simp [Client.preSendFailure], .inl rfl, .inl rfl⟩)
    fun _ => ?_)
  by_cases hpeer : s.client.peer = true
  · rw [if_neg (by simp [hpeer])]
    refine runs_modify (runs_failIf (fun _ => ⟨by simp, .inr rfl, .inl rfl⟩) fun _ => ?_)
    refine (sendPacket_runs.mono (fun _ _ _ h => h) fun _ _ _ h => h.elim).bind
      fun r s' _ hr => ?_
    match r, hr with
    | .error (e, true), ⟨he, hs'⟩ =>
      rcases hs' with rfl | ⟨hsent, rfl⟩
      · exact ⟨he, .inr rfl, .inl rfl⟩
      · exact ⟨he, .inr rfl, .inr ⟨rfl, hpeer, not_rejected_of_sent hsent, rfl, rfl⟩⟩
    | .error (e, false), ⟨he, hs'⟩ =>
      subst hs'
      refine runs_modify ⟨he, .inl ?_, .inl rfl⟩
      rw [← hpeer]
    | .ok (), ⟨hsent, hs'⟩ =>
      subst hs'
      have hresponse : Ensures (receiveCorrelatedResponse sha256 transport request)
          (fun e => e ≠ .providerRejected ∧ ¬ Rejected sha256 transport request)
          fun response => Correlated sha256 transport request response := by
        have hensures : Ensures (receiveCorrelatedResponse sha256 transport request) _ _ :=
          receiveCorrelatedResponse_ensures
        rcases hensures.cases with ⟨response, hx, -⟩ | ⟨e, hx, he⟩
        · rw [hx]
          exact ensures_ok.mpr ⟨hsent, hx⟩
        · rw [hx]
          exact ⟨he, not_rejected_of_error hx⟩
      refine runs_query (ensures_mapErr (hresponse.mono (fun e he => ?_) fun _ _ h => h))
        fun response _ hcorrelated => runs_modify (runs_pure ⟨hpeer, ?_, hcorrelated⟩)
      · exact ⟨he.1, .inr rfl, .inr ⟨rfl, hpeer, he.2, rfl, rfl⟩⟩
      · rw [← hpeer]
  · rw [if_pos (by simpa using hpeer), poisonedFailure]
    exact runs_modify ⟨by simp, .inr rfl, .inl rfl⟩

/-- The client after it observed a head. -/
def Client.observe (client : Client) (head : Head) : Client :=
  { client with observedExisting := true, lastObservedHead := some head }

theorem observeLoadedHead_runs {head : Head} : Runs s (observeLoadedHead head)
    (fun _ s' => (∀ prior ∈ s.client.lastObservedHead, Follows prior head) ∧
      s' = { s with client := s.client.observe head })
    (fun f s' => f = ⟨.rollbackEvidence, .poisoned⟩ ∧
      s' = { s with client := s.client.poison }) := by
  rw [observeLoadedHead]
  refine runs_get ?_
  cases hlast : s.client.lastObservedHead with
  | none => exact runs_modify_last ⟨fun _ h => (by cases h), rfl⟩
  | some prior =>
    simp only
    split
    · exact runs_poisonedFailure ⟨rfl, rfl⟩
    · next hkept =>
      obtain ⟨hheader, hcount, hidentity⟩ := not_or.mp hkept |>.imp_right not_or.mp
      refine runs_modify_last ⟨fun value hvalue => ?_, rfl⟩
      obtain rfl : prior = value := Option.some.inj hvalue
      exact ⟨not_not.mp hheader, UInt32.not_lt.mp hcount, fun heq =>
        not_not.mp fun hne => hidentity ⟨heq, hne⟩⟩

/-! ### What a response says about its request -/

theorem matchesRequest_iff {request : Request} {response : Response} :
    response.matchesRequest request = true ↔ response.operation = request.operation ∧
      response.requestIdentity = request.requestIdentity ∧ response.context = request.context ∧
      response.requestSequence = request.requestSequence ∧
      validateResponseSemantics request response.status response.head = .ok () := by
  have hok : ∀ x : Outcome ProtocolError Unit, x.toBool = true ↔ x = .ok () := by
    rintro (_ | ⟨⟩) <;> simp [Except.toBool]
  simp only [Response.matchesRequest, Bool.and_eq_true, decide_eq_true_eq, hok, and_assoc]

/-- A loaded or advanced response has a head, and an advanced one has that of the request. -/
theorem head_of_semantics {request : Request} {status : Status} {head : Option Head}
    (h : validateResponseSemantics request status head = .ok ()) :
    (status = .loaded → head.isSome) ∧
    (status = .advanced → head.isSome ∧ head = request.next) := by
  unfold validateResponseSemantics at h
  obtain ⟨-, -, h⟩ := bind_eq_ok.mp h
  generalize request.operation = operation at h
  cases operation <;> cases status <;> cases head <;>
    first
    | (cases h; done)
    | (constructor <;> simp; done)
    | (constructor; simp; simpa using h)

theorem head_of_absent {request : Request} {status : Status} {head : Option Head}
    (h : validateResponseSemantics request status head = .ok ()) (hstatus : status = .absent) :
    head = none := by
  unfold validateResponseSemantics at h
  obtain ⟨-, -, h⟩ := bind_eq_ok.mp h
  generalize request.operation = operation at h
  subst hstatus
  cases operation <;> cases head <;> first | rfl | cases h

/-! ### One call -/

/-- How a response to a request ends a call that returns. -/
inductive Concludes (client : Client) (response : Response) : Reply → Client → Prop
  | loaded {head : Head} (hstatus : response.status = .loaded) (hhead : response.head = some head)
      (hfollows : ∀ prior ∈ client.lastObservedHead, Follows prior head) :
      Concludes client response (.head (some head)) (client.advance.observe head)
  | absent (hstatus : response.status = .absent) (hnew : client.observedExisting = false) :
      Concludes client response (.head none) client.advance
  | advanced {head : Head} (hstatus : response.status = .advanced)
      (hhead : response.head = some head)
      (hfollows : ∀ prior ∈ client.lastObservedHead, Follows prior head) :
      Concludes client response (.done true) (client.advance.observe head)
  | conflict (hstatus : response.status = .conflict) :
      Concludes client response (.done false) { client.advance with observedExisting := true }

/-- What a call that returned did. -/
def Answered (sha256 : List UInt8 → Identity) (op : Op) (transport : Transport) (s : Session)
    (reply : Reply) (s' : Session) : Prop :=
  ∃ request response, s.client.peer = true ∧ s.client.nextRequestSequence ≠ 0 ∧
    op.request sha256 s.client.context s.client.nextRequestSequence = .ok request ∧
    s'.wire = s.wire ++ [request] ∧ Correlated sha256 transport request response ∧
    Concludes s.client response reply s'.client

/-- The request of a call was sent and the call failed. An explicit rejection keeps the endpoint,
and every other outcome gives it up. -/
def SentInVain (sha256 : List UInt8 → Identity) (op : Op) (transport : Transport) (s : Session)
    (f : Failure) (s' : Session) : Prop :=
  ∃ request, s.client.peer = true ∧ s.client.nextRequestSequence ≠ 0 ∧
    op.request sha256 s.client.context s.client.nextRequestSequence = .ok request ∧
    s'.wire = s.wire ++ [request] ∧
    (Rejected sha256 transport request ∧
        f = ⟨.providerRejected, .retained⟩ ∧ s'.client = s.client.advance ∨
      ¬ Rejected sha256 transport request ∧
        f.error ≠ .providerRejected ∧ f.custody = .poisoned ∧ s'.client = s.client.advance.poison)

/-- What a call that failed did. -/
def Refused (sha256 : List UInt8 → Identity) (op : Op) (transport : Transport) (s : Session)
    (f : Failure) (s' : Session) : Prop :=
  SentInVain sha256 op transport s f s' ∨ s'.wire = s.wire ∧ f.error ≠ .providerRejected ∧
    (s'.client = s.client ∨ s.client.nextRequestSequence ≠ 0 ∧
      (s'.client = s.client.advance ∨ s'.client = s.client.advance.poison))

theorem Op.total_request (op : Op) (c : Context) (sequence : UInt64) :
    Total (op.request sha256 c sequence) := by
  cases op <;> exact Request.total_new ..

/-- The request and the exchange, which all calls share. -/
theorem request_runs (op : Op) {α : Type} {f : Response → Call α}
    {P : α → Session → Prop}
    (hf : ∀ request response s', s.client.peer = true → s.client.nextRequestSequence ≠ 0 →
      op.request sha256 s.client.context s.client.nextRequestSequence = .ok request →
      s' = ⟨s.client.advance, s.wire ++ [request]⟩ → Correlated sha256 transport request response →
      Runs s' (f response) P (Refused sha256 op transport s)) :
    Runs s (makeRequest (op.request sha256) >>= fun request =>
      exchange sha256 transport request >>= f) P (Refused sha256 op transport s) := by
  refine ((makeRequest_runs (op.total_request s.client.context)).mono (fun _ _ _ h => h)
    fun e s' _ he => ?_).bind fun request s' _ h => ?_
  · rcases he with ⟨he, rfl | ⟨hne, rfl⟩⟩
    · exact .inr ⟨rfl, he, .inl rfl⟩
    · exact .inr ⟨rfl, he, .inr ⟨hne, .inl rfl⟩⟩
  · obtain ⟨hne, hrequest, rfl⟩ := h
    refine (exchange_runs.mono (fun _ _ _ h => h) fun e s' _ he => ?_).bind
      fun response s' _ h => ?_
    · rcases he.sent with hwire | ⟨hwire, hpeer, hrejected, hcustody, hclient⟩
      · exact .inr ⟨hwire, he.error, .inr ⟨hne, he.client⟩⟩
      · exact .inl ⟨request, hpeer, hne, hrequest, hwire,
          .inr ⟨hrejected, he.error, hcustody, hclient⟩⟩
    · obtain ⟨hpeer, rfl, hcorrelated⟩ := h
      exact hf request response _ hpeer hne hrequest rfl hcorrelated

/-- Observing the head of a response, at the end of a call. -/
theorem observe_runs {op : Op} {head : Head} {α : Type} {a : α} {P : α → Session → Prop}
    (hpeer : s.client.peer = true) (hne : s.client.nextRequestSequence ≠ 0)
    (hrequest : op.request sha256 s.client.context s.client.nextRequestSequence = .ok request)
    (hrejected : ¬ Rejected sha256 transport request)
    (hP : (∀ prior ∈ s.client.lastObservedHead, Follows prior head) →
      P a ⟨s.client.advance.observe head, s.wire ++ [request]⟩) :
    Runs ⟨s.client.advance, s.wire ++ [request]⟩ (observeLoadedHead head >>= fun _ => pure a) P
      (Refused sha256 op transport s) := by
  refine (observeLoadedHead_runs.mono (fun _ _ _ h => h) fun f s' _ h => ?_).bind
    fun _ s' _ h => ?_
  · obtain ⟨rfl, rfl⟩ := h
    exact .inl ⟨request, hpeer, hne, hrequest, rfl, .inr ⟨hrejected, by simp, rfl, rfl⟩⟩
  · obtain ⟨hfollows, rfl⟩ := h
    exact runs_pure (hP hfollows)

/-- A response that the call does not expect. -/
theorem poisoned_refused {op : Op} {e : ClientError} (he : e ≠ .providerRejected)
    (hpeer : s.client.peer = true) (hne : s.client.nextRequestSequence ≠ 0)
    (hrequest : op.request sha256 s.client.context s.client.nextRequestSequence = .ok request)
    (hrejected : ¬ Rejected sha256 transport request) :
    Refused sha256 op transport s ⟨e, .poisoned⟩ ⟨s.client.advance.poison, s.wire ++ [request]⟩ :=
  .inl ⟨request, hpeer, hne, hrequest, rfl, .inr ⟨hrejected, he, rfl, rfl⟩⟩

theorem loadHead_runs : Runs s (loadHead sha256 transport)
    (fun head s' => Answered sha256 .load transport s (.head head) s')
    (Refused sha256 .load transport s) := by
  rw [loadHead]
  refine request_runs .load fun request response s' hpeer hne hrequest hs' hcorrelated => ?_
  subst hs'
  obtain ⟨-, -, -, -, hsemantics⟩ := matchesRequest_iff.mp hcorrelated.matches_
  have hloaded := (head_of_semantics hsemantics).1
  have hrejected := hcorrelated.not_rejected
  cases hstatus : response.status with
  | loaded =>
    obtain ⟨head, hhead⟩ := Option.isSome_iff_exists.mp (hloaded hstatus)
    refine runs_query (ensures_orPanic hhead rfl) fun a _ ha => ?_
    subst ha
    refine observe_runs hpeer hne hrequest (hrejected (by simp [hstatus])) fun hfollows => ?_
    exact ⟨request, response, hpeer, hne, hrequest, rfl, hcorrelated,
      .loaded hstatus hhead hfollows⟩
  | absent =>
    refine runs_get ?_
    simp only
    split
    · next hnew =>
      refine runs_pure ⟨request, response, hpeer, hne, hrequest, rfl, hcorrelated,
        .absent hstatus ?_⟩
      simpa [Client.advance] using hnew
    · exact runs_poisonedFailure_last
        (poisoned_refused (by simp) hpeer hne hrequest (hrejected (by simp [hstatus])))
  | rejected =>
    exact runs_fail (.inl ⟨request, hpeer, hne, hrequest, rfl,
      .inl ⟨⟨response, hcorrelated, hstatus⟩, rfl, rfl⟩⟩)
  | advanced =>
    exact runs_poisonedFailure_last
      (poisoned_refused (by simp) hpeer hne hrequest (hrejected (by simp [hstatus])))
  | conflict =>
    exact runs_poisonedFailure_last
      (poisoned_refused (by simp) hpeer hne hrequest (hrejected (by simp [hstatus])))

/-- The two calls that change the head. -/
theorem mutation_runs (op : Op) :
    Runs s (makeRequest (op.request sha256) >>= exchangeMutation sha256 transport)
      (fun advanced s' => Answered sha256 op transport s (.done advanced) s')
      (Refused sha256 op transport s) := by
  refine request_runs op fun request response s' hpeer hne hrequest hs' hcorrelated => ?_
  subst hs'
  obtain ⟨-, -, -, -, hsemantics⟩ := matchesRequest_iff.mp hcorrelated.matches_
  have hadvanced := (head_of_semantics hsemantics).2
  have hrejected := hcorrelated.not_rejected
  cases hstatus : response.status with
  | advanced =>
    obtain ⟨head, hhead⟩ := Option.isSome_iff_exists.mp (hadvanced hstatus).1
    refine runs_query (ensures_orPanic hhead rfl) fun a _ ha => ?_
    subst ha
    refine observe_runs hpeer hne hrequest (hrejected (by simp [hstatus])) fun hfollows => ?_
    exact ⟨request, response, hpeer, hne, hrequest, rfl, hcorrelated,
      .advanced hstatus hhead hfollows⟩
  | conflict =>
    exact runs_modify (runs_pure ⟨request, response, hpeer, hne, hrequest, rfl, hcorrelated,
      .conflict hstatus⟩)
  | rejected =>
    exact runs_fail (.inl ⟨request, hpeer, hne, hrequest, rfl,
      .inl ⟨⟨response, hcorrelated, hstatus⟩, rfl, rfl⟩⟩)
  | loaded =>
    exact runs_poisonedFailure_last
      (poisoned_refused (by simp) hpeer hne hrequest (hrejected (by simp [hstatus])))
  | absent =>
    exact runs_poisonedFailure_last
      (poisoned_refused (by simp) hpeer hne hrequest (hrejected (by simp [hstatus])))

/-- **One call.** It is answered by a response to its own request, or it fails. -/
theorem Op.call_runs (op : Op) (transport : Transport) :
    Runs s (op.call sha256 transport) (Answered sha256 op transport s)
      (Refused sha256 op transport s) := by
  cases op with
  | load => exact loadHead_runs.bind fun _ _ _ h => runs_pure h
  | initializeHead initial =>
    exact (mutation_runs (.initializeHead initial)).bind fun _ _ _ h => runs_pure h
  | compareAndAdvance current next =>
    exact (mutation_runs (.compareAndAdvance current next)).bind fun _ _ _ h => runs_pure h

end HeadStore

end Ferric
