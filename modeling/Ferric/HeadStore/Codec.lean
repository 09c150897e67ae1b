import Ferric.HeadStore.Model

/-!
# The packet codecs are exact inverses

A decoder reads the fields that its encoder wrote, so decoding the bytes of a packet gives it back.
The other direction is the last check of each decoder.

## Main results

* `decodeOptionalHead_encode` — heads, with the absent one
* `run_readRequest`, `run_readResponse` — the fields of an encoded packet
* `codecs_inverse` — requests and responses
-/

namespace Ferric

namespace HeadStore

open Ledger Reader

/-! ### Heads -/

@[simp] theorem length_encodeOptionalHead (head : Option Head) :
    (encodeOptionalHead head).length = 100 := by
  cases head with
  | none => exact (Block.zero 100).property
  | some head =>
    rw [encodeOptionalHead, List.length_append, List.length_append, List.length_append,
      head.policyIdentity.property, head.headerIdentity.property, (le32 _).property,
      head.recordIdentity.property]

/-- The bytes of an optional head. -/
def headBlock (head : Option Head) : Block 100 :=
  ⟨encodeOptionalHead head, length_encodeOptionalHead head⟩

/-- A head with a policy is not encoded as the absent head. -/
theorem headBlock_some_ne_zero {head : Head} (h : head.Valid) :
    headBlock (some head) ≠ .zero 100 := by
  intro heq
  have hbytes : head.policyIdentity.val ++ (head.headerIdentity.val ++
      ((le32 head.recordCount).val ++ head.recordIdentity.val)) =
      (Block.zero 32).val ++ List.replicate 68 0 := by
    rw [show (Block.zero 32).val ++ List.replicate 68 0 = (Block.zero 100).val by rfl, ← heq]
    rfl
  exact h.policyIdentity (Block.eq_of_append_eq hbytes).1

theorem decodeOptionalHead_encode {head : Option Head} (h : ∀ value ∈ head, value.Valid) :
    decodeOptionalHead (headBlock head) = .ok head := by
  cases head with
  | none => rfl
  | some head =>
    have hvalid : head.Valid := h head rfl
    have hnew : Head.new head.policyIdentity head.headerIdentity head.recordCount
        head.recordIdentity = .ok head := Head.new_eq_ok.mpr ⟨rfl, hvalid⟩
    have hempty : head.recordIdentity.val = head.recordIdentity.val ++ [] :=
      (List.append_nil _).symm
    rw [decodeOptionalHead, if_neg (headBlock_some_ne_zero hvalid)]
    show ((_ : Reader ProtocolError Head).run (head.policyIdentity.val ++
      (head.headerIdentity.val ++ ((le32 head.recordCount).val ++ head.recordIdentity.val))) >>=
        fun _ => _) = _
    rw [run_bind run_array, run_bind run_array, run_bind run_u32, hempty, run_bind run_array, hnew]
    rfl

theorem valid_of_decodeOptionalHead {bytes : Block 100} {head : Option Head}
    (h : decodeOptionalHead bytes = .ok head) : ∀ value ∈ head, value.Valid := by
  intro value hvalue
  obtain rfl : head = some value := hvalue
  rw [decodeOptionalHead] at h
  split at h
  · cases h
  · obtain ⟨⟨head, rest⟩, hrun, hhead⟩ := bind_eq_ok.mp h
    obtain rfl : head = value := Option.some.inj (Except.ok.inj hhead)
    simp only [run_bind_eq_ok, run_lift_eq_ok, mapErr_eq_ok] at hrun
    obtain ⟨_, _, -, _, _, -, _, _, -, _, _, -, hnew, -⟩ := hrun
    exact (Head.new_eq_ok.mp hnew).2

/-- Heads that the constructor admits, and the absent one, have different bytes. -/
theorem encodeOptionalHead_injective {head other : Option Head} (h : ∀ value ∈ head, value.Valid)
    (hother : ∀ value ∈ other, value.Valid)
    (heq : encodeOptionalHead head = encodeOptionalHead other) : head = other := by
  have hblock : headBlock head = headBlock other := Subtype.ext heq
  have hok := decodeOptionalHead_encode h
  rw [hblock, decodeOptionalHead_encode hother] at hok
  exact (Except.ok.inj hok).symm

/-! ### The fields of a packet -/

theorem Operation.decode_code (operation : Operation) :
    Operation.decode operation.code = .ok operation := by
  cases operation <;> rfl

theorem Status.decode_code (status : Status) : Status.decode status.code = .ok status := by
  cases status <;> rfl

/-- The fields of a context in front of some bytes. -/
def contextBytes (c : Context) (rest : List UInt8) : List UInt8 :=
  c.protocolIdentity.val ++ (c.providerIdentity.val ++ (c.namespaceIdentity.val ++
    (c.policyIdentity.val ++ (c.admissionSessionIdentity.val ++ ((le16 c.kind.tag).val ++ rest)))))

theorem run_readContext (c : Context) (rest : List UInt8) :
    readContext.run (contextBytes c rest) = .ok (c, rest) := by
  have hkind : orErr ProtocolError.ledgerKind (LedgerKind.fromTag c.kind.tag) = .ok c.kind :=
    orErr_eq_ok.mpr (LedgerKind.fromTag_eq_some.mpr rfl)
  rw [readContext, contextBytes, run_bind run_array, run_bind run_array, run_bind run_array,
    run_bind run_array, run_bind run_array, run_bind run_u16, run_lift_bind hkind]
  rfl

theorem run_isFinished : (isFinished : Reader ProtocolError Bool).run [] = .ok (true, []) := rfl

/-- The bytes of a request, with each field in front of the rest. -/
theorem encodeRequest_eq (operation : Operation) (identity : Identity) (c : Context)
    (sequence : UInt64) (current next : List UInt8) :
    encodeRequest operation identity c sequence current next =
      magicRequest ++ ((le16 protocolVersion).val ++ ((le16 operation.code).val ++ ((le16 0).val ++
        ((le16 0).val ++ ((le32 428).val ++ (identity.val ++ contextBytes c ((le64 sequence).val ++
          ((Block.zero 6).val ++ (current ++ (next ++ []))))))))))  := by
  simp only [encodeRequest, contextBytes, Context.fields, List.cons_append, List.nil_append,
    List.flatten_cons, List.flatten_nil]

/-- **The fields of an encoded request are read back.** -/
theorem run_readRequest (operation : Operation) (identity : Identity) (c : Context)
    (sequence : UInt64) (current next : Block 100) :
    readRequest.run (encodeRequest operation identity c sequence current.val next.val) =
      .ok ((operation, identity, c, sequence, current, next), []) := by
  have hmagic : (⟨magicRequest, rfl⟩ : Block 8).val = magicRequest := rfl
  rw [encodeRequest_eq, readRequest, ← hmagic, run_bind run_array, run_bind run_u16,
    run_lift_bind (failIf_of_not (by simp)), run_bind run_u16,
    run_lift_bind (Operation.decode_code operation), run_bind run_u16, run_bind run_u16,
    run_bind run_u32, run_lift_bind (failIf_of_not (by simp)), run_bind run_array,
    run_bind (run_readContext c _), run_bind run_u64, run_bind run_array,
    run_lift_bind (failIf_of_not (by simp)), run_bind run_array, run_bind run_array,
    run_bind run_isFinished, run_lift_bind (failIf_of_not (by simp))]
  rfl

/-- The bytes of a response, with each field in front of the rest. -/
theorem encodeResponseFields_eq (operation : Operation) (status : Status)
    (identity request : Identity) (c : Context) (sequence : UInt64) (head : List UInt8) :
    encodeResponseFields operation status identity request c sequence head =
      magicResponse ++ ((le16 protocolVersion).val ++ ((le16 operation.code).val ++
        ((le16 status.code).val ++ ((le16 0).val ++ ((le32 360).val ++ (identity.val ++
          (request.val ++ contextBytes c ((le64 sequence).val ++ ((Block.zero 6).val ++
            (head ++ [])))))))))) := by
  simp only [encodeResponseFields, contextBytes, Context.fields, List.cons_append, List.nil_append,
    List.flatten_cons, List.flatten_nil]

/-- **The fields of an encoded response are read back.** -/
theorem run_readResponse (operation : Operation) (status : Status) (identity request : Identity)
    (c : Context) {sequence : UInt64} (head : Block 100) (hsequence : sequence ≠ 0) :
    readResponse.run (encodeResponseFields operation status identity request c sequence head.val) =
      .ok ((operation, status, identity, request, c, sequence, head), []) := by
  have hmagic : (⟨magicResponse, rfl⟩ : Block 8).val = magicResponse := rfl
  rw [encodeResponseFields_eq, readResponse, ← hmagic, run_bind run_array, run_bind run_u16,
    run_lift_bind (failIf_of_not (by simp)), run_bind run_u16,
    run_lift_bind (Operation.decode_code operation), run_bind run_u16,
    run_lift_bind (Status.decode_code status), run_bind run_u16, run_bind run_u32,
    run_lift_bind (failIf_of_not (by simp)), run_bind run_array, run_bind run_array,
    run_bind (run_readContext c _), run_bind run_u64, run_lift_bind (failIf_of_not hsequence),
    run_bind run_array, run_lift_bind (failIf_of_not (by simp)), run_bind run_array,
    run_bind run_isFinished, run_lift_bind (failIf_of_not (by simp))]
  rfl

/-! ### The codecs do not panic -/

theorem Context.total_validate (c : Context) : Total c.validate := by
  rw [Context.validate]
  exact total_failIf.bind fun _ => total_failIf.bind fun _ => total_failIf.bind fun _ =>
    total_failIf.bind fun _ => total_failIf

theorem total_validateTransition (operation : Operation) (policy : Identity)
    (current next : Option Head) : Total (validateTransition operation policy current next) := by
  unfold validateTransition
  refine total_failIf.bind fun _ => ?_
  split <;> first | trivial | exact total_failIf

theorem total_validateDecodedResponseShape (operation : Operation) (status : Status)
    (policy : Identity) (head : Option Head) :
    Total (validateDecodedResponseShape operation status policy head) := by
  unfold validateDecodedResponseShape
  refine total_failIf.bind fun _ => ?_
  split <;> trivial

theorem total_decodeOptionalHead (bytes : Block 100) : Total (decodeOptionalHead bytes) := by
  rw [decodeOptionalHead]
  split
  · trivial
  · refine Total.bind ?_ fun _ => trivial
    refine (returns_array 32 _).bind (fun policy => (returns_array 32 _).bind fun header =>
      (returns_u32 _).bind fun count => (returns_array 32 _).bind fun record =>
        returns_lift (total_mapErr ?_)) bytes.val
    rw [Head.new]
    exact total_failIf.bind fun _ => total_failIf.bind fun _ => trivial

theorem returns_readContext : Returns readContext := by
  rw [readContext]
  exact (returns_array 32 _).bind fun _ => (returns_array 32 _).bind fun _ =>
    (returns_array 32 _).bind fun _ => (returns_array 32 _).bind fun _ =>
      (returns_array 32 _).bind fun _ => (returns_u16 _).bind fun _ =>
        (returns_lift total_orErr).bind fun _ => returns_pure _

theorem Operation.total_decode (code : UInt16) : Total (Operation.decode code) := by
  unfold Operation.decode
  split_ifs <;> trivial

theorem Status.total_decode (code : UInt16) : Total (Status.decode code) := by
  unfold Status.decode
  split_ifs <;> trivial

theorem returns_readResponse : Returns readResponse := by
  rw [readResponse]
  refine (returns_array 8 _).bind fun _ => (returns_u16 _).bind fun _ =>
    (returns_lift total_failIf).bind fun _ => (returns_u16 _).bind fun _ =>
    (returns_lift (Operation.total_decode _)).bind fun _ => (returns_u16 _).bind fun _ =>
    (returns_lift (Status.total_decode _)).bind fun _ => (returns_u16 _).bind fun _ =>
    (returns_u32 _).bind fun _ => (returns_lift total_failIf).bind fun _ => ?_
  exact (returns_array 32 _).bind fun _ => (returns_array 32 _).bind fun _ =>
    returns_readContext.bind fun _ => (returns_u64 _).bind fun _ =>
    (returns_lift total_failIf).bind fun _ => (returns_array 6 _).bind fun _ =>
    (returns_lift total_failIf).bind fun _ => (returns_array 100 _).bind fun _ =>
    returns_isFinished.bind fun _ => (returns_lift total_failIf).bind fun _ => returns_pure _

theorem Request.total_new (sha256 : List UInt8 → Identity) (operation : Operation) (c : Context)
    (sequence : UInt64) (current next : Option Head) :
    Total (Request.new sha256 operation c sequence current next) := by
  rw [Request.new]
  exact c.total_validate.bind fun _ => total_failIf.bind fun _ =>
    (total_validateTransition _ _ _ _).bind fun _ => trivial

theorem Response.total_decodeCanonical (sha256 : List UInt8 → Identity) (bytes : List UInt8) :
    Total (Response.decodeCanonical sha256 bytes) := by
  rw [Response.decodeCanonical]
  refine total_failIf.bind fun _ => (returns_readResponse bytes).bind fun _ => ?_
  exact (total_decodeOptionalHead _).bind fun _ => (Context.total_validate _).bind fun _ =>
    (total_validateDecodedResponseShape _ _ _ _).bind fun _ => total_failIf.bind fun _ =>
    total_failIf.bind fun _ => trivial

/-! ### Requests -/

section Digest

variable {sha256 : List UInt8 → Identity}

/-- The request that the constructor makes of its arguments. -/
def Request.build (sha256 : List UInt8 → Identity) (operation : Operation) (c : Context)
    (sequence : UInt64) (current next : Option Head) : Request :=
  let identity := requestIdentityOf sha256 operation c sequence (encodeOptionalHead current)
    (encodeOptionalHead next)
  ⟨operation, identity, c, sequence, current, next, encodeRequest operation identity c sequence
    (encodeOptionalHead current) (encodeOptionalHead next)⟩

theorem Request.new_eq_ok {operation : Operation} {c : Context} {sequence : UInt64}
    {current next : Option Head} {r : Request} :
    Request.new sha256 operation c sequence current next = .ok r ↔
      c.validate = .ok () ∧ sequence ≠ 0 ∧
      validateTransition operation c.policyIdentity current next = .ok () ∧
      r = .build sha256 operation c sequence current next := by
  simp only [Request.new, bind_eq_ok, failIf_eq_ok]
  constructor
  · rintro ⟨⟨⟩, hcontext, ⟨⟩, hsequence, ⟨⟩, htransition, hr⟩
    exact ⟨hcontext, hsequence, htransition, (Except.ok.inj hr).symm⟩
  · rintro ⟨hcontext, hsequence, htransition, rfl⟩
    exact ⟨(), hcontext, (), hsequence, (), htransition, rfl⟩

/-- The requests that the three constructors make, from heads that the constructor of heads
admits. -/
inductive Constructible (sha256 : List UInt8 → Identity) : Request → Prop
  | load {c : Context} {sequence : UInt64} {r : Request}
      (h : Request.load sha256 c sequence = .ok r) : Constructible sha256 r
  | initializeHead {c : Context} {sequence : UInt64} {initial : Head} {r : Request}
      (hinitial : initial.Valid) (h : Request.initializeHead sha256 c sequence initial = .ok r) :
      Constructible sha256 r
  | compareAndAdvance {c : Context} {sequence : UInt64} {current next : Head} {r : Request}
      (hcurrent : current.Valid) (hnext : next.Valid)
      (h : Request.compareAndAdvance sha256 c sequence current next = .ok r) :
      Constructible sha256 r

/-- A transition has the heads that its operation asks for. -/
theorem heads_of_validateTransition {operation : Operation} {policy : Identity}
    {current next : Option Head} (h : validateTransition operation policy current next = .ok ()) :
    (operation = .load ∧ current = none ∧ next = none) ∨
      (operation = .initializeHead ∧ current = none ∧ ∃ initial, next = some initial) ∨
      operation = .compareAndAdvance ∧ ∃ head head', current = some head ∧ next = some head' := by
  unfold validateTransition at h
  obtain ⟨-, -, h⟩ := bind_eq_ok.mp h
  split at h
  · exact .inl ⟨rfl, rfl, rfl⟩
  · exact .inr (.inl ⟨rfl, rfl, _, rfl⟩)
  · cases h
  · exact .inr (.inr ⟨rfl, _, _, rfl, rfl⟩)
  · cases h
  · cases h

/-- What a constructible request is. -/
structure Request.Canonical (sha256 : List UInt8 → Identity) (r : Request) : Prop where
  validContext : r.context.validate = .ok ()
  sequence_ne : r.requestSequence ≠ 0
  transition :
    validateTransition r.operation r.context.policyIdentity r.current r.next = .ok ()
  currentValid : ∀ head ∈ r.current, head.Valid
  nextValid : ∀ head ∈ r.next, head.Valid
  eq_build : r = .build sha256 r.operation r.context r.requestSequence r.current r.next

theorem Request.Canonical.of_new {operation : Operation} {c : Context} {sequence : UInt64}
    {current next : Option Head} {r : Request} (hcurrent : ∀ head ∈ current, head.Valid)
    (hnext : ∀ head ∈ next, head.Valid)
    (h : Request.new sha256 operation c sequence current next = .ok r) : r.Canonical sha256 := by
  obtain ⟨hcontext, hsequence, htransition, rfl⟩ := Request.new_eq_ok.mp h
  exact ⟨hcontext, hsequence, htransition, hcurrent, hnext, rfl⟩

/-- The constructors make the canonical requests, and all of them. -/
theorem constructible_iff {r : Request} : Constructible sha256 r ↔ r.Canonical sha256 := by
  have hnone : ∀ head ∈ (none : Option Head), head.Valid := fun _ h => by cases h
  have hsome : ∀ {head : Head}, head.Valid → ∀ value ∈ some head, value.Valid := by
    rintro head h value hvalue
    exact Option.some.inj hvalue ▸ h
  constructor
  · rintro (h | ⟨hinitial, h⟩ | ⟨hcurrent, hnext, h⟩)
    · exact .of_new hnone hnone h
    · exact .of_new hnone (hsome hinitial) h
    · exact .of_new (hsome hcurrent) (hsome hnext) h
  · intro h
    obtain ⟨operation, identity, c, sequence, current, next, bytes⟩ := r
    have hnew : Request.new sha256 operation c sequence current next =
        .ok ⟨operation, identity, c, sequence, current, next, bytes⟩ :=
      Request.new_eq_ok.mpr ⟨h.validContext, h.sequence_ne, h.transition, h.eq_build⟩
    rcases heads_of_validateTransition h.transition with ⟨hop, hcur, hnext⟩ |
      ⟨hop, hcur, initial, hnext⟩ | ⟨hop, head, head', hcur, hnext⟩ <;>
      simp only at hop hcur hnext <;> subst hop hcur hnext
    · exact .load hnew
    · exact .initializeHead (h.nextValid initial rfl) hnew
    · exact .compareAndAdvance (h.currentValid head rfl) (h.nextValid head' rfl) hnew

theorem length_encodeRequest (operation : Operation) (identity : Identity) (c : Context)
    (sequence : UInt64) (current next : Block 100) :
    (encodeRequest operation identity c sequence current.val next.val).length = requestBytes := by
  have hmagic : magicRequest.length = 8 := rfl
  simp only [encodeRequest_eq, contextBytes, List.length_append, hmagic, Block.length_val,
    List.length_nil, requestBytes]

/-- **A request is decoded from its bytes.** -/
theorem Request.Canonical.decode {r : Request} (h : r.Canonical sha256) :
    r.canonicalBytes.length = requestBytes ∧
      Request.decodeCanonical sha256 r.canonicalBytes = .ok r := by
  have hbytes : r.canonicalBytes = encodeRequest r.operation r.requestIdentity r.context
      r.requestSequence (headBlock r.current).val (headBlock r.next).val := by
    rw [h.eq_build]
    rfl
  have hlength : r.canonicalBytes.length = requestBytes := by
    rw [hbytes, length_encodeRequest]
  have hnew : Request.new sha256 r.operation r.context r.requestSequence r.current r.next = .ok r :=
    Request.new_eq_ok.mpr ⟨h.validContext, h.sequence_ne, h.transition, h.eq_build⟩
  have hrun : readRequest.run r.canonicalBytes = .ok ((r.operation, r.requestIdentity, r.context,
      r.requestSequence, headBlock r.current, headBlock r.next), []) := by
    rw [hbytes, run_readRequest]
  refine ⟨hlength, ?_⟩
  rw [Request.decodeCanonical, failIf_of_not (not_not.mpr hlength), ok_bind, hrun, ok_bind]
  show (decodeOptionalHead (headBlock r.current) >>= fun _ => _) = _
  rw [decodeOptionalHead_encode h.currentValid, ok_bind, decodeOptionalHead_encode h.nextValid,
    ok_bind, hnew, ok_bind, failIf_of_not (not_not.mpr rfl), ok_bind,
    failIf_of_not (not_not.mpr rfl), ok_bind]
  rfl

/-- What is decoded is constructible, and its bytes are the bytes that were decoded. -/
theorem Request.canonical_of_decode {bytes : List UInt8} {r : Request}
    (h : Request.decodeCanonical sha256 bytes = .ok r) :
    bytes.length = requestBytes ∧ r.canonicalBytes = bytes ∧ r.Canonical sha256 := by
  simp only [Request.decodeCanonical, bind_eq_ok, failIf_eq_ok] at h
  obtain ⟨-, hlength, ⟨⟨operation, identity, c, sequence, current, next⟩, rest⟩, -, current', hcur,
    next', hnext, r', hnew, -, -, -, hbytes, hr⟩ := h
  obtain rfl : r' = r := Except.ok.inj hr
  exact ⟨not_not.mp hlength, not_not.mp hbytes,
    .of_new (valid_of_decodeOptionalHead hcur) (valid_of_decodeOptionalHead hnext) hnew⟩

/-! ### Responses -/

/-- A response that answers its request has the shape that a decoder asks for. -/
theorem shape_of_semantics {r : Request} {status : Status} {head : Option Head}
    (h : validateResponseSemantics r status head = .ok ()) :
    validateDecodedResponseShape r.operation status r.context.policyIdentity head = .ok () := by
  simp only [validateResponseSemantics, bind_eq_ok, failIf_eq_ok] at h
  obtain ⟨-, hpolicy, h⟩ := h
  unfold validateDecodedResponseShape
  rw [failIf_of_not hpolicy, ok_bind]
  generalize r.operation = operation at h ⊢
  cases operation <;> cases status <;> cases head <;> first | rfl | cases h

theorem length_encodeResponseFields (operation : Operation) (status : Status)
    (identity request : Identity) (c : Context) (sequence : UInt64) (head : Block 100) :
    (encodeResponseFields operation status identity request c sequence head.val).length =
      responseBytes := by
  have hmagic : magicResponse.length = 8 := rfl
  simp only [encodeResponseFields_eq, contextBytes, List.length_append, hmagic, Block.length_val,
    List.length_nil, responseBytes]

/-- **A response is decoded from its bytes and matches its request.** -/
theorem Response.decode_new {r : Request} {status : Status} {head : Option Head}
    {response : Response} (hr : r.Canonical sha256) (hhead : ∀ value ∈ head, value.Valid)
    (h : Response.new sha256 r status head = .ok response) :
    response.canonicalBytes.length = responseBytes ∧
      Response.decodeCanonical sha256 response.canonicalBytes = .ok response ∧
      response.matchesRequest r = true := by
  obtain ⟨⟨⟩, hsemantics, hresponse⟩ := bind_eq_ok.mp h
  obtain rfl := Except.ok.inj hresponse
  have hlength := length_encodeResponseFields r.operation status
    (responseIdentityFields sha256 r.operation status r.requestIdentity r.context r.requestSequence
      (encodeOptionalHead head)) r.requestIdentity r.context r.requestSequence (headBlock head)
  have hrun := run_readResponse r.operation status
    (responseIdentityFields sha256 r.operation status r.requestIdentity r.context r.requestSequence
      (encodeOptionalHead head)) r.requestIdentity r.context (headBlock head) hr.sequence_ne
  refine ⟨hlength, ?_, ?_⟩
  · show Response.decodeCanonical sha256
      (encodeResponseFields r.operation status _ r.requestIdentity
      r.context r.requestSequence (headBlock head).val) = _
    rw [Response.decodeCanonical, failIf_of_not (not_not.mpr hlength), ok_bind]
    show (readResponse.run (encodeResponseFields r.operation status _ r.requestIdentity r.context
      r.requestSequence (headBlock head).val) >>= fun _ => _) = _
    rw [hrun, ok_bind]
    show (decodeOptionalHead (headBlock head) >>= fun _ => _) = _
    rw [decodeOptionalHead_encode hhead, ok_bind, hr.validContext, ok_bind,
      shape_of_semantics hsemantics, ok_bind]
    dsimp only [headBlock]
    rw [failIf_of_not (not_not.mpr rfl), ok_bind]
    exact bind_eq_ok.mpr ⟨(), failIf_of_not (not_not.mpr rfl), rfl⟩
  · simp [Response.matchesRequest, hsemantics, Except.toBool]

theorem Response.canonicalBytes_of_decode {bytes : List UInt8} {response : Response}
    (h : Response.decodeCanonical sha256 bytes = .ok response) :
    bytes.length = responseBytes ∧ response.canonicalBytes = bytes := by
  simp only [Response.decodeCanonical, bind_eq_ok, failIf_eq_ok] at h
  obtain ⟨-, hlength, ⟨⟨_, _, _, _, _, _, _⟩, _⟩, -, _, -, -, -, -, -, -, -, -, hbytes, hr⟩ := h
  obtain rfl := Except.ok.inj hr
  exact ⟨not_not.mp hlength, not_not.mp hbytes⟩

/-- **The packet codecs are exact inverses.** Whatever the digest is: a request that can be made is
decoded from its 428 bytes, and 428 bytes that are accepted are those of a request that can be made;
a response to a request is decoded from its 360 bytes and matches the request, and 360 bytes that
are accepted are encoded again to themselves; and heads have distinct bytes. -/
theorem codecs_inverse (sha256 : List UInt8 → Identity) :
    (∀ r, Constructible sha256 r → r.canonicalBytes.length = 428 ∧
      Request.decodeCanonical sha256 r.canonicalBytes = .ok r) ∧
    (∀ bytes r, Request.decodeCanonical sha256 bytes = .ok r →
      bytes.length = 428 ∧ r.canonicalBytes = bytes ∧ Constructible sha256 r) ∧
    (∀ r status head response, Constructible sha256 r → (∀ value ∈ head, value.Valid) →
      Response.new sha256 r status head = .ok response →
      response.canonicalBytes.length = 360 ∧
      Response.decodeCanonical sha256 response.canonicalBytes = .ok response ∧
      response.matchesRequest r = true) ∧
    (∀ bytes response, Response.decodeCanonical sha256 bytes = .ok response →
      bytes.length = 360 ∧ response.canonicalBytes = bytes) ∧
    (∀ head : Head, head.Valid → encodeOptionalHead none ≠ encodeOptionalHead (some head)) ∧
    ∀ head other : Head, head.Valid → other.Valid →
      encodeOptionalHead (some head) = encodeOptionalHead (some other) → head = other := by
  have hnone : ∀ head ∈ (none : Option Head), head.Valid := fun _ h => by cases h
  have hsome : ∀ {head : Head}, head.Valid → ∀ value ∈ some head, value.Valid := by
    rintro head h value hvalue
    exact Option.some.inj hvalue ▸ h
  refine ⟨fun r hr => (constructible_iff.mp hr).decode, fun bytes r h => ?_,
    fun r status head response hr hhead h => Response.decode_new (constructible_iff.mp hr) hhead h,
    fun bytes response h => Response.canonicalBytes_of_decode h, fun head h heq => ?_,
    fun head other h hother heq => ?_⟩
  · obtain ⟨hlength, hbytes, hcanonical⟩ := Request.canonical_of_decode h
    exact ⟨hlength, hbytes, constructible_iff.mpr hcanonical⟩
  · cases encodeOptionalHead_injective hnone (hsome h) heq
  · exact Option.some.inj (encodeOptionalHead_injective (hsome h) (hsome hother) heq)

end Digest

/-- A digest for fixed packets. -/
def uniformDigest : List UInt8 → Identity := fun _ => ⟨List.replicate 32 1, rfl⟩

/-- A context for fixed packets. -/
def uniformContext : Context :=
  let identity : Identity := ⟨List.replicate 32 1, rfl⟩
  ⟨identity, identity, identity, identity, identity, .replay⟩

/-- A head with some number of records. -/
def uniformHead (recordCount : UInt32) : Head :=
  ⟨uniformDigest [], uniformDigest [], recordCount, uniformDigest []⟩

theorem valid_uniformHead {recordCount : UInt32} (h : recordCount ≠ 0) :
    (uniformHead recordCount).Valid := by
  have hidentity : uniformDigest [] ≠ .zero 32 := by decide
  exact ⟨hidentity, hidentity, fun hcount => absurd hcount h, fun hzero => absurd hzero hidentity⟩

theorem codecs_inverse_advance : ∃ load advance response,
    Request.load uniformDigest uniformContext 1 = .ok load ∧
    Request.compareAndAdvance uniformDigest uniformContext 2 (uniformHead 1) (uniformHead 2) =
      .ok advance ∧
    Response.new uniformDigest advance .advanced (some (uniformHead 2)) = .ok response ∧
    Request.decodeCanonical uniformDigest load.canonicalBytes = .ok load ∧
    Request.decodeCanonical uniformDigest advance.canonicalBytes = .ok advance ∧
    Response.decodeCanonical uniformDigest response.canonicalBytes = .ok response ∧
    response.matchesRequest advance = true := by
  obtain ⟨load, hload⟩ : ∃ load, Request.load uniformDigest uniformContext 1 = .ok load :=
    ⟨_, Request.new_eq_ok.mpr ⟨by decide +kernel, by decide, by decide +kernel, rfl⟩⟩
  obtain ⟨advance, hadvance⟩ : ∃ advance, Request.compareAndAdvance uniformDigest uniformContext 2
      (uniformHead 1) (uniformHead 2) = .ok advance :=
    ⟨_, Request.new_eq_ok.mpr ⟨by decide +kernel, by decide, by decide +kernel, rfl⟩⟩
  obtain ⟨response, hresponse⟩ : ∃ response,
      Response.new uniformDigest advance .advanced (some (uniformHead 2)) = .ok response := by
    obtain ⟨-, -, -, rfl⟩ := Request.new_eq_ok.mp hadvance
    exact ⟨_, rfl⟩
  have hfirst : (uniformHead 1).Valid := valid_uniformHead (by decide)
  have hsecond : (uniformHead 2).Valid := valid_uniformHead (by decide)
  have hconstructible : Constructible uniformDigest advance :=
    .compareAndAdvance hfirst hsecond hadvance
  obtain ⟨hdecode, -, hdecodeResponse, -⟩ := codecs_inverse uniformDigest
  obtain ⟨-, hdecoded, hmatches⟩ :=
    hdecodeResponse advance .advanced (some (uniformHead 2)) response
    hconstructible (fun value hvalue => Option.some.inj hvalue ▸ hsecond) hresponse
  exact ⟨load, advance, response, hload, hadvance, hresponse, (hdecode load (.load hload)).2,
    (hdecode advance hconstructible).2, hdecoded, hmatches⟩

end HeadStore

end Ferric
