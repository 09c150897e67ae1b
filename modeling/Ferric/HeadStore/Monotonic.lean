import Ferric.HeadStore.Calls
import Ferric.Lib.Lists

/-!
# Monotonic reads against any peer

What follows for any sequence of calls. The peer may answer with any bytes: the answers that count
are those to the very request, heads never go back, and after an ambiguous outcome nothing is sent
any more.

## Main results

* `Monitored` — the invariant of all runs
* `client_monotonic` — every run of a client
-/

namespace Ferric

namespace HeadStore

open Ledger Ferric.Action

variable {s : Session} {sha256 : List UInt8 → Identity}

/-! ### Runs -/

/-- One call of a run. -/
structure Record where
  op : Op
  transport : Transport
  before : Session
  outcome : Outcome Failure Reply
  after : Session

/-- The head that a call showed: loaded, or acknowledged as the new one. -/
def Record.observed (r : Record) : Option Head :=
  match r.outcome, r.op with
  | .ok (.head head), _ => head
  | .ok (.done true), .initializeHead initial => some initial.val
  | .ok (.done true), .compareAndAdvance _ next => some next.val
  | _, _ => none

/-- The heads that were observed, in order. -/
def observedHeads (log : List Record) : List Head := log.filterMap Record.observed

theorem observedHeads_append (log : List Record) (r : Record) :
    observedHeads (log ++ [r]) = observedHeads log ++ r.observed.toList := by
  rw [observedHeads, List.filterMap_append]
  cases h : r.observed <;> simp [h, observedHeads]

/-- A client with any calls, any system and any peer. -/
def clients (sha256 : List UInt8 → Identity) (c : Context) :
    System (Session × List Record) (Op × Transport) where
  init state := state = (⟨.admitted c, []⟩, [])
  step state label state' :=
    let result := (label.1.call sha256 label.2).exec state.1
    state' = (result.2, state.2 ++ [⟨label.1, label.2, state.1, result.1, result.2⟩])

/-- What holds of one call of a run. -/
inductive Record.Sound (sha256 : List UInt8 → Identity) (r : Record) : Prop
  | answered {reply : Reply} (houtcome : r.outcome = .ok reply)
      (h : Answered sha256 r.op r.transport r.before reply r.after)
  | refused {f : Failure} (houtcome : r.outcome = .error (.err f))
      (h : Refused sha256 r.op r.transport r.before f r.after)

theorem Record.sound (op : Op) (transport : Transport) (s : Session) :
    Record.Sound sha256 ⟨op, transport, s, ((op.call sha256 transport).exec s).1,
      ((op.call sha256 transport).exec s).2⟩ := by
  have hcall : Runs s (op.call sha256 transport) _ _ := op.call_runs transport
  rcases hcall.cases with
    ⟨reply, s', hx, h⟩ | ⟨f, s', hx, h⟩
  · rw [hx]
    exact .answered rfl h
  · rw [hx]
    exact .refused rfl h

/-- The operation and the next head of a call. -/
def Op.operation : Op → Operation
  | .load => .load
  | .initializeHead _ => .initializeHead
  | .compareAndAdvance _ _ => .compareAndAdvance

def Op.next : Op → Option Head
  | .load => none
  | .initializeHead initial => some initial.val
  | .compareAndAdvance _ next => some next.val

/-- What the request of a call carries. -/
theorem Op.request_eq_ok {op : Op} {c : Context} {sequence : UInt64} {request : Request}
    (h : op.request sha256 c sequence = .ok request) :
    request.Canonical sha256 ∧ request.operation = op.operation ∧ request.context = c ∧
      request.requestSequence = sequence ∧ request.next = op.next := by
  have hnone : ∀ head ∈ (none : Option Head), head.Valid := fun _ h => by cases h
  have hsome : ∀ (head : { head : Head // head.Valid }), ∀ value ∈ some head.val, value.Valid := by
    rintro head value hvalue
    exact Option.some.inj hvalue ▸ head.property
  cases op with
  | load =>
    obtain ⟨-, -, -, heq⟩ := Request.new_eq_ok.mp h
    exact ⟨.of_new hnone hnone h, by rw [heq]; exact ⟨rfl, rfl, rfl, rfl⟩⟩
  | initializeHead initial =>
    obtain ⟨-, -, -, heq⟩ := Request.new_eq_ok.mp h
    exact ⟨.of_new hnone (hsome initial) h, by rw [heq]; exact ⟨rfl, rfl, rfl, rfl⟩⟩
  | compareAndAdvance current next =>
    obtain ⟨-, -, -, heq⟩ := Request.new_eq_ok.mp h
    exact ⟨.of_new (hsome current) (hsome next) h, by rw [heq]; exact ⟨rfl, rfl, rfl, rfl⟩⟩

/-- A compare-and-advance that is sent is one for a successor. -/
theorem Request.Canonical.successor {request : Request} (h : request.Canonical sha256)
    (hop : request.operation = .compareAndAdvance) :
    ∃ current next, request.current = some current ∧ request.next = some next ∧
      next.policyIdentity = current.policyIdentity ∧
      next.headerIdentity = current.headerIdentity ∧
      next.recordCount.toNat = current.recordCount.toNat + 1 := by
  have htransition := h.transition
  rw [hop] at htransition
  unfold validateTransition at htransition
  obtain ⟨⟨⟩, hpolicy, htransition⟩ := bind_eq_ok.mp htransition
  obtain ⟨hcurrent, hnext⟩ := not_or.mp (failIf_eq_ok.mp hpolicy)
  cases hcur : request.current with
  | none => rw [hcur] at htransition; cases htransition
  | some current =>
    cases hnex : request.next with
    | none => rw [hcur, hnex] at htransition; cases htransition
    | some next =>
      rw [hcur, hnex] at htransition
      obtain ⟨hheader, hcount, hidentity⟩ := not_not.mp (failIf_eq_ok.mp htransition)
      have hpolicyCurrent : current.policyIdentity = request.context.policyIdentity :=
        not_not.mp fun hne => hcurrent ⟨current, hcur, hne⟩
      have hpolicyNext : next.policyIdentity = request.context.policyIdentity :=
        not_not.mp fun hne => hnext ⟨next, hnex, hne⟩
      refine ⟨current, next, rfl, rfl, hpolicyNext.trans hpolicyCurrent.symm, hheader, ?_⟩
      -- A count that wraps to zero would be that of an empty head, whose record identity is zero.
      rw [checkedAdd] at hcount
      split at hcount
      · exact hcount
      · have hzero : next.recordCount = 0 := UInt32.toNat_inj.mp hcount
        exact absurd ((h.nextValid next hnex).empty_iff.mp hzero) hidentity

/-- A call that showed that a head exists: the head itself, or a conflict. -/
def Record.Existing (r : Record) : Prop :=
  r.observed.isSome = true ∨ r.outcome = .ok (.done false)

/-- What a call did to the client, as far as the heads are concerned. -/
theorem Record.Sound.client {r : Record} (h : r.Sound sha256) :
    r.after.client.context = r.before.client.context ∧
    ((∃ head, r.observed = some head ∧ r.after.client.lastObservedHead = some head ∧
        r.after.client.observedExisting = true ∧
        ∀ prior ∈ r.before.client.lastObservedHead, Follows prior head) ∨
      r.observed = none ∧ r.after.client.lastObservedHead = r.before.client.lastObservedHead ∧
        (r.outcome = .ok (.done false) ∧ r.after.client.observedExisting = true ∨
          r.outcome ≠ .ok (.done false) ∧
            r.after.client.observedExisting = r.before.client.observedExisting)) ∧
    (r.outcome = .ok (.head none) → r.before.client.observedExisting = false) := by
  obtain ⟨op, transport, s, outcome, s'⟩ := r
  rcases h with ⟨rfl, request, response, -, -, hrequest, -, hcorrelated, hconcludes⟩ | @⟨f, rfl, h⟩
  · obtain ⟨-, -, -, -, hsemantics⟩ := matchesRequest_iff.mp hcorrelated.matches_
    obtain ⟨-, -, -, -, hnext⟩ := Op.request_eq_ok hrequest
    dsimp only at hconcludes ⊢
    generalize s'.client = client at hconcludes ⊢
    cases hconcludes with
    | loaded hstatus hhead hfollows =>
      exact ⟨rfl, .inl ⟨_, rfl, rfl, rfl, hfollows⟩, by simp⟩
    | absent hstatus hnew =>
      exact ⟨rfl, .inr ⟨rfl, rfl, .inr ⟨by simp, rfl⟩⟩, fun _ => hnew⟩
    | @advanced head hstatus hhead hfollows =>
      have hop : op.next = some head := by
        rw [← hnext, ← ((head_of_semantics hsemantics).2 hstatus).2, hhead]
      refine ⟨rfl, .inl ⟨head, ?_, rfl, rfl, hfollows⟩, by simp⟩
      cases op with
      | load => cases hop
      | initializeHead initial => exact hop
      | compareAndAdvance current next => exact hop
    | conflict hstatus =>
      exact ⟨rfl, .inr ⟨by cases op <;> rfl, rfl, .inl ⟨rfl, rfl⟩⟩, by simp⟩
  · have hclient : s'.client = s.client ∨ s'.client = s.client.advance ∨
        s'.client = s.client.advance.poison := by
      rcases h with ⟨_, -, -, -, -, ⟨-, -, hc⟩ | ⟨-, -, -, hc⟩⟩ | ⟨-, -, hc | ⟨-, hc⟩⟩
      · exact .inr (.inl hc)
      · exact .inr (.inr hc)
      · exact .inl hc
      · exact .inr hc
    have hobserved : Record.observed ⟨op, transport, s, .error (.err f), s'⟩ = none := by
      cases op <;> rfl
    dsimp only
    rcases hclient with hc | hc | hc <;>
      (rw [hc]; exact ⟨rfl, .inr ⟨hobserved, rfl, .inr ⟨by simp, rfl⟩⟩, by simp⟩)

/-- What a call sent, and when it may not have sent anything. -/
theorem Record.Sound.wire {r : Record} (h : r.Sound sha256) :
    (r.after.client.peer = true → r.before.client.peer = true) ∧
    (r.after.wire = r.before.wire ∨ r.before.client.peer = true ∧
      r.before.client.nextRequestSequence ≠ 0 ∧ ∃ request,
        r.op.request sha256 r.before.client.context r.before.client.nextRequestSequence =
          .ok request ∧ r.after.wire = r.before.wire ++ [request] ∧
        r.after.client.nextRequestSequence =
          r.before.client.advance.nextRequestSequence) ∧
    (r.after.client.nextRequestSequence = r.before.client.nextRequestSequence ∨
      r.before.client.nextRequestSequence ≠ 0 ∧
        r.after.client.nextRequestSequence = r.before.client.advance.nextRequestSequence) := by
  obtain ⟨op, transport, s, outcome, s'⟩ := r
  rcases h with ⟨rfl, request, response, hpeer, hne, hrequest, hwire, -, hconcludes⟩ | ⟨rfl, h⟩
  · have hnext : s'.client.nextRequestSequence = s.client.advance.nextRequestSequence := by
      generalize s'.client = client at hconcludes
      cases hconcludes <;> rfl
    exact ⟨fun _ => hpeer, .inr ⟨hpeer, hne, request, hrequest, hwire, hnext⟩, .inr ⟨hne, hnext⟩⟩
  · rcases h with ⟨request, hpeer, hne, hrequest, hwire, hend⟩ | ⟨hwire, -, hclient⟩
    · have hnext : s'.client.nextRequestSequence = s.client.advance.nextRequestSequence := by
        rcases hend with ⟨-, -, hc⟩ | ⟨-, -, -, hc⟩ <;>
          exact (congrArg Client.nextRequestSequence hc :)
      exact ⟨fun _ => hpeer, .inr ⟨hpeer, hne, request, hrequest, hwire, hnext⟩, .inr ⟨hne, hnext⟩⟩
    · dsimp only at hclient ⊢
      refine ⟨fun hpeer => ?_, .inl hwire, ?_⟩
      · rcases hclient with hc | ⟨-, hc | hc⟩
        · exact hc ▸ hpeer
        · exact (congrArg Client.peer hc).symm.trans hpeer
        · simp [hc, Client.poison] at hpeer
      · rcases hclient with hc | ⟨hne, hc | hc⟩
        · exact .inl (congrArg _ hc)
        · exact .inr ⟨hne, congrArg _ hc⟩
        · exact .inr ⟨hne, (congrArg Client.nextRequestSequence hc :)⟩

/-- A sequence number that a call takes is above all that were taken before. -/
theorem Client.lt_advance {client : Client} {n : UInt64}
    (h : client.advance.nextRequestSequence ≠ 0) (hn : n ≤ client.nextRequestSequence) :
    n < client.advance.nextRequestSequence := by
  rw [Client.advance, checkedAdd] at h ⊢
  split at h
  · next hfits =>
    rw [if_pos hfits, UInt64.lt_iff_toNat_lt, Option.getD_some, UInt64.toNat_ofNat_of_lt' hfits]
    exact Nat.lt_succ_of_le (UInt64.le_iff_toNat_le.mp hn)
  · exact absurd rfl h

/-! ### The invariant -/

/-- What holds of a client and the calls that were made. -/
structure Monitored (sha256 : List UInt8 → Identity) (c : Context) (s : Session)
    (log : List Record) : Prop where
  context_eq : s.client.context = c
  sound : ∀ r ∈ log, r.Sound sha256 ∧ r.before.client.context = c
  last : s.client.lastObservedHead = (observedHeads log).getLast?
  follows : (observedHeads log).Pairwise Follows
  existing : s.client.observedExisting = false → ∀ r ∈ log, ¬ r.Existing
  present : log.Pairwise fun earlier later => earlier.Existing → later.outcome ≠ .ok (.head none)
  wire : ∀ request ∈ s.wire, request.Canonical sha256 ∧ request.context = c
  sequences : s.wire.Pairwise fun earlier later => earlier.requestSequence < later.requestSequence
  taken : s.client.nextRequestSequence ≠ 0 →
    ∀ request ∈ s.wire, request.requestSequence < s.client.nextRequestSequence
  gone : ∀ r ∈ log, r.after.client.peer = false →
    s.client.peer = false ∧ s.wire = r.after.wire
  silent : log.Pairwise fun earlier later => earlier.after.client.peer = false →
    later.after.wire = earlier.after.wire

theorem Monitored.initial (c : Context) : Monitored sha256 c ⟨.admitted c, []⟩ [] where
  context_eq := rfl
  sound := by simp
  last := rfl
  follows := .nil
  existing := by simp
  present := .nil
  wire := by simp
  sequences := .nil
  taken := by simp
  gone := by simp
  silent := .nil

section Call

variable {c : Context} {log : List Record} {r : Record}

/-- After the endpoint is gone, nothing is sent. -/
theorem Monitored.gone_call (h : Monitored sha256 c r.before log) (hr : r.Sound sha256) :
    ∀ earlier ∈ log ++ [r], earlier.after.client.peer = false →
      r.after.client.peer = false ∧ r.after.wire = earlier.after.wire := by
  obtain ⟨hpeer, hwire, -⟩ := hr.wire
  have hquiet : r.before.client.peer = false → r.after.wire = r.before.wire := by
    intro hgone
    rcases hwire with heq | ⟨hhere, -⟩
    · exact heq
    · rw [hhere] at hgone
      cases hgone
  intro earlier hmem hpoisoned
  rcases List.mem_append.mp hmem with hmem | hmem
  · obtain ⟨hbefore, heq⟩ := h.gone earlier hmem hpoisoned
    refine ⟨Bool.eq_false_iff.mpr fun hafter => ?_, (hquiet hbefore).trans heq⟩
    exact Bool.eq_false_iff.mp hbefore (hpeer hafter)
  · obtain rfl := List.mem_singleton.mp hmem
    exact ⟨hpoisoned, rfl⟩

/-- An observed head is the last one, and follows those before it. -/
theorem Monitored.observed_call (h : Monitored sha256 c r.before log) (hr : r.Sound sha256) :
    r.after.client.lastObservedHead = (observedHeads (log ++ [r])).getLast? ∧
      (observedHeads (log ++ [r])).Pairwise Follows := by
  obtain ⟨-, hheads, -⟩ := hr.client
  rw [observedHeads_append]
  rcases hheads with ⟨head, hobserved, hlast, -, hfollows⟩ | ⟨hobserved, hlast, -⟩
  · rw [hobserved, Option.toList_some, hlast]
    refine ⟨by simp, pairwise_append_singleton h.follows fun earlier hmem => ?_⟩
    cases hlast : (observedHeads log).getLast? with
    | none =>
      rw [List.getLast?_eq_none_iff.mp hlast] at hmem
      cases hmem
    | some prior =>
      have hprior : Follows earlier prior :=
        rel_getLast?_of_pairwise (fun _ => ⟨rfl, UInt32.le_refl _, fun _ => rfl⟩) h.follows
          hlast earlier hmem
      exact hprior.trans (hfollows prior (by rw [h.last, hlast]; rfl))
  · rw [hobserved, Option.toList_none, List.append_nil, hlast]
    exact ⟨h.last, h.follows⟩

theorem Monitored.existing_call (h : Monitored sha256 c r.before log) (hr : r.Sound sha256) :
    r.after.client.observedExisting = false → ∀ earlier ∈ log ++ [r], ¬ earlier.Existing := by
  obtain ⟨-, hheads, -⟩ := hr.client
  intro hfalse earlier hmem
  rcases hheads with ⟨head, -, -, htrue, -⟩ | ⟨hobserved, -, ⟨-, htrue⟩ | ⟨hne, heq⟩⟩
  · rw [htrue] at hfalse
    cases hfalse
  · rw [htrue] at hfalse
    cases hfalse
  · rcases List.mem_append.mp hmem with hmem | hmem
    · exact h.existing (heq ▸ hfalse) earlier hmem
    · obtain rfl := List.mem_singleton.mp hmem
      rintro (hsome | hconflict)
      · rw [hobserved] at hsome
        cases hsome
      · exact hne hconflict

/-- A request that is sent is canonical, and its number is the next one. -/
theorem Monitored.wire_call (h : Monitored sha256 c r.before log) (hr : r.Sound sha256) :
    (∀ request ∈ r.after.wire, request.Canonical sha256 ∧ request.context = c) ∧
      r.after.wire.Pairwise
        fun earlier later => earlier.requestSequence < later.requestSequence := by
  obtain ⟨-, hwire, -⟩ := hr.wire
  rcases hwire with heq | ⟨-, hne, sent, hsent, heq, -⟩
  · rw [heq]
    exact ⟨h.wire, h.sequences⟩
  · obtain ⟨hcanonical, -, hc, hnumber, -⟩ := Op.request_eq_ok hsent
    rw [heq]
    refine ⟨fun request hmem => ?_, pairwise_append_singleton h.sequences fun request hmem => ?_⟩
    · rcases List.mem_append.mp hmem with hmem | hmem
      · exact h.wire request hmem
      · obtain rfl := List.mem_singleton.mp hmem
        exact ⟨hcanonical, hc.trans h.context_eq⟩
    · rw [hnumber]
      exact h.taken hne request hmem

/-- The next number is behind those that were sent. -/
theorem Monitored.taken_call (h : Monitored sha256 c r.before log) (hr : r.Sound sha256) :
    r.after.client.nextRequestSequence ≠ 0 →
      ∀ request ∈ r.after.wire, request.requestSequence < r.after.client.nextRequestSequence := by
  obtain ⟨-, hwire, hsequence⟩ := hr.wire
  intro hnext request hmem
  rcases hwire with heq | ⟨-, hne, sent, hsent, heq, hadvance⟩
  · rw [heq] at hmem
    rcases hsequence with hsame | ⟨hne, hadvance⟩
    · rw [hsame] at hnext ⊢
      exact h.taken hnext request hmem
    · rw [hadvance] at hnext ⊢
      exact Client.lt_advance hnext (UInt64.le_of_lt (h.taken hne request hmem))
  · rw [hadvance] at hnext ⊢
    rw [heq] at hmem
    refine Client.lt_advance hnext ?_
    rcases List.mem_append.mp hmem with hmem | hmem
    · exact UInt64.le_of_lt (h.taken hne request hmem)
    · obtain rfl := List.mem_singleton.mp hmem
      obtain ⟨-, -, -, hnumber, -⟩ := Op.request_eq_ok hsent
      exact hnumber ▸ UInt64.le_refl _

/-- One more call. -/
theorem Monitored.call (h : Monitored sha256 c r.before log) (hr : r.Sound sha256) :
    Monitored sha256 c r.after (log ++ [r]) where
  context_eq := hr.client.1.trans h.context_eq
  sound := by
    intro earlier hmem
    rcases List.mem_append.mp hmem with hmem | hmem
    · exact h.sound earlier hmem
    · obtain rfl := List.mem_singleton.mp hmem
      exact ⟨hr, h.context_eq⟩
  last := (h.observed_call hr).1
  follows := (h.observed_call hr).2
  existing := h.existing_call hr
  present := pairwise_append_singleton h.present fun earlier hmem hexisting hout =>
    h.existing (hr.client.2.2 hout) earlier hmem hexisting
  wire := (h.wire_call hr).1
  sequences := (h.wire_call hr).2
  taken := h.taken_call hr
  gone := h.gone_call hr
  silent := pairwise_append_singleton h.silent fun earlier hmem hpoisoned =>
    (h.gone_call hr earlier (List.mem_append_left _ hmem) hpoisoned).2

end Call

theorem monitored_of_reachable {c : Context} {state : Session × List Record}
    (h : (clients sha256 c).Reachable state) : Monitored sha256 c state.1 state.2 := by
  refine h.induction (I := fun state => Monitored sha256 c state.1 state.2) ?_ ?_
  · rintro s rfl
    exact .initial c
  · rintro s label s' - hs rfl
    exact Monitored.call hs (Record.sound label.1 label.2 s.1)

/-! ### The claim -/

/-- What a call returns on a response. -/
def Response.reply (response : Response) : Reply :=
  match response.status with
  | .loaded => .head response.head
  | .absent => .head response.head
  | .advanced => .done true
  | .conflict => .done false
  | .rejected => .done false

/-- What a run of a client guarantees, whatever the system and the peer did. -/
structure MonotonicReads (sha256 : List UInt8 → Identity) (c : Context) (wire : List Request)
    (log : List Record) : Prop where
  /-- A call that returned had sent its request, received bytes, and took its reply from a response
  to that very request. -/
  answered : ∀ r ∈ log, ∀ reply, r.outcome = .ok reply → ∃ request bytes response,
    r.op.request sha256 c r.before.client.nextRequestSequence = .ok request ∧
    r.after.wire = r.before.wire ++ [request] ∧
    r.transport.received = .packet bytes ∧
    Response.decodeCanonical sha256 bytes = .ok response ∧
    response.operation = r.op.operation ∧ response.context = c ∧
    response.requestSequence = r.before.client.nextRequestSequence ∧
    response.requestIdentity = request.requestIdentity ∧
    (response.status = .advanced → response.head = r.op.next) ∧
    response.status ≠ .rejected ∧ reply = response.reply
  /-- The sequence numbers of the requests are never used again. -/
  sequences : wire.Pairwise fun earlier later => earlier.requestSequence < later.requestSequence
  /-- The heads that were observed. -/
  follows : (observedHeads log).Pairwise Follows
  /-- After a head or a conflict, no call returns that there is no head. -/
  present : log.Pairwise fun earlier later => earlier.Existing → later.outcome ≠ .ok (.head none)
  /-- The compare-and-advances that were sent. -/
  successor : ∀ request ∈ wire, request.operation = .compareAndAdvance →
    ∃ current next, request.current = some current ∧ request.next = some next ∧
      next.policyIdentity = current.policyIdentity ∧
      next.headerIdentity = current.headerIdentity ∧
      next.recordCount.toNat = current.recordCount.toNat + 1
  /-- A failed call is one with an error value. -/
  errors : ∀ r ∈ log, ∀ fault, r.outcome = .error fault → ∃ f, fault = .err f
  /-- A call that failed after a send keeps the endpoint if a response to that very request rejected
  it, and gives the endpoint up in every other case. -/
  failed : ∀ r ∈ log, ∀ f, r.outcome = .error (.err f) → r.after.wire ≠ r.before.wire →
    ∃ request, r.after.wire = r.before.wire ++ [request] ∧
      (Rejected sha256 r.transport request →
        f = ⟨.providerRejected, .retained⟩ ∧ r.after.client.peer = true) ∧
      (¬ Rejected sha256 r.transport request →
        f.error ≠ .providerRejected ∧ f.custody = .poisoned ∧ r.after.client.peer = false)
  /-- Without an endpoint nothing is sent ever again. -/
  silent : log.Pairwise fun earlier later => earlier.after.client.peer = false →
    later.after.wire = earlier.after.wire

theorem Record.Sound.reply {r : Record} {c : Context} (h : r.Sound sha256)
    (hc : r.before.client.context = c) {reply : Reply} (hout : r.outcome = .ok reply) :
    ∃ request bytes response,
      r.op.request sha256 c r.before.client.nextRequestSequence = .ok request ∧
      r.after.wire = r.before.wire ++ [request] ∧
      r.transport.received = .packet bytes ∧
      Response.decodeCanonical sha256 bytes = .ok response ∧
      response.operation = r.op.operation ∧ response.context = c ∧
      response.requestSequence = r.before.client.nextRequestSequence ∧
      response.requestIdentity = request.requestIdentity ∧
      (response.status = .advanced → response.head = r.op.next) ∧
      response.status ≠ .rejected ∧ reply = response.reply := by
  rcases h with @⟨reply', hreply, request, response, -, -, hrequest, hwire, hcorrelated, hend⟩ |
    @⟨f, hfault, -⟩
  · obtain rfl : reply' = reply := by
      rw [hreply] at hout
      exact Except.ok.inj hout
    obtain ⟨bytes, hreceived, hdecoded⟩ := hcorrelated.received
    obtain ⟨hoperation, hidentity, hcontext, hnumber, hsemantics⟩ :=
      matchesRequest_iff.mp hcorrelated.matches_
    obtain ⟨-, hop, hrc, hrn, hnext⟩ := Op.request_eq_ok hrequest
    refine ⟨request, bytes, response, hc ▸ hrequest, hwire, hreceived, hdecoded,
      hoperation.trans hop, hcontext.trans (hrc.trans hc), hnumber.trans hrn, hidentity,
      fun hstatus => ((head_of_semantics hsemantics).2 hstatus).2.trans hnext, ?_⟩
    generalize r.after.client = client at hend
    cases hend with
    | loaded hstatus hhead => simp [Response.reply, hstatus, hhead]
    | absent hstatus =>
      simp [Response.reply, hstatus, head_of_absent hsemantics hstatus]
    | advanced hstatus => simp [Response.reply, hstatus]
    | conflict hstatus => simp [Response.reply, hstatus]
  · rw [hfault] at hout
    cases hout

/-- **Monotonic reads.** Every run of a client, whatever calls are made and whatever the system and
the peer do. -/
theorem client_monotonic (sha256 : List UInt8 → Identity) (c : Context)
    {state : Session × List Record} (h : (clients sha256 c).Reachable state) :
    MonotonicReads sha256 c state.1.wire state.2 := by
  have hinv := monitored_of_reachable h
  refine ⟨fun r hr reply hout => ?_, hinv.sequences, hinv.follows, hinv.present,
    fun request hrequest hop => (hinv.wire request hrequest).1.successor hop, ?_, ?_, hinv.silent⟩
  · obtain ⟨hsound, hc⟩ := hinv.sound r hr
    exact hsound.reply hc hout
  · intro r hr fault hfault
    rcases (hinv.sound r hr).1 with @⟨_, hout, -⟩ | @⟨f, hout, -⟩
    · rw [hfault] at hout
      cases hout
    · rw [hfault] at hout
      exact ⟨f, Except.error.inj hout⟩
  · intro r hr f hfault hsent
    rcases (hinv.sound r hr).1 with @⟨_, hout, -⟩ | @⟨f', hout, hrefused⟩
    · rw [hfault] at hout
      cases hout
    · obtain rfl : f = f' := by
        rw [hfault] at hout
        exact Fault.err.inj (Except.error.inj hout)
      rcases hrefused with ⟨request, hpeer, -, -, hwire, hend⟩ | ⟨hwire, -⟩
      · refine ⟨request, hwire, ?_⟩
        rcases hend with ⟨hrejected, hf, hclient⟩ | ⟨hrejected, he, hcustody, hclient⟩
        · refine ⟨fun _ => ⟨hf, ?_⟩, fun hnot => absurd hrejected hnot⟩
          rw [hclient]
          exact hpeer
        · refine ⟨fun hyes => absurd hyes hrejected, fun _ => ⟨he, hcustody, ?_⟩⟩
          rw [hclient]
          rfl
      · exact absurd hwire hsent

/-- An exchange without faults, in which the peer answers with the given bytes. -/
def Transport.answering (bytes : List UInt8) : Transport where
  deadline := true
  endpointBeforeSend := true
  writable := none
  sent := .whole
  endpointBeforeReceive := true
  readable := none
  received := .packet bytes
  endpointAfterReceive := true
  remaining := true

/-- A run of a client. -/
def runCalls (sha256 : List UInt8 → Identity) (c : Context) (calls : List (Op × Transport)) :
    Session × List Record :=
  calls.foldl (fun state call =>
    let result := (call.1.call sha256 call.2).exec state.1
    (result.2, state.2 ++ [⟨call.1, call.2, state.1, result.1, result.2⟩])) (⟨.admitted c, []⟩, [])

theorem reachable_runCalls (sha256 : List UInt8 → Identity) (c : Context)
    (calls : List (Op × Transport)) :
    (clients sha256 c).Reachable (runCalls sha256 c calls) := by
  induction calls using List.reverseRecOn with
  | nil => exact .init rfl
  | append_singleton calls call ih =>
    rw [runCalls, List.foldl_append]
    exact ih.step (a := call) rfl

/-- The packet of a response to a request, if both can be made. -/
def answer (request : Outcome ProtocolError Request) (status : Status) (head : Option Head) :
    Transport :=
  .answering (match request with
    | .ok request => (Response.new uniformDigest request status head).toOption.elim []
        Response.canonicalBytes
    | .error _ => [])

def firstHead : { head : Head // head.Valid } := ⟨uniformHead 1, valid_uniformHead (by decide)⟩

def secondHead : { head : Head // head.Valid } := ⟨uniformHead 2, valid_uniformHead (by decide)⟩

/-- A head is loaded and advanced, the next load is rejected, and one more load gets no answer. -/
def rejectedLoad : List (Op × Transport) :=
  [(.load, answer (Request.load uniformDigest uniformContext 1) .loaded (some firstHead.val)),
    (.compareAndAdvance firstHead secondHead, answer (Request.compareAndAdvance uniformDigest
      uniformContext 2 firstHead.val secondHead.val) .advanced (some secondHead.val)),
    (.load, answer (Request.load uniformDigest uniformContext 3) .rejected none),
    (.load, .answering [])]

def afterRejectedLoad : Session × List Record :=
  runCalls uniformDigest uniformContext rejectedLoad

theorem client_monotonic_rejectedLoad :
    afterRejectedLoad.2.map Record.outcome = [.ok (.head (some firstHead.val)), .ok (.done true),
      .error (.err ⟨.providerRejected, .retained⟩), .error (.err ⟨.peerClosed, .poisoned⟩)] ∧
    observedHeads afterRejectedLoad.2 = [firstHead.val, secondHead.val] ∧
    afterRejectedLoad.2.map (fun r => r.after.client.peer) = [true, true, true, false] ∧
    MonotonicReads uniformDigest uniformContext afterRejectedLoad.1.wire afterRejectedLoad.2 :=
  ⟨by decide +kernel, by decide +kernel, by decide +kernel,
    client_monotonic uniformDigest uniformContext (reachable_runCalls _ _ rejectedLoad)⟩

/-! ### A rejection keeps the endpoint -/

/-- The response to a request gets through. -/
theorem exchange_answering {request : Request} {status : Status} {head : Option Head}
    {response : Response} (hpeer : s.client.peer = true) (hr : request.Canonical sha256)
    (hhead : ∀ value ∈ head, value.Valid)
    (h : Response.new sha256 request status head = .ok response) :
    Runs s (exchange sha256 (.answering response.canonicalBytes) request)
      (fun received s' => received = response ∧ s' = { s with wire := s.wire ++ [request] })
      (fun _ _ => False) := by
  obtain ⟨hlength, hdecode, hmatches⟩ := Response.decode_new hr hhead h
  have hreceived : receiveCorrelatedResponse sha256 (.answering response.canonicalBytes) request =
      .ok response := by
    simp only [receiveCorrelatedResponse, receivePacket, Transport.answering, bind_eq_ok,
      failIf_eq_ok, mapErr_eq_ok]
    refine ⟨(), by simp, response.canonicalBytes, ⟨(), by simp [hlength, responseBytes], (),
      by simp [hlength], rfl⟩, (), by simp, (), by simp, response, hdecode, (), by simp [hmatches],
      rfl⟩
  rw [exchange]
  refine runs_get (runs_failIf (by simp [Transport.answering]) fun _ => ?_)
  rw [if_neg (by simp [hpeer])]
  refine runs_modify (runs_failIf (by simp [Transport.answering]) fun _ => ?_)
  refine Runs.bind (R := fun sent s' => sent = .ok () ∧
    s' = ⟨s.client.poison, s.wire ++ [request]⟩) (runs_modify (runs_pure ⟨rfl, rfl⟩)) ?_
  rintro sent s' - ⟨rfl, rfl⟩
  refine runs_query (ensures_mapErr (Q := fun received => received = response) ?_) ?_
  · rw [hreceived]
    exact ensures_pure.mpr rfl
  · rintro received - rfl
    refine runs_modify (runs_pure ⟨rfl, ?_⟩)
    rw [← hpeer]
    rfl

theorem loadHead_rejected {request : Request} {response : Response}
    (hpeer : s.client.peer = true)
    (hrequest : Request.load sha256 s.client.context s.client.nextRequestSequence = .ok request)
    (h : Response.new sha256 request .rejected none = .ok response) :
    Runs s (loadHead sha256 (.answering response.canonicalBytes)) (fun _ _ => False)
      (fun f s' => f = ⟨.providerRejected, .retained⟩ ∧
        s' = ⟨s.client.advance, s.wire ++ [request]⟩) := by
  have hr : request.Canonical sha256 := .of_new (by simp) (by simp) hrequest
  obtain ⟨-, hne, -, -⟩ := Request.new_eq_ok.mp hrequest
  have hstatus : response.status = .rejected := by
    obtain ⟨-, -, hresponse⟩ := bind_eq_ok.mp h
    obtain rfl := Except.ok.inj hresponse
    rfl
  rw [loadHead]
  refine Runs.bind (R := fun made s' => made = request ∧ s' = ⟨s.client.advance, s.wire⟩) ?_ ?_
  · rw [makeRequest, takeRequestSequence, bind_assoc]
    refine runs_get ?_
    rw [bind_assoc]
    refine runs_failIf (fun hzero => absurd hzero hne) fun _ => ?_
    rw [bind_assoc]
    refine runs_modify (runs_query_last (ensures_mapErr ?_))
    show Ensures (Request.load sha256 s.client.context s.client.nextRequestSequence) _ _
    rw [hrequest]
    exact ensures_ok.mpr ⟨rfl, rfl⟩
  · rintro made s' - ⟨rfl, rfl⟩
    refine ((exchange_answering (s := ⟨s.client.advance, s.wire⟩) hpeer hr (by simp) h).mono
      (fun _ _ _ h => h) fun _ _ _ h => h.elim).bind ?_
    rintro received s' - ⟨rfl, rfl⟩
    rw [hstatus]
    exact runs_fail ⟨rfl, rfl⟩

/-- Not every failure after a send gives the endpoint up: a call that the provider rejects keeps it,
whatever the digest is. -/
theorem rejection_keeps_endpoint :
    ¬ ∃ sha256 : List UInt8 → Identity, ∀ (c : Context) (state : Session × List Record),
      (clients sha256 c).Reachable state → ∀ r ∈ state.2, ∀ f, r.outcome = .error (.err f) →
        r.after.wire ≠ r.before.wire → r.after.client.peer = false := by
  rintro ⟨sha256, h⟩
  let start : Session := ⟨.admitted uniformContext, []⟩
  obtain ⟨request, hrequest⟩ :
      ∃ request, Request.load sha256 uniformContext 1 = .ok request :=
    ⟨_, Request.new_eq_ok.mpr ⟨by decide +kernel, by decide, by decide +kernel, rfl⟩⟩
  obtain ⟨response, hresponse⟩ : ∃ response, Response.new sha256 request .rejected none =
      .ok response := by
    obtain ⟨-, -, -, rfl⟩ := Request.new_eq_ok.mp hrequest
    exact ⟨_, rfl⟩
  let transport : Transport := .answering response.canonicalBytes
  have hrun : Runs start (Op.load.call sha256 transport) (fun _ _ => False)
      (fun f s' => f = ⟨.providerRejected, .retained⟩ ∧
        s' = ⟨start.client.advance, start.wire ++ [request]⟩) :=
    (loadHead_rejected (s := start) rfl hrequest hresponse).bind fun _ _ _ h => h.elim
  have hreach : (clients sha256 uniformContext).Reachable
      (((Op.load.call sha256 transport).exec start).2, [⟨.load, transport, start,
        ((Op.load.call sha256 transport).exec start).1,
        ((Op.load.call sha256 transport).exec start).2⟩]) :=
    .step (a := (.load, transport)) (.init rfl) rfl
  rcases hrun.cases with ⟨_, _, -, hfalse⟩ | ⟨f, s', hx, -, rfl⟩
  · exact hfalse
  · rw [hx] at hreach
    have hpeer := h _ _ hreach _ (List.mem_singleton_self _) f rfl (by simp [start])
    cases hpeer

end HeadStore

end Ferric
