import Ferric.EngineCore.Scheduler
import Ferric.Lib.Action

/-!
# The engine

`system.rs`: the owner of a scheduler and a KV pool. Requests enter both together. Tokens are
appended and prefixes shared only for ready requests. An exact completion takes the oldest batch off
the scheduler and then settles its members one by one: a request still in flight is finalized in the
pool and made ready again, one that retired meanwhile is released and its slot reclaimed.

A failure in a place that the checks should have excluded faults the engine for good.

## Conventions

* Methods are actions: an error value comes with the engine that the call left behind.
* `ExactCompletion` is the epoch that it is evidence for. A failed completion carries it when the
  authority is given back.
-/

namespace Ferric

namespace EngineCore

open Spec Cache Ferric.Action

inductive EngineError where
  | faulted
  | completionResultCount (expected actual : ℕ)
  | requestNotReady
  | scheduler (error : SchedulerError)
  | kv (error : KvError)
  | invariantViolation
  deriving DecidableEq

/-- `CompletionFailure`: the authority is present when it was not consumed. -/
structure CompletionFailure where
  error : EngineError
  completion : Option ℕ
  deriving DecidableEq

/-- `KvAuthorityError`: the permit always comes back. -/
structure KvAuthorityError where
  error : KvError
  permit : KvQuiescencePermit

structure Engine (C : ℕ) where
  scheduler : Scheduler C
  kv : KvPool
  permits : ℕ → Option KvQuiescencePermit
  faulted : Bool

/-! ### The pool with permits -/

/-- `KvPool::resident_tokens` -/
def residentTokens (pool : KvPool) (request : RequestId) : Option ℕ :=
  if request.slot ≥ maxRequestSlots then none
  else
    let slot := pool.requests request.slot
    if slot.live && slot.generation = request.generation then some slot.residentTokens else none

/-- `KvPool::committed_tokens` -/
def committedTokens (pool : KvPool) (request : RequestId) : Option ℕ :=
  if request.slot ≥ maxRequestSlots then none
  else
    let slot := pool.requests request.slot
    if slot.live && slot.generation = request.generation then some slot.committedTokens else none

/-- Whether the permit stems from a completion. -/
def KvQuiescenceOrigin.isCompleted : KvQuiescenceOrigin → Bool
  | .neverSubmitted => false
  | .completedExact _ => true

/-- `KvPool::finalize_tentative` -/
def finalizeTentative (request : RequestId) (acceptedTokens : ℕ) (permit : KvQuiescencePermit) :
    Action KvPool KvAuthorityError KvFinalizedRequest := do
  Action.failIf (permit.request ≠ request ∨ permit.origin.isCompleted = false)
    ⟨.invalidQuiescencePermit, permit⟩
  let result ← onPart id (fun pool _ => pool) (finalizeTentativeKey request acceptedTokens)
  orThrow (fun error => ⟨error, permit⟩) result
  return ⟨request, permit.origin⟩

/-- `KvPool::release_request` -/
def releaseRequest (request : RequestId) (permit : KvQuiescencePermit) :
    Action KvPool KvAuthorityError KvDetachedRequest := do
  Action.failIf (permit.request ≠ request) ⟨.invalidQuiescencePermit, permit⟩
  let result ← onPart id (fun pool _ => pool) (releaseRequestKey request)
  orThrow (fun error => ⟨error, permit⟩) result
  return ⟨request, permit.origin⟩

namespace Engine

variable {C : ℕ}

/-- `Engine::new` -/
def new (C : ℕ) (pageCount pageTokens maxContextTokens : UInt32) :
    Outcome EngineError (Engine C) := do
  let scheduler ← mapErr .scheduler (Scheduler.new C)
  let kv ← mapErr .kv (KvPool.newBounded pageCount pageTokens maxContextTokens)
  return ⟨scheduler, kv, fun _ => none, false⟩

/-- `state` -/
def state (e : Engine C) (request : RequestId) : Option RequestState := e.scheduler.state request

/-- `require_healthy` -/
def requireHealthy : Action (Engine C) EngineError Unit := do
  Action.failIf (← get).faulted .faulted

/-- A call on the scheduler. -/
def onScheduler {ε α : Type} (op : Scheduler C → Outcome ε (α × Scheduler C)) {δ : Type} :
    Action (Engine C) δ (Except ε α) :=
  attempt (·.scheduler) (fun t e => { e with scheduler := t }) op

/-- A call on the pool. -/
def onKv {ε α : Type} (op : Action KvPool ε α) {δ : Type} : Action (Engine C) δ (Except ε α) :=
  onPart (·.kv) (fun t e => { e with kv := t }) op

/-- `self.faulted = true; return Err(error)` -/
def faultWith {ε α : Type} (error : ε) : Action (Engine C) ε α := do
  modify fun e => { e with faulted := true }
  fail error

/-- An error that the checks should have excluded. -/
def orFault {δ ε α : Type} (f : δ → ε) : Except δ α → Action (Engine C) ε α
  | .ok a => return a
  | .error e => faultWith (f e)

/-- `admit` -/
def admitRequest : Action (Engine C) EngineError RequestId := do
  requireHealthy
  let request ← orThrow .scheduler (← onScheduler (·.admitRequest))
  orFault .kv (← onKv (createRequestKey request))
  return request

/-- `append_tentative` -/
def appendTentative (request : RequestId) (tokenCount : ℕ) :
    Action (Engine C) EngineError Unit := do
  requireHealthy
  Action.failIf ((← get).state request ≠ some .ready) .requestNotReady
  orThrow .kv (← onKv (appendTentativeKey request tokenCount))

/-- `share_committed_prefix` -/
def shareCommittedPrefix (source target : RequestId) (tokenCount : ℕ) :
    Action (Engine C) EngineError Unit := do
  requireHealthy
  Action.failIf ((← get).state source ≠ some .ready) .requestNotReady
  Action.failIf ((← get).state target ≠ some .ready) .requestNotReady
  orThrow .kv (← onKv (shareCommittedPrefixKey source target tokenCount))

/-- `validate_read` -/
def validateRead (e : Engine C) (request : RequestId) (logicalOffset span : ℕ) :
    Outcome EngineError Unit := do
  failIf e.faulted .faulted
  mapErr .kv (e.kv.validateReadKey request logicalOffset span)

/-- `retire` -/
def retire (request : RequestId) : Action (Engine C) EngineError Unit := do
  requireHealthy
  orThrow .scheduler (← onScheduler (noReply (·.retire request)))

/-- `take_retiring_permit` in `reincarnate_next_retiring`, which has just found one. -/
def expectPermit : Except SchedulerError (Option KvQuiescencePermit) →
    Action (Engine C) EngineError KvQuiescencePermit
  | .ok (some permit) => return permit
  | .ok none => fail (.scheduler .invariantViolation)
  | .error _ => fail (.scheduler .invariantViolation)

/-- `reincarnate_next_retiring` -/
def reincarnateNextRetiring : Action (Engine C) EngineError RequestId := do
  requireHealthy
  let predecessor ← query fun e => mapErr .scheduler e.scheduler.preflightNextReincarnation
  let permit ← expectPermit (← onScheduler (·.takeRetiringPermit))
  let detached ← orFault (fun failure => .kv failure.error)
    (← onKv (releaseRequest predecessor permit))
  let successor ← orThrow id (← onScheduler (·.reincarnateDetached detached))
  orFault .kv (← onKv (createRequestKey successor))
  return successor

/-- The part of `reclaim_one` that has a permit. -/
def reclaimWith (permit : KvQuiescencePermit) : Action (Engine C) EngineError RequestId := do
  let detached ← orFault (fun failure => .kv failure.error)
    (← onKv (releaseRequest permit.request permit))
  orFault .scheduler (← onScheduler (·.reclaimDetached detached))

/-- `reclaim_one` -/
def reclaimOne : Action (Engine C) EngineError (Option RequestId) := do
  requireHealthy
  match ← orThrow .scheduler (← onScheduler (·.takeRetiringPermit)) with
  | none => return none
  | some permit => return some (← reclaimWith permit)

/-- `dispatch_ready` -/
def dispatchReady (outputLen : ℕ) : Action (Engine C) EngineError (Option DispatchBatch) := do
  requireHealthy
  orThrow .scheduler (← onScheduler (·.dispatchReady outputLen))

/-- `dispatch_m1_exact_ready` -/
def dispatchM1ExactReady (expectedEpoch : ℕ) (requests : List RequestId) :
    Action (Engine C) M1ExactDispatchError DispatchBatch := do
  Action.failIf (← get).faulted .faulted
  orThrow id (← onScheduler (·.dispatchM1ExactReady expectedEpoch requests))

/-! ### Completion -/

/-- The unsettled tokens of a request, as the completion checks compute them. -/
def tentativeTokens (e : Engine C) (request : RequestId) : Outcome EngineError ℕ := do
  let resident ← orErr .invariantViolation (residentTokens e.kv request)
  let committed ← orErr .invariantViolation (committedTokens e.kv request)
  orErr .invariantViolation (checkedSub resident committed)

/-- One member in `preflight_complete_exact`. -/
def preflightMember (e : Engine C) (epoch : ℕ) (acceptedTokens : List ℕ) (index : ℕ) :
    Outcome EngineError Unit := do
  let request ← orErr .invariantViolation (e.scheduler.pendingMember index)
  match e.scheduler.state request with
  | some .inFlight =>
    let tentative ← e.tentativeTokens request
    let accepted ← orPanic acceptedTokens[index]?
    failIf (accepted > tentative) (.kv .commitExceedsResident)
  | some .retiring =>
    failIf (!e.scheduler.pendingRetirementReady index request epoch)
      (if request.generation = u32Max then .scheduler .generationExhausted else .invariantViolation)
  | _ => .error (.err .invariantViolation)

/-- `preflight_complete_exact` -/
def preflightCompleteExact (e : Engine C) (epoch : ℕ) (acceptedTokens : List ℕ) :
    Outcome EngineError Unit := do
  failIf e.faulted .faulted
  let memberCount := e.scheduler.pendingBatchMemberCount
  failIf (acceptedTokens.length ≠ memberCount)
    (.completionResultCount memberCount acceptedTokens.length)
  failIf (memberCount = 0) (.scheduler .noPendingBatch)
  failIf (checkedAdd 64 e.scheduler.completed 1 ≠ some epoch) (.scheduler .completionNotExactNext)
  (List.range memberCount).foldlM (fun _ index => e.preflightMember epoch acceptedTokens index) ()

/-- `self.faulted = true; return Err(CompletionFailure::consumed(error))` -/
def consumedBy {α : Type} (error : EngineError) : Action (Engine C) CompletionFailure α :=
  faultWith ⟨error, none⟩

/-- One member in the check that `complete_exact` makes itself. -/
def recheckMember (completion : ℕ) (acceptedTokens : List ℕ) (index : ℕ) :
    Action (Engine C) CompletionFailure Unit := do
  let e ← get
  match e.scheduler.pendingMember index with
  | none => consumedBy .invariantViolation
  | some request =>
    if e.scheduler.state request = some .inFlight then
      match e.tentativeTokens request with
      | .ok tentative =>
        let accepted ← query fun _ => orPanic acceptedTokens[index]?
        Action.failIf (accepted > tentative) ⟨.kv .commitExceedsResident, some completion⟩
      | .error _ => consumedBy .invariantViolation

/-- `clear_permits` -/
def clearPermits : Action (Engine C) CompletionFailure Unit :=
  modify fun e => { e with permits := fun index => if index < C then none else e.permits index }

/-- A failure after the authority was consumed: fault, drop the remaining permits, report. -/
def abandon {α : Type} (error : EngineError) : Action (Engine C) CompletionFailure α := do
  modify fun e => { e with faulted := true }
  clearPermits
  fail ⟨error, none⟩

/-- A result that the settlement abandons on. -/
def orAbandon {δ α : Type} (f : δ → EngineError) :
    Except δ α → Action (Engine C) CompletionFailure α
  | .ok a => return a
  | .error e => abandon (f e)

/-- One member of the completed batch. -/
def settleMember (acceptedTokens : List ℕ) (index : ℕ) :
    Action (Engine C) CompletionFailure Unit := do
  match (← get).permits index with
  | none => abandon .invariantViolation
  | some permit =>
    modify fun e => { e with permits := Function.update e.permits index none }
    match (← get).scheduler.state permit.request with
    | some .inFlight =>
      let accepted ← query fun _ => orPanic acceptedTokens[index]?
      let finalized ← orAbandon (fun failure => .kv failure.error)
        (← onKv (finalizeTentative permit.request accepted permit))
      orAbandon .scheduler (← onScheduler (noReply (·.acceptFinalized finalized)))
    | some .retiring =>
      let detached ← orAbandon (fun failure => .kv failure.error)
        (← onKv (releaseRequest permit.request permit))
      let _ ← orFault (fun error => ⟨.scheduler error, none⟩)
        (← onScheduler (·.reclaimDetached detached))
    | _ => abandon .invariantViolation

/-- The loop over the completed members. -/
def settleMembers (acceptedTokens : List ℕ) : List ℕ → Action (Engine C) CompletionFailure Unit
  | [] => return ()
  | index :: rest => do
    settleMember acceptedTokens index
    settleMembers acceptedTokens rest

/-- The loop of checks before the authority is consumed. -/
def recheckMembers (completion : ℕ) (acceptedTokens : List ℕ) :
    List ℕ → Action (Engine C) CompletionFailure Unit
  | [] => return ()
  | index :: rest => do
    recheckMember completion acceptedTokens index
    recheckMembers completion acceptedTokens rest

/-- `Scheduler::complete_exact` into the permits of the engine. -/
def completeScheduler (completion : ℕ) : Action (Engine C) CompletionFailure ℕ := do
  let e ← get
  match e.scheduler.completeExact completion C e.permits with
  | .ok (count, permits, scheduler) =>
    set { e with scheduler := scheduler, permits := permits }
    return count
  | .error (.err error) => fail ⟨.scheduler error, some completion⟩
  | .error .panic => throw .panic
  | .error .diverge => throw .diverge

/-- `complete_exact` -/
def completeExact (completion : ℕ) (acceptedTokens : List ℕ) :
    Action (Engine C) CompletionFailure ℕ := do
  query fun e => mapErr (fun error => ⟨error, some completion⟩)
    (e.preflightCompleteExact completion acceptedTokens)
  let e ← get
  Action.failIf e.faulted ⟨.faulted, some completion⟩
  let memberCount := e.scheduler.pendingBatchMemberCount
  Action.failIf (acceptedTokens.length ≠ memberCount)
    ⟨.completionResultCount memberCount acceptedTokens.length, some completion⟩
  recheckMembers completion acceptedTokens (List.range memberCount)
  let completed ← completeScheduler completion
  settleMembers acceptedTokens (List.range completed)
  return completed

end Engine

end EngineCore

end Ferric
