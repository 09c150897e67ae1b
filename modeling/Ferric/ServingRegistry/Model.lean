import Ferric.Lib.Outcome
import Ferric.Spec.Plan
import Mathlib.Algebra.Order.Ring.Nat
import Mathlib.Data.List.MinMax

/-!
# The serving registry

`m1_serving_registry.rs`: which requests wait, which of them form the next homogeneous batch, and
what has to happen to the physical queue before that batch runs. A batch is planned, reserved,
recorded as published and completed; while it is reserved nothing else may change. A full
acceptance puts one draft-only maintenance step in front of the next batch, and a window whose
members all retired is replaced as a whole.

A call that fails leaves the registry as it is, so a call returns the registry it leaves only when
it succeeds. Epochs, reservation ids and dispatch generations are natural numbers below `2 ^ 64`;
where the source checks a sum, so does the model. A registry's identity is the value its
construction took from the process-wide counter.

## Main definitions

* `ServingPlan`, `BatchPlan`, `Registry`
* `planNext`, `reservePublication`, `recordPublication`, `completeExact` — the life of a batch
* `registerDraftCatchupKey`, `reserveDraftCatchupKey`, `completeDraftCatchupKey`,
  `reserveDraftCatchupRestoreKey` — the maintenance step
* `reserveCompletedWindowReplacement`, `restoreCompletedWindowReplacement`,
  `recordNewWindowPublication` — the replacement of a window
* `quiescentQueueAction`, `recordQuiescentQueueRetirement` — the queue between two batches
-/

namespace Ferric

namespace ServingRegistry

open Spec

/-- `M1_MAX_ACTIVE_SEQUENCES`, which is the capacity of an inline roster too. -/
def maxActiveSequences : ℕ := 32

/-- Addition in an unsigned type of `width` bits, cut off at the largest value. -/
def saturatingAdd (width a b : ℕ) : ℕ := min (a + b) (2 ^ width - 1)

/-- Why the registry rejects a call. -/
inductive RegistryError where
  | zeroCapacity
  | capacityExceedsM1
  | outOfSlots
  | duplicateRequest
  | unknownRequest
  | invalidRequest
  | invalidPlanPair
  | admissionRequiresPrefill
  | requestNotReady
  | cancellationAlreadyRequested
  | requestAlreadyRetired
  | transitionRequiresQuiescence
  | prefillMustAdvance
  | reversePrefillTransition
  | batchAlreadyInFlight
  | noBatchInFlight
  | completionEpochMismatch
  | completionRosterMismatch (lane : ℕ)
  | completionDispositionCount
  | queuePlanMismatch
  | queueTransitionUnsupported
  | readyWorkRequiresQueue
  | publicationReservationActive
  | publicationReservationRequired
  | publicationReservationMismatch
  | publicationReservationExhausted
  | newWindowPredecessorRequired
  | newWindowPredecessorNotCompleted (index : ℕ)
  | newWindowPredecessorPlanMismatch (index : ℕ)
  | newWindowPredecessorEpochMismatch (index : ℕ)
  | newWindowRosterEmpty
  | newWindowRosterExceedsPlan
  | newWindowRosterCountMismatch
  | newWindowRequestSlotMismatch (index : ℕ)
  | newWindowRequestGenerationMismatch (index : ℕ)
  | hostAllocation
  | registryIdentityExhausted
  | registryIdentityMismatch
  | draftCatchupWitnessRequired
  | draftCatchupPhaseMismatch
  deriving DecidableEq

/-! ### Plans -/

/-- `M1PhysicalFixedBatchShapeV1`, the shapes that plans have. -/
inductive FixedBatchShape where
  | targetOnly
  | pairedPrefill
  | speculativeK4
  | speculativeK8
  | speculativeK16
  deriving DecidableEq

/-- The shape of a target's plan, with the mode and the bucket its draft has to have. -/
def pairing : ExecutionMode → PlanBucket → Option (FixedBatchShape × ExecutionMode × PlanBucket)
  | .prefill, .prefillS1T128 => some (.pairedPrefill, .prefill, .prefillS1T128)
  | .prefill, .prefillS8T128 => some (.pairedPrefill, .prefill, .prefillS8T128)
  | .prefill, .prefillS1T512 => some (.pairedPrefill, .prefill, .prefillS1T512)
  | .prefill, .prefillS1T2048 => some (.pairedPrefill, .prefill, .prefillS1T2048)
  | .decode, .decodeS1C8192 => some (.targetOnly, .decode, .decodeS1C8192)
  | .decode, .decodeS8C8192 => some (.targetOnly, .decode, .decodeS8C8192)
  | .decode, .decodeS32C8192 => some (.targetOnly, .decode, .decodeS32C8192)
  | .speculative, .speculativeS1K4C8192 => some (.speculativeK4, .decode, .decodeS1C8192)
  | .speculative, .speculativeS8K4C8192 => some (.speculativeK4, .decode, .decodeS8C8192)
  | .speculative, .speculativeS1K8C8192 => some (.speculativeK8, .decode, .decodeS1C8192)
  | .speculative, .speculativeS1K16C8192 => some (.speculativeK16, .decode, .decodeS1C8192)
  | _, _ => none

/-- The checks of `M1ServingPlanV1::new`: the shape and the capacity of the plan. -/
def checkPair (target draft : PlanSelection) : Outcome RegistryError (FixedBatchShape × ℕ) := do
  failIf (target.role ≠ .target8B ∨ draft.role ≠ .draft06B ∨
    (target.bucket.dimensions target.role target.mode).isNone = true ∨
    (draft.bucket.dimensions draft.role draft.mode).isNone = true) .invalidPlanPair
  let (shape, draftMode, draftBucket) ← orErr .invalidPlanPair (pairing target.mode target.bucket)
  failIf (draft.mode ≠ draftMode ∨ draft.bucket ≠ draftBucket) .invalidPlanPair
  let dimensions ← orErr .invalidPlanPair (target.bucket.dimensions target.role target.mode)
  failIf (dimensions.sequences = 0 ∨ maxActiveSequences < dimensions.sequences) .invalidPlanPair
  return (shape, dimensions.sequences)

/-- The exact pair of plans of one homogeneous roster. -/
structure ServingPlan where
  target : PlanSelection
  draft : PlanSelection
  shape : FixedBatchShape
  sequenceCapacity : ℕ
  checked : checkPair target draft = .ok (shape, sequenceCapacity)
  deriving DecidableEq

namespace ServingPlan

/-- `M1ServingPlanV1::new` -/
def new (target draft : PlanSelection) : Outcome RegistryError ServingPlan :=
  match h : checkPair target draft with
  | .ok (shape, sequenceCapacity) => .ok ⟨target, draft, shape, sequenceCapacity, h⟩
  | .error e => .error e

def mode (plan : ServingPlan) : ExecutionMode := plan.target.mode

/-- `plan_priority`: prefill before decode before speculation. -/
def priority (plan : ServingPlan) : ℕ := match plan.mode with
  | .prefill => 0
  | .decode => 1
  | .speculative => 2

end ServingPlan

/-- Why a queue cannot be used again as it is. Only the mode ever is the reason. -/
inductive RolloverReason where
  | mode
  | shape
  | bucket
  deriving DecidableEq

/-- What has to happen to the physical queue before a roster runs. -/
inductive QueueAction where
  | freshLaunch
  | sameShapeRearm
  | quiescentDraftCatchup (parent : ServingPlan)
  | quiescentDraftCatchupRestore (parent : ServingPlan)
  | quiescentRollover (prior next : ServingPlan) (reason : RolloverReason)
  | quiescentNewWindow (prior next : ServingPlan)
  deriving DecidableEq

/-- A maintenance step or the return from one. -/
def QueueAction.isDraftCatchup : QueueAction → Bool
  | .quiescentDraftCatchup _ => true
  | .quiescentDraftCatchupRestore _ => true
  | _ => false

/-- What becomes of the queue while no batch is in flight. -/
inductive QuiescentQueueAction where
  | noQueue
  | retainForReadyWork (bound : ServingPlan)
  | retire (bound : ServingPlan)
  deriving DecidableEq

/-- `admit_m1_target_decode_rollover_transition_v1` -/
def admitTargetDecodeRollover (prior next : ServingPlan) : Option RolloverReason :=
  if prior.mode = .prefill ∧ prior.shape = .pairedPrefill ∧ prior.target.bucket = .prefillS1T128 ∧
      prior.sequenceCapacity = 1 ∧ next.mode = .decode ∧ next.shape = .targetOnly ∧
      next.target.bucket = .decodeS1C8192 ∧ next.draft.bucket = .decodeS1C8192 ∧
      next.sequenceCapacity = 1 then
    some .mode
  else none

/-- `admit_m1_production_rollover_transition_v1`, of which the plans are known. -/
def admitProductionRollover (prior next : ServingPlan) : Option RolloverReason :=
  match admitTargetDecodeRollover prior next with
  | some reason => some reason
  | none =>
    let buckets : Bool := match prior.target.bucket, next.target.bucket with
      | .prefillS1T128, .speculativeS1K4C8192 => true
      | .prefillS1T128, .speculativeS1K8C8192 => true
      | .prefillS1T128, .speculativeS1K16C8192 => true
      | .prefillS8T128, .speculativeS8K4C8192 => true
      | _, _ => false
    if buckets ∧ prior.mode = .prefill ∧ prior.shape = .pairedPrefill ∧
        next.mode = .speculative then
      some .mode
    else none

/-- `classify_queue_action` -/
def classifyQueueAction (prior : Option ServingPlan) (next : ServingPlan) :
    Outcome RegistryError QueueAction := match prior with
  | none => .ok .freshLaunch
  | some prior =>
    if prior = next then .ok .sameShapeRearm
    else do
      let reason ← orErr .queueTransitionUnsupported (admitProductionRollover prior next)
      return .quiescentRollover prior next reason

/-- `validate_plan_transition` -/
def validatePlanTransition (current next : ServingPlan) : Outcome RegistryError Unit := do
  failIf (current.mode ≠ .prefill ∧ next.mode = .prefill) .reversePrefillTransition
  failIf (current.mode = .prefill ∧ next.mode = .prefill) .prefillMustAdvance

/-! ### Entries, batches and tokens -/

/-- Where a retired member came to rest. -/
inductive Quiescence where
  | neverSubmitted
  | completed (epoch : ℕ)
  deriving DecidableEq

inductive RequestPhase where
  | ready
  | inFlight (epoch : ℕ)
  | cancellationPending (epoch : ℕ)
  | retired (quiescence : Quiescence)
  deriving DecidableEq

structure Entry where
  request : RequestId
  plan : ServingPlan
  phase : RequestPhase
  lastQuiescence : Option ℕ
  deriving DecidableEq

/-- How one member of a batch goes on. -/
inductive CompletionDisposition where
  | continue_ (next : ServingPlan)
  | retire
  deriving DecidableEq

/-- The roster of one physical generation. -/
structure BatchPlan where
  plan : ServingPlan
  requests : List RequestId
  epoch : ℕ
  action : QueueAction
  deriving DecidableEq

/-- The authority to publish one roster. -/
structure PublicationReservation where
  registryIdentity : ℕ
  id : ℕ
  batch : BatchPlan
  deriving DecidableEq

/-- The authority to replace one window, with the entries it takes the place of. -/
structure NewWindowReservation where
  prior : ServingPlan
  predecessors : List Entry
  requests : List RequestId
  publication : PublicationReservation
  deriving DecidableEq

/-- What a witness of a full acceptance says, as far as the registry compares it. -/
structure DraftCatchupKey where
  coordinator : ℕ
  parent : PlanSelection
  request : RequestId
  completedRound : ℕ
  priorEpoch : ℕ
  epoch : ℕ
  draftCommitted : ℕ
  targetCommitted : ℕ
  token : Token
  priorDispatchGeneration : ℕ
  deriving DecidableEq

/-- `valid_for` -/
def DraftCatchupKey.ValidFor (key : DraftCatchupKey) (plan : ServingPlan) : Prop :=
  key.parent = plan.target ∧
  plan.mode = .speculative ∧
  plan.sequenceCapacity = 1 ∧
  key.request.generation ≠ 0 ∧
  (checkedAdd 64 key.completedRound 1).isSome = true ∧
  key.priorEpoch ≠ 0 ∧
  checkedAdd 64 key.priorEpoch 1 = some key.epoch ∧
  key.priorDispatchGeneration ≠ 0 ∧
  (checkedAdd 64 key.priorDispatchGeneration 1).isSome = true ∧
  checkedAdd 32 key.draftCommitted 1 = some key.targetCommitted ∧
  key.targetCommitted ≤ maxContextTokens ∧
  key.token < vocabularySize

instance (key : DraftCatchupKey) (plan : ServingPlan) : Decidable (key.ValidFor plan) :=
  inferInstanceAs (Decidable (_ ∧ _))

inductive DraftCatchupPhase where
  | pending (key : DraftCatchupKey)
  | inFlight (key : DraftCatchupKey)
  | completed (key : DraftCatchupKey) (dispatchGeneration : ℕ)
  deriving DecidableEq

def DraftCatchupPhase.key : DraftCatchupPhase → DraftCatchupKey
  | .pending key => key
  | .inFlight key => key
  | .completed key _ => key

structure InFlightBatch where
  plan : ServingPlan
  requests : List RequestId
  epoch : ℕ
  deriving DecidableEq

structure ReservedBatch where
  id : ℕ
  plan : ServingPlan
  epoch : ℕ
  action : QueueAction
  draftCatchup : Option DraftCatchupKey
  deriving DecidableEq

/-- `M1ServingRegistryV1` -/
structure Registry (C : ℕ) where
  identity : ℕ
  entries : List Entry
  boundPlan : Option ServingPlan
  reservation : Option ReservedBatch
  inFlight : Option InFlightBatch
  draftCatchup : Option DraftCatchupPhase
  nextReservationId : ℕ
  submittedEpoch : ℕ
  completedEpoch : ℕ
  deriving DecidableEq

/-- Write an entry over the first one of its request. -/
def setEntry (entry : Entry) : List Entry → List Entry
  | [] => []
  | e :: rest => if e.request = entry.request then entry :: rest else e :: setEntry entry rest

/-- A member of the batch that goes into flight. -/
def publishEntry (requests : List RequestId) (epoch : ℕ) (entry : Entry) : Entry :=
  if entry.request ∈ requests then { entry with phase := .inFlight epoch } else entry

/-- What a member becomes when its batch completes. -/
def completeEntry (epoch : ℕ) (disposition : CompletionDisposition) (entry : Entry) : Entry :=
  match disposition with
  | .continue_ next => { entry with plan := next, phase := .ready, lastQuiescence := some epoch }
  | .retire =>
    { entry with phase := .retired (.completed epoch), lastQuiescence := some epoch }

/-- The loop of `apply_validated_completion` over the lanes that are left. -/
def applyDispositions (epoch : ℕ) :
    List (RequestId × CompletionDisposition) → List Entry → Outcome RegistryError (List Entry)
  | [], entries => .ok entries
  | (request, disposition) :: rest, entries => do
    let entry ← orPanic (entries.find? (·.request = request))
    applyDispositions epoch rest (setEntry (completeEntry epoch disposition entry) entries)

/-- `validate_completed_window_predecessor` -/
def validateCompletedWindowPredecessor (entry : Entry) (prior : ServingPlan) (completedEpoch : ℕ)
    (index : ℕ) : Outcome RegistryError Unit := do
  failIf (entry.plan ≠ prior) (.newWindowPredecessorPlanMismatch index)
  match entry.phase with
  | .retired (.completed epoch) =>
    failIf (epoch = 0 ∨ completedEpoch < epoch ∨ entry.lastQuiescence ≠ some epoch)
      (.newWindowPredecessorEpochMismatch index)
  | _ => .error (.err (.newWindowPredecessorNotCompleted index))

/-- The checks of one fresh request against the entry of its lane. -/
def validateSuccessor (request : RequestId) (predecessor : Entry) (index : ℕ) :
    Outcome RegistryError Unit := do
  failIf (request.generation = 0) .invalidRequest
  failIf (request.slot ≠ predecessor.request.slot) (.newWindowRequestSlotMismatch index)
  failIf (checkedAdd 32 predecessor.request.generation 1 ≠ some request.generation)
    (.newWindowRequestGenerationMismatch index)

namespace Registry

variable {C : ℕ}

/-- `new`, with the value of the process-wide counter of identities. -/
def new (C counter : ℕ) : Outcome RegistryError (Registry C) := do
  failIf (C = 0) .zeroCapacity
  failIf (maxActiveSequences < C) .capacityExceedsM1
  failIf ((checkedAdd 64 counter 1).isNone = true) .registryIdentityExhausted
  return ⟨counter, [], none, none, none, none, 1, 0, 0⟩

def entry (r : Registry C) (request : RequestId) : Option Entry :=
  r.entries.find? (·.request = request)

/-- The entry of the request is ready under the plan. -/
def ReadyUnder (r : Registry C) (request : RequestId) (plan : ServingPlan) : Prop :=
  ∃ entry, r.entry request = some entry ∧ entry.phase = .ready ∧ entry.plan = plan

instance (r : Registry C) (request : RequestId) (plan : ServingPlan) :
    Decidable (r.ReadyUnder request plan) :=
  match h : r.entry request with
  | none => isFalse fun hr => by
    obtain ⟨_, he, -⟩ := hr
    rw [h] at he
    cases he
  | some entry =>
    decidable_of_iff (entry.phase = .ready ∧ entry.plan = plan) (by simp [ReadyUnder, h])

/-- `reject_live_reservation` -/
def rejectLiveReservation (r : Registry C) : Outcome RegistryError Unit :=
  failIf (r.reservation.isSome = true) .publicationReservationActive

/-! ### Members -/

/-- `admit` -/
def admitRequest (r : Registry C) (request : RequestId) (prefill : ServingPlan) :
    Outcome RegistryError (Registry C) := do
  r.rejectLiveReservation
  failIf (request.generation = 0) .invalidRequest
  failIf (prefill.mode ≠ .prefill) .admissionRequiresPrefill
  failIf (∃ entry ∈ r.entries, entry.request = request) .duplicateRequest
  failIf (r.entries.length = C) .outOfSlots
  return { r with entries := r.entries ++ [⟨request, prefill, .ready, none⟩] }

def transition (r : Registry C) (request : RequestId) (next : ServingPlan) :
    Outcome RegistryError (Registry C) := do
  r.rejectLiveReservation
  failIf (r.draftCatchup.isSome = true) .draftCatchupPhaseMismatch
  let entry ← orErr .unknownRequest (r.entry request)
  failIf (entry.phase ≠ .ready ∨ entry.lastQuiescence = none) .transitionRequiresQuiescence
  validatePlanTransition entry.plan next
  return { r with entries := setEntry { entry with plan := next } r.entries }

/-- The phase an accepted cancellation leads to. -/
def cancelledPhase (entry : Entry) : Outcome RegistryError RequestPhase := match entry.phase with
  | .ready => .ok (.retired (entry.lastQuiescence.elim .neverSubmitted .completed))
  | .inFlight epoch => .ok (.cancellationPending epoch)
  | .cancellationPending _ => .error (.err .cancellationAlreadyRequested)
  | .retired _ => .error (.err .requestAlreadyRetired)

def cancel (r : Registry C) (request : RequestId) :
    Outcome RegistryError (RequestPhase × Registry C) := do
  r.rejectLiveReservation
  let entry ← orErr .unknownRequest (r.entry request)
  let phase ← cancelledPhase entry
  return (phase, { r with entries := setEntry { entry with phase := phase } r.entries })

def removeRetired (r : Registry C) (request : RequestId) :
    Outcome RegistryError (Quiescence × Registry C) := do
  r.rejectLiveReservation
  let index ← orErr .unknownRequest (r.entries.findIdx? (·.request = request))
  let entry ← orPanic r.entries[index]?
  match entry.phase with
  | .retired quiescence => return (quiescence, { r with entries := r.entries.eraseIdx index })
  | _ => .error (.err .requestNotReady)

/-! ### Planning -/

/-- `next_ready_plan` -/
def nextReadyPlan (r : Registry C) : Option ServingPlan :=
  let fallback := ((r.entries.filter (·.phase = .ready)).argmin (·.plan.priority)).map (·.plan)
  match r.draftCatchup with
  | none => fallback
  | some phase =>
    match (r.entry phase.key.request).filter
        fun entry => entry.phase = .ready ∧ entry.plan.target = phase.key.parent with
    | some entry => some entry.plan
    | none => fallback

/-- `ready_work_needs_bound_queue` -/
def readyWorkNeedsBoundQueue (r : Registry C) (bound : ServingPlan) : Bool :=
  match r.draftCatchup with
  | some phase =>
    phase.key.parent = bound.target ∧ r.ReadyUnder phase.key.request bound
  | none =>
    match r.nextReadyPlan with
    | some next => next = bound ∨ (admitProductionRollover bound next).isSome
    | none => false

/-- `classify_next_queue_action` -/
def classifyNextQueueAction (r : Registry C) (selected : ServingPlan) :
    Outcome RegistryError QueueAction :=
  let Parent (key : DraftCatchupKey) : Prop :=
    r.boundPlan = some selected ∧ key.parent = selected.target ∧ r.ReadyUnder key.request selected
  match r.draftCatchup with
  | none => classifyQueueAction r.boundPlan selected
  | some (.pending key) =>
    if Parent key then .ok (.quiescentDraftCatchup selected)
    else .error (.err .draftCatchupPhaseMismatch)
  | some (.completed key _) =>
    if Parent key then .ok (.quiescentDraftCatchupRestore selected)
    else .error (.err .draftCatchupPhaseMismatch)
  | some (.inFlight _) => .error (.err .draftCatchupPhaseMismatch)

/-- The requests of the ready entries of a plan that fit one batch, in entry order. -/
def readyRoster (r : Registry C) (plan : ServingPlan) : List RequestId :=
  ((r.entries.filter fun entry => entry.phase = .ready ∧ entry.plan = plan).take
    (min C plan.sequenceCapacity)).map (·.request)

/-- The roster of `plan_next`. -/
def nextRoster (r : Registry C) (selected : ServingPlan) :
    Outcome RegistryError (List RequestId) := do
  let requests ← match r.draftCatchup with
    | some phase => do
      failIf (¬ r.ReadyUnder phase.key.request selected) .draftCatchupPhaseMismatch
      pure [phase.key.request]
    | none => pure (r.readyRoster selected)
  failIf (maxActiveSequences < requests.length) .capacityExceedsM1
  return requests

def planNext (r : Registry C) : Outcome RegistryError (Option BatchPlan) := do
  r.rejectLiveReservation
  failIf (r.inFlight.isSome = true) .batchAlreadyInFlight
  match r.nextReadyPlan with
  | none => return none
  | some selected => do
    let requests ← r.nextRoster selected
    let epoch ← orErr .completionEpochMismatch (checkedAdd 64 r.submittedEpoch 1)
    let action ← r.classifyNextQueueAction selected
    return some ⟨selected, requests, epoch, action⟩

/-- `validate_ready_roster` -/
def validateReadyRoster (r : Registry C) (batch : BatchPlan) : Outcome RegistryError Unit :=
  match r.draftCatchup with
  | some phase =>
    failIf (batch.requests ≠ [phase.key.request] ∨ ¬ r.ReadyUnder phase.key.request batch.plan)
      .publicationReservationMismatch
  | none => do
    -- the loop stops at the first entry that the batch does not name next
    failIf (¬ r.readyRoster batch.plan <+: batch.requests) .publicationReservationMismatch
    failIf (r.readyRoster batch.plan = []) .requestNotReady
    failIf (batch.requests.length ≠ (r.readyRoster batch.plan).length)
      .publicationReservationMismatch

/-- `validate_next_batch` -/
def validateNextBatch (r : Registry C) (batch : BatchPlan) : Outcome RegistryError Unit := do
  let selected ← orErr .requestNotReady r.nextReadyPlan
  let epoch ← orErr .completionEpochMismatch (checkedAdd 64 r.submittedEpoch 1)
  let action ← r.classifyNextQueueAction selected
  failIf (batch.plan ≠ selected ∨ batch.epoch ≠ epoch ∨ batch.action ≠ action)
    .publicationReservationMismatch
  r.validateReadyRoster batch

/-! ### Reservations -/

/-- `reserve_validated_batch` -/
def reserveValidatedBatch (r : Registry C) (batch : BatchPlan)
    (draftCatchup : Option DraftCatchupKey) :
    Outcome RegistryError (PublicationReservation × Registry C) := do
  let followingId ← orErr .publicationReservationExhausted (checkedAdd 64 r.nextReservationId 1)
  let id := r.nextReservationId
  return (⟨r.identity, id, batch⟩,
    { r with
      reservation := some ⟨id, batch.plan, batch.epoch, batch.action, draftCatchup⟩
      nextReservationId := followingId })

def reservePublication (r : Registry C) (batch : BatchPlan) :
    Outcome RegistryError (PublicationReservation × Registry C) := do
  r.rejectLiveReservation
  failIf (r.inFlight.isSome = true) .batchAlreadyInFlight
  failIf (batch.action.isDraftCatchup = true) .draftCatchupWitnessRequired
  r.validateNextBatch batch
  r.reserveValidatedBatch batch none

/-- `validate_draft_catchup_ready_key` -/
def validateDraftCatchupReadyKey (r : Registry C) (parent : ServingPlan) (key : DraftCatchupKey) :
    Outcome RegistryError Unit :=
  failIf (¬ key.ValidFor parent ∨ r.boundPlan ≠ some parent ∨ r.submittedEpoch ≠ key.priorEpoch ∨
    r.completedEpoch ≠ key.priorEpoch ∨ ¬ r.ReadyUnder key.request parent ∨
    (r.entry key.request).bind (·.lastQuiescence) ≠ some key.priorEpoch) .draftCatchupPhaseMismatch

/-- `validate_draft_catchup_start` -/
def validateDraftCatchupStart (r : Registry C) (batch : BatchPlan) (key : DraftCatchupKey) :
    Outcome RegistryError Unit := do
  failIf (r.draftCatchup ≠ some (.pending key) ∨
    batch.action ≠ .quiescentDraftCatchup batch.plan ∨ batch.requests ≠ [key.request] ∨
    batch.epoch ≠ key.epoch) .draftCatchupPhaseMismatch
  r.validateDraftCatchupReadyKey batch.plan key

/-- `register_draft_catchup_key` -/
def registerDraftCatchupKey (r : Registry C) (key : DraftCatchupKey) :
    Outcome RegistryError (Registry C) := do
  r.rejectLiveReservation
  failIf (r.inFlight.isSome = true) .batchAlreadyInFlight
  failIf (r.draftCatchup.isSome = true) .draftCatchupPhaseMismatch
  let parent ← orErr .queuePlanMismatch r.boundPlan
  r.validateDraftCatchupReadyKey parent key
  return { r with draftCatchup := some (.pending key) }

/-- `reserve_draft_catchup_key` -/
def reserveDraftCatchupKey (r : Registry C) (batch : BatchPlan) (key : DraftCatchupKey) :
    Outcome RegistryError (PublicationReservation × Registry C) := do
  r.rejectLiveReservation
  failIf (r.inFlight.isSome = true) .batchAlreadyInFlight
  r.validateNextBatch batch
  r.validateDraftCatchupStart batch key
  r.reserveValidatedBatch batch (some key)

/-- `reserve_draft_catchup_restore_key` -/
def reserveDraftCatchupRestoreKey (r : Registry C) (batch : BatchPlan) (key : DraftCatchupKey)
    (dispatchGeneration : ℕ) : Outcome RegistryError (PublicationReservation × Registry C) := do
  r.rejectLiveReservation
  failIf (r.inFlight.isSome = true) .batchAlreadyInFlight
  failIf (r.draftCatchup ≠ some (.completed key dispatchGeneration) ∨
    batch.requests ≠ [key.request] ∨ batch.plan.target ≠ key.parent) .draftCatchupPhaseMismatch
  r.validateNextBatch batch
  r.reserveValidatedBatch batch none

/-- The match of `validate_reservation` on the action of the batch. -/
def validateReservedAction (r : Registry C) (live : ReservedBatch) (batch : BatchPlan) :
    Outcome RegistryError Unit := match batch.action with
  | .quiescentDraftCatchup parent => do
    let key ← orErr .draftCatchupWitnessRequired live.draftCatchup
    failIf (parent ≠ batch.plan) .draftCatchupPhaseMismatch
    r.validateDraftCatchupStart batch key
  | .quiescentDraftCatchupRestore parent =>
    match r.draftCatchup with
    | some (.completed key _) => do
      failIf (live.draftCatchup.isSome = true ∨ parent ≠ batch.plan ∨
        batch.requests ≠ [key.request]) .draftCatchupPhaseMismatch
      r.validateNextBatch batch
    | _ => .error (.err .draftCatchupPhaseMismatch)
  | _ =>
    failIf (live.draftCatchup.isSome = true ∨ r.draftCatchup.isSome = true)
      .draftCatchupPhaseMismatch

/-- `validate_reservation` -/
def validateReservation (r : Registry C) (reservation : PublicationReservation) :
    Outcome RegistryError Unit := do
  failIf (reservation.registryIdentity ≠ r.identity) .registryIdentityMismatch
  failIf (r.inFlight.isSome = true) .batchAlreadyInFlight
  let live ← orErr .publicationReservationRequired r.reservation
  let batch := reservation.batch
  failIf (live.id ≠ reservation.id ∨ live.plan ≠ batch.plan ∨ live.epoch ≠ batch.epoch ∨
    live.action ≠ batch.action) .publicationReservationMismatch
  failIf (batch.epoch ≠ saturatingAdd 64 r.submittedEpoch 1) .completionEpochMismatch
  r.validateReservedAction live batch
  r.validateReadyRoster batch

/-- `abort_publication` -/
def abortPublication (r : Registry C) (reservation : PublicationReservation) :
    Outcome RegistryError (Registry C) := do
  r.validateReservation reservation
  return { r with reservation := none }

/-- The registry with a batch in flight. -/
def launch (r : Registry C) (batch : BatchPlan) (entries : List Entry) : Registry C :=
  { r with
    entries := entries
    reservation := none
    submittedEpoch := batch.epoch
    boundPlan := some batch.plan
    inFlight := some ⟨batch.plan, batch.requests, batch.epoch⟩ }

/-- The maintenance phase that `record_publication` leaves. -/
def recordedPhase (r : Registry C) (action : QueueAction)
    (maintenanceKey : Option DraftCatchupKey) : Outcome RegistryError (Option DraftCatchupPhase) :=
  match action with
  | .quiescentDraftCatchup _ => do
    let key ← orPanic maintenanceKey
    return some (.inFlight key)
  | .quiescentDraftCatchupRestore _ => .ok none
  | _ => .ok r.draftCatchup

/-- `record_publication` -/
def recordPublication (r : Registry C) (reservation : PublicationReservation) :
    Outcome RegistryError (Registry C) := do
  r.validateReservation reservation
  let batch := reservation.batch
  let draftCatchup ← r.recordedPhase batch.action (r.reservation.bind (·.draftCatchup))
  return { r with draftCatchup := draftCatchup }.launch batch
    (r.entries.map (publishEntry batch.requests batch.epoch))

/-! ### Completion -/

/-- `apply_validated_completion` -/
def applyValidatedCompletion (r : Registry C) (epoch : ℕ)
    (dispositions : List CompletionDisposition) : Outcome RegistryError (Registry C) := do
  let inFlight ← orPanic r.inFlight
  let entries ← applyDispositions epoch (inFlight.requests.zip dispositions) r.entries
  return { r with inFlight := none, entries := entries, completedEpoch := epoch }

/-- The checks of `validate_completion_exact` on one lane. -/
def validateLane (r : Registry C) (inFlight : InFlightBatch) (epoch lane : ℕ)
    (request : RequestId) (disposition : CompletionDisposition) : Outcome RegistryError Unit := do
  let entry ← orErr (.completionRosterMismatch lane) (r.entry request)
  failIf ((entry.phase ≠ .inFlight epoch ∧ entry.phase ≠ .cancellationPending epoch) ∨
    entry.plan ≠ inFlight.plan) (.completionRosterMismatch lane)
  match disposition with
  | .continue_ next => do
    failIf (entry.phase = .cancellationPending epoch) .cancellationAlreadyRequested
    validatePlanTransition entry.plan next
  | .retire => return ()

/-- `validate_completion_exact` -/
def validateCompletionExact (r : Registry C) (epoch : ℕ)
    (dispositions : List CompletionDisposition) : Outcome RegistryError Unit := do
  r.rejectLiveReservation
  failIf (r.draftCatchup.isSome = true) .draftCatchupWitnessRequired
  let inFlight ← orErr .noBatchInFlight r.inFlight
  failIf (inFlight.epoch ≠ epoch ∨ epoch ≠ saturatingAdd 64 r.completedEpoch 1 ∨
    epoch ≠ r.submittedEpoch) .completionEpochMismatch
  failIf (dispositions.length ≠ inFlight.requests.length) .completionDispositionCount
  (inFlight.requests.zip dispositions).zipIdx.foldlM
    (fun _ lane => r.validateLane inFlight epoch lane.2 lane.1.1 lane.1.2) ()

/-- `preflight_completion_exact_for` -/
def preflightCompletionExactFor (r : Registry C) (identity epoch : ℕ)
    (dispositions : List CompletionDisposition) : Outcome RegistryError Unit := do
  failIf (identity ≠ r.identity) .registryIdentityMismatch
  r.validateCompletionExact epoch dispositions

/-- An exact completion: `preflight_completion_exact_for` and `apply_preflighted_completion`. -/
def completeExact (r : Registry C) (identity epoch : ℕ)
    (dispositions : List CompletionDisposition) : Outcome RegistryError (Registry C) := do
  r.preflightCompletionExactFor identity epoch dispositions
  r.applyValidatedCompletion epoch dispositions

/-- `validate_draft_catchup_completion` -/
def validateDraftCatchupCompletion (r : Registry C) (key : DraftCatchupKey)
    (dispatchGeneration : ℕ) : Outcome RegistryError CompletionDisposition := do
  r.rejectLiveReservation
  let inFlight ← orErr .noBatchInFlight r.inFlight
  failIf (r.draftCatchup ≠ some (.inFlight key) ∨ ¬ key.ValidFor inFlight.plan ∨
    checkedAdd 64 key.priorDispatchGeneration 1 ≠ some dispatchGeneration ∨
    inFlight.requests ≠ [key.request] ∨ inFlight.epoch ≠ key.epoch ∨
    r.boundPlan ≠ some inFlight.plan ∨ r.submittedEpoch ≠ key.epoch ∨
    r.completedEpoch ≠ key.priorEpoch) .draftCatchupPhaseMismatch
  let entry ← orErr .unknownRequest (r.entry key.request)
  failIf (entry.plan ≠ inFlight.plan ∨ entry.lastQuiescence ≠ some key.priorEpoch)
    .draftCatchupPhaseMismatch
  if entry.phase = .inFlight key.epoch then return .continue_ entry.plan
  else if entry.phase = .cancellationPending key.epoch then return .retire
  else .error (.err .draftCatchupPhaseMismatch)

/-- `complete_draft_catchup_key` -/
def completeDraftCatchupKey (r : Registry C) (key : DraftCatchupKey) (dispatchGeneration : ℕ) :
    Outcome RegistryError (Registry C) := do
  let disposition ← r.validateDraftCatchupCompletion key dispatchGeneration
  let r ← r.applyValidatedCompletion key.epoch [disposition]
  return { r with draftCatchup := some (.completed key dispatchGeneration) }

/-! ### The replacement of a window -/

/-- `reserve_completed_window_replacement_with_storage`, with the capacity of the storage. -/
def reserveCompletedWindowReplacementWithStorage (r : Registry C) (plan : ServingPlan)
    (requests : List RequestId) (capacity : ℕ) :
    Outcome RegistryError (NewWindowReservation × Registry C) := do
  r.rejectLiveReservation
  failIf (r.inFlight.isSome = true) .batchAlreadyInFlight
  failIf (r.draftCatchup.isSome = true) .draftCatchupPhaseMismatch
  let prior ← orErr .queuePlanMismatch r.boundPlan
  failIf (r.entries = []) .newWindowPredecessorRequired
  r.entries.zipIdx.foldlM
    (fun _ p => validateCompletedWindowPredecessor p.1 prior r.completedEpoch p.2) ()
  failIf (plan.mode ≠ .prefill) .admissionRequiresPrefill
  failIf (requests = []) .newWindowRosterEmpty
  failIf (C < requests.length ∨ plan.sequenceCapacity < requests.length)
    .newWindowRosterExceedsPlan
  failIf (requests.length ≠ r.entries.length) .newWindowRosterCountMismatch
  (requests.zip r.entries).zipIdx.foldlM (fun _ p => validateSuccessor p.1.1 p.1.2 p.2) ()
  failIf (r.submittedEpoch ≠ r.completedEpoch) .completionEpochMismatch
  let nextEpoch ← orErr .completionEpochMismatch (checkedAdd 64 r.submittedEpoch 1)
  let followingId ← orErr .publicationReservationExhausted (checkedAdd 64 r.nextReservationId 1)
  failIf (capacity < requests.length) .hostAllocation
  failIf (maxActiveSequences < requests.length) .newWindowRosterExceedsPlan
  let id := r.nextReservationId
  let action : QueueAction := .quiescentNewWindow prior plan
  return (⟨prior, r.entries, requests, ⟨r.identity, id, ⟨plan, requests, nextEpoch, action⟩⟩⟩,
    { r with
      reservation := some ⟨id, plan, nextEpoch, action, none⟩
      nextReservationId := followingId
      entries := requests.map fun request => ⟨request, plan, .ready, none⟩ })

/-- `reserve_completed_window_replacement`, where the host has the memory for the roster. -/
def reserveCompletedWindowReplacement (r : Registry C) (plan : ServingPlan)
    (requests : List RequestId) : Outcome RegistryError (NewWindowReservation × Registry C) :=
  r.reserveCompletedWindowReplacementWithStorage plan requests requests.length

/-- The checks of `validate_new_window_reservation` on one lane. -/
def validateWindowLane (reservation : NewWindowReservation) (entry : Entry) (request : RequestId)
    (lane : ℕ) : Outcome RegistryError Unit := do
  failIf (entry.request ≠ request ∨ entry.plan ≠ reservation.publication.batch.plan ∨
    entry.phase ≠ .ready ∨ entry.lastQuiescence.isSome = true) (.completionRosterMismatch lane)
  failIf (request.generation = 0) .invalidRequest
  let predecessor ← orPanic reservation.predecessors[lane]?
  failIf (request.slot ≠ predecessor.request.slot) (.newWindowRequestSlotMismatch lane)
  failIf (checkedAdd 32 predecessor.request.generation 1 ≠ some request.generation)
    (.newWindowRequestGenerationMismatch lane)

/-- `validate_new_window_reservation` -/
def validateNewWindowReservation (r : Registry C) (reservation : NewWindowReservation) :
    Outcome RegistryError Unit := do
  r.validateReservation reservation.publication
  let batch := reservation.publication.batch
  failIf (r.boundPlan ≠ some reservation.prior ∨
    batch.action ≠ .quiescentNewWindow reservation.prior batch.plan ∨
    reservation.predecessors = [] ∨ reservation.predecessors.length ≠ r.entries.length ∨
    r.entries.length ≠ batch.requests.length ∨ reservation.requests ≠ batch.requests ∨
    r.entries = [] ∨ C < r.entries.length ∨ batch.plan.sequenceCapacity < r.entries.length ∨
    batch.plan.mode ≠ .prefill) .publicationReservationMismatch
  reservation.predecessors.zipIdx.foldlM
    (fun _ p => validateCompletedWindowPredecessor p.1 reservation.prior r.completedEpoch p.2) ()
  (r.entries.zip batch.requests).zipIdx.foldlM
    (fun _ p => validateWindowLane reservation p.1.1 p.1.2 p.2) ()

/-- `restore_completed_window_replacement`: the plan and the roster go back to the caller. -/
def restoreCompletedWindowReplacement (r : Registry C) (reservation : NewWindowReservation) :
    Outcome RegistryError ((ServingPlan × List RequestId) × Registry C) := do
  r.validateNewWindowReservation reservation
  return ((reservation.publication.batch.plan, reservation.requests),
    { r with reservation := none, entries := reservation.predecessors })

/-- `record_new_window_publication` -/
def recordNewWindowPublication (r : Registry C) (reservation : NewWindowReservation) :
    Outcome RegistryError (Registry C) := do
  r.validateNewWindowReservation reservation
  let batch := reservation.publication.batch
  return r.launch batch
    (r.entries.map fun entry => { entry with phase := .inFlight batch.epoch })

/-! ### The queue between two batches -/

def quiescentQueueAction (r : Registry C) : Outcome RegistryError QuiescentQueueAction := do
  r.rejectLiveReservation
  failIf (r.inFlight.isSome = true) .batchAlreadyInFlight
  match r.boundPlan with
  | none => return .noQueue
  | some bound =>
    if r.readyWorkNeedsBoundQueue bound = true then return .retainForReadyWork bound
    else return .retire bound

/-- `record_quiescent_queue_retirement` -/
def recordQuiescentQueueRetirement (r : Registry C) (bound : ServingPlan) :
    Outcome RegistryError (Registry C) := do
  r.rejectLiveReservation
  failIf (r.inFlight.isSome = true) .batchAlreadyInFlight
  failIf (r.boundPlan ≠ some bound) .queuePlanMismatch
  failIf (r.readyWorkNeedsBoundQueue bound = true) .readyWorkRequiresQueue
  return { r with boundPlan := none, draftCatchup := none }

end Registry

end ServingRegistry

end Ferric
