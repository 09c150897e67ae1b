import Ferric.Cache.Model
import Ferric.Lib.Ring

/-!
# The engine's request lifecycle

`scheduler.rs`: a fixed number of request slots with four rings over them. Vacant slots wait in the
free ring. A dispatch moves ready requests into flight under the next epoch and appends them to the
member ring, with one record for the batch in the batch ring. A completion takes the oldest batch
off and hands out one permit for each of its members. Requests that retire while they are not in
flight wait in the reclaim ring.

## Conventions

* `Scheduler C` has the capacity `C` as a parameter, like the source. The slot array is a function;
  an index outside `C` is a panic. A ring is the three fields the source has for it.
* Every method checks before it writes. One that can fail returns the new scheduler in the success
  case only.
* The source writes the members of a batch with the ring length still as it was and adds their
  number at the end. Here each write is a push, which leaves the same ring.
* Generations are `u32` and epochs `u64`, as natural numbers with checked additions.
-/

namespace Ferric

namespace EngineCore

open Spec Cache

/-- `RequestState` -/
inductive RequestState where
  | vacant
  | ready
  | inFlight
  | retiring
  deriving DecidableEq

/-- `M1_MAX_ACTIVE_SEQUENCES` -/
def maxActiveSequences : ℕ := 32

/-- `NO_EPOCH` -/
def noEpoch : ℕ := 0

structure Slot where
  generation : ℕ
  state : RequestState
  activeEpoch : ℕ
  lastQuiescentEpoch : ℕ
  inFreeRing : Bool
  inReclaimRing : Bool
  deriving DecidableEq

/-- `Slot::INITIAL` -/
def Slot.initial : Slot where
  generation := 1
  state := .vacant
  activeEpoch := noEpoch
  lastQuiescentEpoch := noEpoch
  inFreeRing := true
  inReclaimRing := false

inductive KvQuiescenceOrigin where
  | neverSubmitted
  | completedExact (epoch : ℕ)
  deriving DecidableEq

/-- Authority over one request generation after quiescence. -/
structure KvQuiescencePermit where
  request : RequestId
  origin : KvQuiescenceOrigin
  deriving DecidableEq

/-- Cache evidence that a request was finalized. -/
structure KvFinalizedRequest where
  request : RequestId
  origin : KvQuiescenceOrigin

/-- Cache evidence that a request was released. -/
structure KvDetachedRequest where
  request : RequestId
  origin : KvQuiescenceOrigin

structure BatchRecord where
  epoch : ℕ
  memberCount : ℕ
  deriving DecidableEq

/-- `DispatchBatch` with the members that were written to the caller's slice. -/
structure DispatchBatch where
  epoch : ℕ
  members : List RequestId
  deriving DecidableEq

inductive SchedulerError where
  | zeroCapacity
  | capacityExceedsKvSlots
  | outOfSlots
  | emptyBatchStorage
  | completionStorageTooSmall
  | completionStorageNotEmpty
  | submissionEpochExhausted
  | invalidSlot
  | staleRequest
  | requestNotLive
  | alreadyRetiring
  | noPendingBatch
  | completionNotExactNext
  | completionEpochMismatch
  | finalizationMismatch
  | detachmentMismatch
  | generationExhausted
  | invariantViolation
  deriving DecidableEq

inductive M1ExactDispatchError where
  | faulted
  | emptyRoster
  | rosterTooLarge (maximum actual : ℕ)
  | duplicateRequest (firstLane lane : ℕ)
  | missingRequest (lane : ℕ) (request : RequestId)
  | requestNotReady (lane : ℕ) (request : RequestId) (state : RequestState)
  | submissionEpochExhausted
  | epochMismatch (expected actual : ℕ)
  | pendingBatchCapacityExhausted
  | pendingMemberCapacityExceeded (available actual : ℕ)
  deriving DecidableEq

structure Scheduler (C : ℕ) where
  slots : ℕ → Slot
  free : Ring ℕ
  reclaim : Ring ℕ
  members : Ring RequestId
  batches : Ring BatchRecord
  cursor : ℕ
  submitted : ℕ
  completed : ℕ
  liveCount : ℕ

namespace Scheduler

variable {C : ℕ}

/-- `Scheduler::new` -/
def new (C : ℕ) : Outcome SchedulerError (Scheduler C) := do
  failIf (C = 0) .zeroCapacity
  failIf (C > maxRequestSlots) .capacityExceedsKvSlots
  return {
    slots := fun _ => .initial
    free := ⟨id, 0, C⟩
    reclaim := ⟨fun _ => 0, 0, 0⟩
    members := ⟨fun _ => ⟨0, 0⟩, 0, 0⟩
    batches := ⟨fun _ => ⟨0, 0⟩, 0, 0⟩
    cursor := 0
    submitted := 0
    completed := 0
    liveCount := 0 }

variable (s : Scheduler C)

/-- `self.slots[index]` -/
def slotAt {ε : Type} (index : ℕ) : Outcome ε Slot :=
  orPanic (if index < C then some (s.slots index) else none)

/-- Replace one slot. -/
def setSlot (index : ℕ) (slot : Slot) : Scheduler C :=
  { s with slots := Function.update s.slots index slot }

/-- `state` -/
def state (request : RequestId) : Option RequestState :=
  if request.slot ≥ C then none
  else if (s.slots request.slot).generation = request.generation then
    match (s.slots request.slot).state with
    | .vacant => none
    | state => some state
  else none

/-- `admit` -/
def admitRequest : Outcome SchedulerError (RequestId × Scheduler C) := do
  failIf (s.free.len = 0) .outOfSlots
  let slotIndex := s.free.buf s.free.head
  let slot ← s.slotAt slotIndex
  let admitted := { s with free := s.free.pop C, liveCount := s.liveCount + 1 }
  return (⟨slotIndex, slot.generation⟩,
    admitted.setSlot slotIndex { slot with state := .ready, inFreeRing := false })

/-- `retire` -/
def retire (request : RequestId) : Outcome SchedulerError (Scheduler C) := do
  failIf (request.slot ≥ C) .invalidSlot
  let slot ← s.slotAt request.slot
  failIf (slot.generation ≠ request.generation) .staleRequest
  match slot.state with
  | .vacant => .error (.err .requestNotLive)
  | .retiring => .error (.err .alreadyRetiring)
  | .inFlight => return s.setSlot request.slot { slot with state := .retiring }
  | .ready =>
    let queued := { s with reclaim := s.reclaim.push C request.slot }
    return queued.setSlot request.slot { slot with
      state := .retiring
      activeEpoch := noEpoch
      inReclaimRing := true }

/-- `dispatch_one_selected`: the handle, and the scheduler with the slot in flight. -/
def dispatchOneSelected (slotIndex nextEpoch : ℕ) : RequestId × Scheduler C :=
  let slot := s.slots slotIndex
  let handle : RequestId := ⟨slotIndex, slot.generation⟩
  let listed := { s with members := s.members.push C handle }
  (handle, listed.setSlot slotIndex { slot with state := .inFlight, activeEpoch := nextEpoch })

/-- `dispatch_scan_commit`: the loop, by the number of slots still to scan. -/
def dispatchScan (limit nextEpoch : ℕ) : ℕ → ℕ → List RequestId → Scheduler C →
    List RequestId × ℕ × Scheduler C
  | 0, slotIndex, selected, s => (selected, slotIndex, s)
  | left + 1, slotIndex, selected, s =>
    if selected.length < limit then
      match (s.slots slotIndex).state with
      | .ready =>
        let (handle, s) := s.dispatchOneSelected slotIndex nextEpoch
        dispatchScan limit nextEpoch left (ringNext C slotIndex) (selected ++ [handle]) s
      | _ => dispatchScan limit nextEpoch left (ringNext C slotIndex) selected s
    else (selected, slotIndex, s)

/-- `dispatch_ready` into a slice of `outputLen` handles. -/
def dispatchReady (outputLen : ℕ) :
    Outcome SchedulerError (Option DispatchBatch × Scheduler C) := do
  failIf (outputLen = 0) .emptyBatchStorage
  let nextEpoch ← orErr .submissionEpochExhausted (checkedAdd 64 s.submitted 1)
  if s.batches.len = C ∨ s.members.len = C then return (none, s)
  let limit := min outputLen (C - s.members.len)
  let (selected, slotIndex, scanned) := dispatchScan limit nextEpoch C s.cursor [] s
  if selected.length = 0 then return (none, scanned)
  return (some ⟨nextEpoch, selected⟩, { scanned with
    batches := scanned.batches.push C ⟨nextEpoch, selected.length⟩
    cursor := slotIndex
    submitted := nextEpoch })

/-- One lane of the roster check of `dispatch_m1_exact_ready`. -/
def checkLane (requests : List RequestId) (request : RequestId) (lane : ℕ) :
    Outcome M1ExactDispatchError Unit :=
  match (requests.take lane).findIdx? fun first => first.slot = request.slot with
  | some firstLane => .error (.err (.duplicateRequest firstLane lane))
  | none =>
    match s.state request with
    | none => .error (.err (.missingRequest lane request))
    | some .ready => .ok ()
    | some state => .error (.err (.requestNotReady lane request state))

/-- One lane of `dispatch_exact_commit`. -/
def commitLane (nextEpoch : ℕ) (s : Scheduler C) (request : RequestId) :
    Outcome M1ExactDispatchError (Scheduler C) := do
  let slot ← s.slotAt request.slot
  let listed := { s with members := s.members.push C request }
  return listed.setSlot request.slot { slot with state := .inFlight, activeEpoch := nextEpoch }

/-- `dispatch_m1_exact_ready` -/
def dispatchM1ExactReady (expectedEpoch : ℕ) (requests : List RequestId) :
    Outcome M1ExactDispatchError (DispatchBatch × Scheduler C) := do
  failIf (requests.length = 0) .emptyRoster
  failIf (requests.length > maxActiveSequences)
    (.rosterTooLarge maxActiveSequences requests.length)
  let nextEpoch ← orErr .submissionEpochExhausted (checkedAdd 64 s.submitted 1)
  failIf (expectedEpoch ≠ nextEpoch) (.epochMismatch nextEpoch expectedEpoch)
  failIf (s.batches.len = C) .pendingBatchCapacityExhausted
  let available := C - s.members.len
  failIf (requests.length > available) (.pendingMemberCapacityExceeded available requests.length)
  requests.zipIdx.foldlM (fun _ lane => s.checkLane requests lane.1 lane.2) ()
  let committed ← requests.foldlM (commitLane nextEpoch) s
  return (⟨nextEpoch, requests⟩, { committed with
    batches := committed.batches.push C ⟨nextEpoch, requests.length⟩
    submitted := nextEpoch })

/-- `pending_batch_member_count` -/
def pendingBatchMemberCount : ℕ :=
  if s.batches.len = 0 then 0 else (s.batches.buf s.batches.head).memberCount

/-- `pending_member` -/
def pendingMember (offset : ℕ) : Option RequestId :=
  if s.batches.len = 0 ∨ offset ≥ (s.batches.buf s.batches.head).memberCount then none
  else some (s.members.buf (ringTail C s.members.head offset))

/-- `pending_retirement_ready` -/
def pendingRetirementReady (offset : ℕ) (request : RequestId) (epoch : ℕ) : Bool :=
  if s.pendingMember offset ≠ some request ∨ request.slot ≥ C then false
  else
    let slot := s.slots request.slot
    slot.generation = request.generation && slot.state = .retiring && slot.activeEpoch = epoch
      && !slot.inReclaimRing && slot.generation < u32Max

/-- One round of `completion_preflight`. -/
def checkMember (observed : ℕ) (permits : ℕ → Option KvQuiescencePermit) (offset : ℕ) :
    Outcome SchedulerError Unit := do
  failIf (permits offset).isSome .completionStorageNotEmpty
  let handle := s.members.buf (ringTail C s.members.head offset)
  failIf (handle.slot ≥ C) .invariantViolation
  let slot ← s.slotAt handle.slot
  failIf (slot.generation ≠ handle.generation ∨ slot.activeEpoch ≠ observed) .invariantViolation
  failIf (slot.state ≠ .inFlight ∧ slot.state ≠ .retiring) .invariantViolation

/-- The permits of the first `count` members of the ring. -/
def writePermits (observed count : ℕ) (permits : ℕ → Option KvQuiescencePermit) :
    ℕ → Option KvQuiescencePermit := fun offset =>
  if offset < count then
    some ⟨s.members.buf (ringTail C s.members.head offset), .completedExact observed⟩
  else permits offset

/-- `complete_exact` with storage for `permitsLen` permits. A failure returns the authority. -/
def completeExact (observed permitsLen : ℕ) (permits : ℕ → Option KvQuiescencePermit) :
    Outcome SchedulerError (ℕ × (ℕ → Option KvQuiescencePermit) × Scheduler C) := do
  failIf (s.batches.len = 0) .noPendingBatch
  let expected ← orErr .completionNotExactNext (checkedAdd 64 s.completed 1)
  failIf (observed ≠ expected) .completionNotExactNext
  let batch := s.batches.buf s.batches.head
  failIf (batch.epoch ≠ observed ∨ batch.memberCount = 0) .completionEpochMismatch
  failIf (permitsLen < batch.memberCount) .completionStorageTooSmall
  (List.range batch.memberCount).foldlM (fun _ offset => s.checkMember observed permits offset) ()
  return (batch.memberCount, s.writePermits observed batch.memberCount permits, { s with
    members := Ring.popMany C batch.memberCount s.members
    batches := s.batches.pop C
    completed := observed })

/-- `preflight_next_reincarnation` -/
def preflightNextReincarnation : Outcome SchedulerError RequestId := do
  failIf (s.reclaim.len = 0) .detachmentMismatch
  let slotIndex := s.reclaim.buf s.reclaim.head
  let slot ← s.slotAt slotIndex
  failIf (slot.generation = u32Max) .generationExhausted
  return ⟨slotIndex, slot.generation⟩

/-- `take_retiring_permit` -/
def takeRetiringPermit : Outcome SchedulerError (Option KvQuiescencePermit × Scheduler C) := do
  if s.reclaim.len = 0 then return (none, s)
  let slotIndex := s.reclaim.buf s.reclaim.head
  failIf (slotIndex ≥ C) .invariantViolation
  let slot ← s.slotAt slotIndex
  failIf (slot.state ≠ .retiring) .invariantViolation
  failIf (slot.activeEpoch ≠ noEpoch) .invariantViolation
  failIf (!slot.inReclaimRing) .invariantViolation
  let origin := if slot.lastQuiescentEpoch = noEpoch then .neverSubmitted
    else .completedExact slot.lastQuiescentEpoch
  let taken := { s with reclaim := s.reclaim.pop C }
  return (some ⟨⟨slotIndex, slot.generation⟩, origin⟩,
    taken.setSlot slotIndex { slot with inReclaimRing := false })

/-- `accept_finalized` -/
def acceptFinalized (finalized : KvFinalizedRequest) : Outcome SchedulerError (Scheduler C) := do
  let request := finalized.request
  let epoch ← match finalized.origin with
    | .completedExact epoch => .ok epoch
    | .neverSubmitted => .error (.err .finalizationMismatch)
  failIf (request.slot ≥ C) .invalidSlot
  let slot ← s.slotAt request.slot
  failIf (slot.generation ≠ request.generation) .finalizationMismatch
  failIf (slot.state ≠ .inFlight) .finalizationMismatch
  failIf (slot.activeEpoch = noEpoch) .finalizationMismatch
  failIf (slot.activeEpoch > s.completed) .finalizationMismatch
  failIf (slot.activeEpoch ≠ epoch) .finalizationMismatch
  return s.setSlot request.slot { slot with
    state := .ready
    activeEpoch := noEpoch
    lastQuiescentEpoch := epoch }

/-- `reclaim_next_generation` -/
def reclaimNextGeneration (slotIndex : ℕ) : Outcome SchedulerError ℕ := do
  let slot ← s.slotAt slotIndex
  failIf (slot.generation = u32Max) .generationExhausted
  orPanic (checkedAdd 32 slot.generation 1)

/-- Whether the evidence has the origin that the slot expects. -/
def originMatches (slot : Slot) : KvQuiescenceOrigin → Bool
  | .neverSubmitted => slot.activeEpoch = noEpoch && slot.lastQuiescentEpoch = noEpoch
  | .completedExact epoch =>
    (slot.activeEpoch ≠ noEpoch && slot.activeEpoch = epoch && epoch ≤ s.completed)
      || (slot.activeEpoch = noEpoch && slot.lastQuiescentEpoch = epoch)

/-- `reclaim_detached` -/
def reclaimDetached (detached : KvDetachedRequest) :
    Outcome SchedulerError (RequestId × Scheduler C) := do
  let request := detached.request
  failIf (request.slot ≥ C) .invalidSlot
  let slot ← s.slotAt request.slot
  failIf (slot.generation ≠ request.generation) .detachmentMismatch
  failIf (slot.state ≠ .retiring) .detachmentMismatch
  failIf (slot.inReclaimRing ∨ s.originMatches slot detached.origin = false) .detachmentMismatch
  let nextGeneration ← s.reclaimNextGeneration request.slot
  failIf (s.free.len = C) .invariantViolation
  let liveCount ← orPanic (checkedSub s.liveCount 1)
  let freed := { s with free := s.free.push C request.slot, liveCount := liveCount }
  return (request, freed.setSlot request.slot { Slot.initial with generation := nextGeneration })

/-- `reincarnate_detached`. The fallback for an exhausted generation is unreachable after
`preflight_next_reincarnation`. -/
def reincarnateDetached {ε : Type} (detached : KvDetachedRequest) :
    Outcome ε (RequestId × Scheduler C) := do
  let slotIndex := detached.request.slot
  let slot ← s.slotAt slotIndex
  let nextGeneration ←
    if slot.generation = u32Max then .ok 1 else orPanic (checkedAdd 32 slot.generation 1)
  return (⟨slotIndex, nextGeneration⟩, s.setSlot slotIndex { Slot.initial with
    generation := nextGeneration
    state := .ready
    inFreeRing := false })

end Scheduler

end EngineCore

end Ferric
