import Ferric.Lib.Outcome
import Mathlib.Data.Fintype.Pi
import Mathlib.Data.List.FinRange
import Mathlib.Logic.Function.Basic

/-!
# The continuous scheduler

The host scheduler of `tp_scheduler.rs`. Up to thirty-two requests are retained in slots. A batch
is prepared from the requests that are ready: one row for a request that decodes, a run of prompt
rows for one that is still in prefill. Preparing a batch changes no request; completing it does.

## Conventions

* A call that fails leaves the scheduler unchanged: in the source every fallible check precedes
  the first assignment. The model returns the new scheduler in the success case only.
* The slot array is a function on `Fin 32`, and a slot number is a natural number until it has
  been checked against the array.
* Subtractions that would wrap and indices out of range are `orPanic`.
-/

namespace Ferric

namespace TpScheduler

/-- An input token of the model. -/
abbrev Token := ℕ

/-- Slot identity, invalidated by retirement followed by reuse. -/
structure RequestId where
  slot : ℕ
  generation : ℕ
  deriving DecidableEq

/-- Whether a row produces a publishable choice. -/
inductive RowKind where
  | prefillIntermediate
  | prefillFinal
  | decode
  deriving DecidableEq

/-- One causal input row. -/
structure BatchRow where
  request : RequestId
  tokenId : Token
  absolutePosition : ℕ
  kind : RowKind
  deriving DecidableEq

/-- The outstanding batch as the caller sees it. -/
structure ScheduledBatch where
  id : ℕ
  tick : ℕ
  preparedNs : ℕ
  rows : List BatchRow
  deriving DecidableEq

/-- One choice for a final prompt row or a decode row. -/
structure RowChoice where
  rowIndex : ℕ
  tokenId : Token
  deriving DecidableEq

/-- A committed output and its measurement event. -/
structure OutputEvent where
  request : RequestId
  outputIndex : ℕ
  tokenId : Token
  completedNs : ℕ
  finished : Bool
  deriving DecidableEq

/-- Logical state of a request. -/
inductive RequestState where
  | prefill
  | decode
  | completed
  | cancelled
  deriving DecidableEq

/-- A request to be admitted. -/
structure RequestAdmission where
  promptTokens : List Token
  maxNewTokens : ℕ
  cachedPrefixTokens : ℕ
  arrivalTick : ℕ
  arrivalNs : ℕ
  deriving DecidableEq

/-- Retained progress of a request. -/
structure RequestRecord where
  id : RequestId
  promptTokens : List Token
  maxNewTokens : ℕ
  cachedPrefixTokens : ℕ
  committedPosition : ℕ
  generatedTokens : List Token
  outputTimestampsNs : List ℕ
  arrivalTick : ℕ
  arrivalNs : ℕ
  cancelledNs : Option ℕ
  deriving DecidableEq

/-- The record of a request at its admission. -/
def RequestAdmission.record (admission : RequestAdmission) (id : RequestId) : RequestRecord where
  id := id
  promptTokens := admission.promptTokens
  maxNewTokens := admission.maxNewTokens
  cachedPrefixTokens := admission.cachedPrefixTokens
  committedPosition := admission.cachedPrefixTokens
  generatedTokens := []
  outputTimestampsNs := []
  arrivalTick := admission.arrivalTick
  arrivalNs := admission.arrivalNs
  cancelledNs := none

/-- The phase that a record's progress implies. -/
def RequestRecord.state (r : RequestRecord) : RequestState :=
  if r.cancelledNs.isSome then .cancelled
  else if r.generatedTokens.length = r.maxNewTokens then .completed
  else if r.committedPosition < r.promptTokens.length then .prefill
  else .decode

/-- Fail-closed scheduler errors. -/
inductive SchedulerError where
  | invalidConfiguration
  | invalidAdmission
  | atCapacity
  | generationOverflow
  | staleRequest
  | busy
  | staleBatch
  | poisoned
  | invalidBudget
  | invalidClock
  | batchOverflow
  | invalidChoices
  | invalidState
  deriving DecidableEq

/-- One slot: the generation of its last request, and the request if it is retained. -/
structure Slot where
  generation : ℕ
  request : Option RequestRecord
  deriving DecidableEq

/-- The outstanding batch, with the cursors its completion installs. -/
structure Pending where
  batch : ScheduledBatch
  decodeCursor : ℕ
  prefillCursor : ℕ
  singleRowPrefill : Bool
  deriving DecidableEq

/-- The scheduler. -/
structure Scheduler where
  vocabulary : ℕ
  contextLimit : ℕ
  maxRows : ℕ
  prefillChunk : ℕ
  slots : Fin 32 → Slot
  pending : Option Pending
  lastBatchId : ℕ
  lastTick : ℕ
  lastTimeNs : ℕ
  decodeCursor : ℕ
  prefillCursor : ℕ
  singleRowPrefill : Bool
  poisoned : Bool
  deriving DecidableEq

namespace Scheduler

/-! ### Construction -/

/-- An empty scheduler of at most `rowCapacity` rows a batch. -/
def newBounded (vocabulary contextLimit maxRows prefillChunk rowCapacity : ℕ) :
    Outcome SchedulerError Scheduler := do
  failIf (vocabulary = 0 ∨ ¬ (1 ≤ contextLimit ∧ contextLimit ≤ 8192) ∨
    ¬ (1 ≤ maxRows ∧ maxRows ≤ rowCapacity) ∨ ¬ (1 ≤ prefillChunk ∧ prefillChunk ≤ maxRows))
    .invalidConfiguration
  return { vocabulary, contextLimit, maxRows, prefillChunk
           slots := fun _ => ⟨0, none⟩
           pending := none
           lastBatchId := 0
           lastTick := 0
           lastTimeNs := 0
           decodeCursor := 0
           prefillCursor := 0
           singleRowPrefill := false
           poisoned := false }

/-- A scheduler of at most sixteen rows a batch. -/
def new (vocabulary contextLimit maxRows prefillChunk : ℕ) : Outcome SchedulerError Scheduler :=
  newBounded vocabulary contextLimit maxRows prefillChunk 16

/-- A scheduler of at most thirty-two rows a batch. -/
def newWide32 (vocabulary contextLimit maxRows prefillChunk : ℕ) :
    Outcome SchedulerError Scheduler :=
  newBounded vocabulary contextLimit maxRows prefillChunk 32

/-! ### Guards and lookups -/

/-- Reject a poisoned scheduler, then one with an outstanding batch. -/
def requireIdle (s : Scheduler) : Outcome SchedulerError Unit := do
  failIf (s.poisoned = true) .poisoned
  failIf (s.pending.isSome = true) .busy

/-- The outstanding batch, if it is the named one. -/
def pendingBatch (s : Scheduler) (batchId : ℕ) : Outcome SchedulerError Pending := do
  failIf (s.poisoned = true) .poisoned
  orErr .staleBatch (s.pending.filter fun pending => pending.batch.id = batchId)

/-- A slot number as an index of the slot array. -/
def slotIndex (slot : ℕ) : Option (Fin 32) := if h : slot < 32 then some ⟨slot, h⟩ else none

/-- The retained request of an identity. -/
def request (s : Scheduler) (id : RequestId) : Outcome SchedulerError RequestRecord :=
  orErr .staleRequest
    (((slotIndex id.slot).bind fun i => (s.slots i).request).filter fun r => r.id = id)

/-- Number of occupied slots. -/
def retainedRequests (s : Scheduler) : ℕ :=
  (List.finRange 32).countP fun i => (s.slots i).request.isSome

/-- Replace the request of a slot. -/
def setRequest (s : Scheduler) (i : Fin 32) (r : Option RequestRecord) : Scheduler :=
  { s with slots := Function.update s.slots i { s.slots i with request := r } }

/-! ### Admission -/

/-- The first vacant slot whose generation can still grow. -/
def vacantSlot (s : Scheduler) : Option (Fin 32) :=
  (List.finRange 32).find? fun i =>
    (s.slots i).request.isNone && decide ((s.slots i).generation < 2 ^ 64 - 1)

/-- Admit a request between batches (`admit`). -/
def admitRequest (s : Scheduler) (admission : RequestAdmission) (nowNs : ℕ) :
    Outcome SchedulerError (RequestId × Scheduler) := do
  s.requireIdle
  failIf (admission.arrivalNs > nowNs ∨ nowNs < s.lastTimeNs) .invalidClock
  failIf (admission.promptTokens.length ≥ 2 ^ 32) .invalidAdmission
  let promptLen := admission.promptTokens.length
  let totalPositions := (checkedAdd 32 promptLen admission.maxNewTokens).bind (checkedSub · 1)
  failIf (promptLen = 0 ∨ admission.maxNewTokens = 0 ∨ admission.cachedPrefixTokens ≥ promptLen ∨
    (totalPositions.all fun count => decide (count > s.contextLimit)) = true ∨
    (admission.promptTokens.any fun token => decide (token ≥ s.vocabulary)) = true)
    .invalidAdmission
  let i ← orErr (if (List.finRange 32).any fun i => (s.slots i).request.isNone then
    .generationOverflow else .atCapacity) s.vacantSlot
  let id : RequestId := ⟨i, (s.slots i).generation + 1⟩
  return (id, { s with
    slots := Function.update s.slots i ⟨id.generation, some (admission.record id)⟩
    lastTimeNs := nowNs })

/-! ### Preparing a batch -/

/-- The slots in some state, in the order of a rotating cursor. -/
def ready (s : Scheduler) (state : RequestState) (cursor tick nowNs : ℕ) : List (Fin 32) :=
  ((List.range 32).map fun offset => Fin.ofNat 32 (cursor + offset)).filter fun i =>
    (s.slots i).request.any fun r =>
      r.state = state ∧ r.arrivalTick ≤ tick ∧ r.arrivalNs ≤ nowNs

/-- The row of a request that decodes. -/
def decodeRow (s : Scheduler) (i : Fin 32) : Outcome SchedulerError BatchRow := do
  let r ← orErr .invalidState (s.slots i).request
  let token ← orErr .invalidState r.generatedTokens.getLast?
  return { request := r.id, tokenId := token, absolutePosition := r.committedPosition
           kind := .decode }

/-- One prompt row of a request. -/
def prefillRow (r : RequestRecord) (position : ℕ) : Outcome SchedulerError BatchRow := do
  let token ← orPanic r.promptTokens[position]?
  failIf (position ≥ 2 ^ 32) .invalidState
  return { request := r.id, tokenId := token, absolutePosition := position
           kind := if position + 1 = r.promptTokens.length then .prefillFinal
             else .prefillIntermediate }

/-- The prompt rows of the ready requests, until the budget is used up, and the cursor after
them. -/
def prefillLoop (s : Scheduler) (tokenBudget : ℕ) :
    List (Fin 32) → List BatchRow → ℕ → Outcome SchedulerError (List BatchRow × ℕ)
  | [], rows, cursor => .ok (rows, cursor)
  | i :: rest, rows, cursor => do
    let remaining ← orPanic (checkedSub tokenBudget rows.length)
    if remaining = 0 then
      return (rows, cursor)
    else
      let r ← orErr .invalidState (s.slots i).request
      let start := r.committedPosition
      let left ← orPanic (checkedSub r.promptTokens.length start)
      let chunk ← (List.range' start (min (min left remaining) s.prefillChunk)).mapM (prefillRow r)
      prefillLoop s tokenBudget rest (rows ++ chunk) ((i + 1) % 32)

/-- Rows granted to decoding: all of the budget, unless prefill waits too. -/
def decodeLimit (s : Scheduler) (tokenBudget : ℕ) (bothReady : Bool) : ℕ :=
  if bothReady then
    if tokenBudget = 1 then (if s.singleRowPrefill then 0 else 1) else tokenBudget - 1
  else tokenBudget

/-- Prepare exact causal rows without advancing any request. -/
def prepare (s : Scheduler) (tick nowNs tokenBudget : ℕ) :
    Outcome SchedulerError (Option ScheduledBatch × Scheduler) := do
  s.requireIdle
  failIf (¬ (1 ≤ tokenBudget ∧ tokenBudget ≤ s.maxRows)) .invalidBudget
  failIf (tick < s.lastTick ∨ nowNs < s.lastTimeNs) .invalidClock
  let decode := s.ready .decode s.decodeCursor tick nowNs
  let prefill := s.ready .prefill s.prefillCursor tick nowNs
  if decode = [] ∧ prefill = [] then
    return (none, { s with lastTick := tick, lastTimeNs := nowNs })
  else
    let id ← orErr .batchOverflow (checkedAdd 64 s.lastBatchId 1)
    let bothReady := !decode.isEmpty && !prefill.isEmpty
    let chosen := decode.take (s.decodeLimit tokenBudget bothReady)
    let decodeRows ← chosen.mapM s.decodeRow
    let nextDecodeCursor := chosen.getLast?.elim s.decodeCursor fun i => (i + 1) % 32
    let filled ← s.prefillLoop tokenBudget prefill decodeRows s.prefillCursor
    let batch : ScheduledBatch := { id, tick, preparedNs := nowNs, rows := filled.1 }
    return (some batch, { s with
      pending := some
        { batch
          decodeCursor := nextDecodeCursor
          prefillCursor := filled.2
          singleRowPrefill :=
            if bothReady ∧ tokenBudget = 1 then !s.singleRowPrefill else s.singleRowPrefill }
      lastBatchId := id
      lastTick := tick
      lastTimeNs := nowNs })

/-! ### Completing a batch -/

/-- Record one choice, rejecting a choice for an absent or intermediate row, a token outside the
vocabulary, and a second choice for a row. -/
def recordChoice (vocabulary : ℕ) (rows : List BatchRow) (byRow : List (Option Token))
    (choice : RowChoice) : Outcome SchedulerError (List (Option Token)) := do
  let row ← orErr .invalidChoices rows[choice.rowIndex]?
  let previous ← orPanic byRow[choice.rowIndex]?
  failIf (row.kind = .prefillIntermediate ∨ choice.tokenId ≥ vocabulary ∨ previous.isSome = true)
    .invalidChoices
  return byRow.set choice.rowIndex (some choice.tokenId)

/-- Advance one row, and publish its choice if it has one. -/
def completeRow (s : Scheduler) (byRow : List (Option Token)) (completedNs : ℕ)
    (acc : (Fin 32 → ℕ) × List OutputEvent) (entry : BatchRow × ℕ) :
    Outcome SchedulerError ((Fin 32 → ℕ) × List OutputEvent) := do
  let row := entry.1
  let r ← s.request row.request
  let slot ← orPanic (slotIndex row.request.slot)
  let expected ← orErr .invalidState (checkedAdd 32 r.committedPosition (acc.1 slot))
  failIf (row.absolutePosition ≠ expected ∨ expected ≥ s.contextLimit) .invalidState
  let advances := Function.update acc.1 slot (acc.1 slot + 1)
  if row.kind ≠ .prefillIntermediate then
    let choice ← orPanic byRow[entry.2]?
    let token ← orErr .invalidChoices choice
    failIf (r.generatedTokens.length ≥ 2 ^ 32) .invalidState
    let outputIndex := r.generatedTokens.length
    failIf (outputIndex ≥ r.maxNewTokens) .invalidState
    return (advances, acc.2 ++
      [{ request := row.request, outputIndex, tokenId := token, completedNs
         finished := outputIndex + 1 = r.maxNewTokens }])
  else
    return (advances, acc.2)

/-- What a completion does: how far each slot advances, and what is published. -/
def completionData (s : Scheduler) (batchId : ℕ) (choices : List RowChoice) (completedNs : ℕ) :
    Outcome SchedulerError ((Fin 32 → ℕ) × List OutputEvent) := do
  let pending ← s.pendingBatch batchId
  failIf (completedNs < pending.batch.preparedNs) .invalidClock
  let rows := pending.batch.rows
  let byRow ← choices.foldlM (recordChoice s.vocabulary rows) (List.replicate rows.length none)
  rows.zipIdx.foldlM (s.completeRow byRow completedNs) (fun _ => 0, [])

/-- Check a completion without performing it. -/
def validateCompletion (s : Scheduler) (batchId : ℕ) (choices : List RowChoice)
    (completedNs : ℕ) : Outcome SchedulerError Unit := do
  let _ ← s.completionData batchId choices completedNs
  return ()

/-- A record after a completion. -/
def advanceRecord (r : RequestRecord) (advance : ℕ) (events : List OutputEvent) : RequestRecord :=
  let own := events.filter fun event => event.request = r.id
  { r with
    committedPosition := r.committedPosition + advance
    generatedTokens := r.generatedTokens ++ own.map (·.tokenId)
    outputTimestampsNs := r.outputTimestampsNs ++ own.map (·.completedNs) }

/-- Commit all rows of the outstanding batch. -/
def complete (s : Scheduler) (batchId : ℕ) (choices : List RowChoice) (completedNs : ℕ) :
    Outcome SchedulerError (List OutputEvent × Scheduler) := do
  let (advances, events) ← s.completionData batchId choices completedNs
  let pending ← orErr .staleBatch s.pending
  return (events, { s with
    slots := fun i => { s.slots i with
      request := (s.slots i).request.map fun r => advanceRecord r (advances i) events }
    pending := none
    decodeCursor := pending.decodeCursor
    prefillCursor := pending.prefillCursor
    singleRowPrefill := pending.singleRowPrefill
    lastTick := pending.batch.tick
    lastTimeNs := completedNs })

/-! ### Ending a batch or a request otherwise -/

/-- Abandon a batch before any submission. -/
def abort (s : Scheduler) (batchId : ℕ) : Outcome SchedulerError Scheduler := do
  let _ ← s.pendingBatch batchId
  return { s with pending := none }

/-- Quarantine the scheduler after a submitted batch failed. -/
def fail (s : Scheduler) (batchId : ℕ) : Outcome SchedulerError Scheduler := do
  let _ ← s.pendingBatch batchId
  return { s with poisoned := true }

/-- Record a cancellation between batches. -/
def cancel (s : Scheduler) (id : RequestId) (nowNs : ℕ) : Outcome SchedulerError Scheduler := do
  s.requireIdle
  let r ← s.request id
  failIf (r.state = .completed ∨ r.state = .cancelled) .invalidState
  failIf (nowNs < r.arrivalNs ∨ nowNs < s.lastTimeNs) .invalidClock
  let i ← orPanic (slotIndex id.slot)
  let r ← orErr .staleRequest (s.slots i).request
  return { s.setRequest i (some { r with cancelledNs := some nowNs }) with lastTimeNs := nowNs }

/-- Remove a terminal record. -/
def retire (s : Scheduler) (id : RequestId) :
    Outcome SchedulerError (RequestRecord × Scheduler) := do
  s.requireIdle
  let r ← s.request id
  failIf (¬ (r.state = .completed ∨ r.state = .cancelled)) .invalidState
  let i ← orPanic (slotIndex id.slot)
  let r ← orErr .staleRequest (s.slots i).request
  return (r, s.setRequest i none)

end Scheduler

end TpScheduler

end Ferric
