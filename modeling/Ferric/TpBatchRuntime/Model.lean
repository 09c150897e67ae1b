import Ferric.Lib.Action
import Ferric.TpPaged.Model
import Ferric.TpScheduler.Model

/-!
# The batch runtime

Continuous request coordination over one resident group, as `tp_batch_runtime.rs` computes it. The
runtime owns a scheduler, a page pool and a GPU runner. One `step` schedules a batch, reserves its
pages, hands it to the runner, and commits it to the pool and to the scheduler only after the
runner has reported completion.

## Conventions

* The runner is a structure of functions over a state `γ`, one for each method of the trait that
  the runtime calls. Nothing is assumed about it here.
* Methods are `Action`s: a failed call leaves the state it has reached, as in the source. Errors of
  the source are texts; here each text is a constructor, with the values it prints as arguments.
* The completion clock is read once, after the runner has returned, so its value is an argument.
-/

namespace Ferric

namespace TpBatchRuntime

open TpPaged (PagedError PagedPool PageRow PreparedBatch SequenceId BatchCompletion)
open TpScheduler (SchedulerError Scheduler BatchRow RequestId RequestAdmission RequestRecord
  RowChoice ScheduledBatch OutputEvent Token)

/-- What the runner returns for a batch. -/
structure BatchOutput where
  choices : List Token
  completion : BatchCompletion
  deriving DecidableEq

/-- The GPU work boundary. -/
structure Runner (γ : Type) where
  bindDispatchRows : γ → PreparedBatch → List BatchRow → Except String Unit × γ
  abandonDispatchRows : γ → γ
  bindNumericalRows : γ → ℕ → List BatchRow → Except String Unit × γ
  rowCapacity : γ → ℕ
  executeBatch : γ → PreparedBatch → List ℕ → Except String BatchOutput × γ
  expectedDispatchCountsForSelection : γ → PreparedBatch → List ℕ → Except String (List ℕ)
  outputHeadRows : γ → ℕ → ℕ → ℕ
  dispatchCounts : γ → List ℕ
  close : γ → Except String Unit × γ

/-- Errors of the runtime, one constructor for each text. -/
inductive RuntimeError where
  /-- "batch runtime requires fresh state and matching physical row envelopes" -/
  | notFresh
  /-- "resident TP runtime is closed or poisoned" -/
  | closedOrPoisoned
  /-- "callers cannot assert initialized cached prefix tokens" -/
  | cachedPrefixAsserted
  /-- "page expiration: {e}" -/
  | pageExpiration (e : PagedError)
  /-- "page admission: {e}" -/
  | pageAdmission (e : PagedError)
  /-- "scheduler admission: {e}" -/
  | schedulerAdmission (e : SchedulerError)
  /-- "scheduler admission: {e}; page cancellation: {cancel}" -/
  | schedulerAdmissionCancel (e : SchedulerError) (cancel : PagedError)
  /-- "schedule: {e}" -/
  | schedule (e : SchedulerError)
  /-- "scheduler/page request binding is absent" -/
  | bindingAbsent
  /-- "page count overflow" -/
  | pageCountOverflow
  /-- "schedule abort: {e}" -/
  | scheduleAbort (e : SchedulerError)
  /-- "page reservation: {e}" -/
  | pageReservation (e : PagedError)
  /-- "dispatch preflight: {e}; abort={aborted}/{scheduledAbort}" -/
  | dispatchPreflight (e : String) (aborted : Except PagedError Unit)
      (scheduledAbort : Except SchedulerError Unit)
  /-- "begin page submission: {e}; abort={aborted}/{scheduledAbort}" -/
  | beginPageSubmission (e : PagedError) (aborted : Except PagedError Unit)
      (scheduledAbort : Except SchedulerError Unit)
  /-- An error text of the runner. -/
  | runner (e : String)
  /-- "GPU row count or completion clock drifted" -/
  | outputDrift
  /-- "rank dispatch roster drifted" -/
  | rosterDrift
  /-- "rank dispatch count regressed" -/
  | countRegressed
  /-- "rank did not complete the exact Qwen3-8B batch schedule" -/
  | inexactSchedule
  /-- "scheduler completion preflight: {e}" -/
  | completionPreflight (e : SchedulerError)
  /-- "page commit: {e}" -/
  | pageCommit (e : PagedError)
  /-- "scheduler completion: {e}" -/
  | schedulerCompletion (e : SchedulerError)
  /-- "cancel: {e}" -/
  | cancel (e : SchedulerError)
  /-- "request: {e}" -/
  | request (e : SchedulerError)
  /-- "only terminal requests can retire" -/
  | notTerminal
  /-- "cancel pages: {e}" -/
  | cancelPages (e : PagedError)
  /-- "retire pages: {e}" -/
  | retirePages (e : PagedError)
  /-- "retire request: {e}" -/
  | retireRequest (e : SchedulerError)

/-- A request admitted against initialized cached pages. -/
structure Admission where
  request : RequestId
  cachedTokens : ℕ
  cachedPages : ℕ
  deriving DecidableEq

/-- Rows and output events of one committed batch. -/
structure BatchReport where
  batchId : ℕ
  poolBatchId : ℕ
  rows : List BatchRow
  outputs : List OutputEvent
  startedNs : ℕ
  completedNs : ℕ
  rankDispatchCounts : List ℕ
  outputHeadRows : ℕ
  deriving DecidableEq

/-- Resident scheduler, page pool and GPU group. -/
structure Runtime (γ : Type) where
  gpu : γ
  pool : PagedPool
  scheduler : Scheduler
  bindings : List (RequestId × SequenceId)
  rowBudget : ℕ
  retainPrefixes : Bool
  worldSize : ℕ
  poisoned : Bool
  closed : Bool

/-- A method of the runtime. -/
abbrev RuntimeM (γ : Type) := Action (Runtime γ) RuntimeError

variable {γ α : Type}

/-- A call on the pool. -/
def onPool (op : PagedPool → Outcome PagedError (α × PagedPool)) :
    RuntimeM γ (Except PagedError α) :=
  Action.attempt Runtime.pool (fun pool rt => { rt with pool }) op

/-- A call on the scheduler. -/
def onScheduler (op : Scheduler → Outcome SchedulerError (α × Scheduler)) :
    RuntimeM γ (Except SchedulerError α) :=
  Action.attempt Runtime.scheduler (fun scheduler rt => { rt with scheduler }) op

/-- A call on the runner, which may change its state even when it fails. -/
def onGpu (op : γ → Except String α × γ) : RuntimeM γ (Except String α) := do
  let rt ← get
  modify fun rt' => { rt' with gpu := (op rt.gpu).2 }
  return (op rt.gpu).1

/-- `self.poisoned = true`. -/
def poison : RuntimeM γ Unit := modify fun rt => { rt with poisoned := true }

/-- The sequence bound to a request. -/
def sequenceOf (bindings : List (RequestId × SequenceId)) (id : RequestId) : Option SequenceId :=
  (bindings.find? fun binding => binding.1 = id).map (·.2)

/-- The pool's rows for the scheduler's rows. -/
def pageRows (bindings : List (RequestId × SequenceId)) (rows : List BatchRow) :
    Option (List PageRow) :=
  rows.mapM fun row => (sequenceOf bindings row.request).map fun sequence =>
    { sequence, token := row.tokenId, position := row.absolutePosition }

/-- Indices of the rows that publish a choice. -/
def outputRows (rows : List BatchRow) : List ℕ :=
  (rows.zipIdx.filter fun entry => entry.1.kind ≠ .prefillIntermediate).map (·.2)

/-- The choices for the rows at these indices. -/
def rowChoices (indices : List ℕ) (tokens : List Token) : List RowChoice :=
  (indices.zip tokens).map fun choice => { rowIndex := choice.1, tokenId := choice.2 }

namespace Runtime

/-- Reject a closed or poisoned runtime. -/
def requireReady : RuntimeM γ Unit := do
  let rt ← get
  Action.failIf (rt.closed ∨ rt.poisoned) .closedOrPoisoned

section Construction

variable (R : Runner γ)

/-- Join a fresh pool and scheduler with a runner. -/
def newBounded (gpu : γ) (pool : PagedPool) (scheduler : Scheduler) (rowBudget : ℕ)
    (retainPrefixes : Bool) (rowCapacity : ℕ) : Outcome RuntimeError (Runtime γ) := do
  let counts := R.dispatchCounts gpu
  failIf (pool.isEmpty = false ∨ scheduler.retainedRequests ≠ 0 ∨ scheduler.poisoned = true ∨
    ¬ (1 ≤ rowBudget ∧ rowBudget ≤ rowCapacity) ∨ pool.rowCapacity ≠ rowCapacity ∨
    R.rowCapacity gpu ≠ rowCapacity ∨ scheduler.contextLimit ≠ pool.limits.contextTokens ∨
    rowBudget > scheduler.maxRows ∨
    ¬ (counts.length = 1 ∨ counts.length = 2 ∨ counts.length = 8) ∨
    (counts.any fun count => count ≠ 0) = true) .notFresh
  return { gpu, pool, scheduler, bindings := [], rowBudget, retainPrefixes
           worldSize := counts.length, poisoned := false, closed := false }

/-- A runtime of at most sixteen rows a batch. -/
def new (gpu : γ) (pool : PagedPool) (scheduler : Scheduler) (rowBudget : ℕ)
    (retainPrefixes : Bool) : Outcome RuntimeError (Runtime γ) :=
  newBounded R gpu pool scheduler rowBudget retainPrefixes 16

/-- A runtime of at most thirty-two rows a batch. -/
def newWide32 (gpu : γ) (pool : PagedPool) (scheduler : Scheduler) (rowBudget : ℕ)
    (retainPrefixes : Bool) : Outcome RuntimeError (Runtime γ) :=
  newBounded R gpu pool scheduler rowBudget retainPrefixes 32

end Construction

/-! ### Admission, cancellation and retirement -/

/-- Admit a request between batches. -/
def admitRequest (admission : RequestAdmission) (tick nowNs : ℕ) : RuntimeM γ Admission := do
  requireReady
  Action.failIf (admission.cachedPrefixTokens ≠ 0) .cachedPrefixAsserted
  let expired ← onPool fun pool => pool.expire tick
  Action.orThrow .pageExpiration expired
  let opened ← onPool fun pool => pool.openSequence pool.scope admission.promptTokens tick
  let hit ← Action.orThrow .pageAdmission opened
  let admitted ← onScheduler fun scheduler =>
    scheduler.admitRequest { admission with cachedPrefixTokens := hit.hitTokens } nowNs
  match admitted with
  | .ok request => do
    modify fun rt => { rt with bindings := rt.bindings ++ [(request, hit.sequence)] }
    return { request, cachedTokens := hit.hitTokens, cachedPages := hit.pages.length }
  | .error error => do
    let cancelled ← onPool fun pool => pool.cancelSequence hit.sequence
    match cancelled with
    | .error cancel => do
      poison
      Action.fail (.schedulerAdmissionCancel error cancel)
    | .ok () => Action.fail (.schedulerAdmission error)

/-- Cancel an idle request. -/
def cancel (request : RequestId) (nowNs : ℕ) : RuntimeM γ Unit := do
  requireReady
  let cancelled ← onScheduler (Action.noReply fun scheduler => scheduler.cancel request nowNs)
  Action.orThrow .cancel cancelled

/-- Release the pages of a terminal request: a cancelled one publishes no prefix. -/
def release (sequence : SequenceId) (cancelled : Bool) (tick : ℕ) : RuntimeM γ Unit := do
  if cancelled then
    let released ← onPool fun pool => pool.cancelSequence sequence
    Action.orThrow .cancelPages released
  else
    let rt ← get
    let released ← onPool fun pool => pool.retireSequence sequence rt.retainPrefixes tick
    Action.orThrow .retirePages released

/-- Release a terminal request. -/
def retire (request : RequestId) (tick : ℕ) : RuntimeM γ RequestRecord := do
  requireReady
  let looked ← onScheduler fun scheduler => do return (← scheduler.request request, scheduler)
  let record ← Action.orThrow .request looked
  Action.failIf (¬ (record.state = .completed ∨ record.state = .cancelled)) .notTerminal
  let rt ← get
  match sequenceOf rt.bindings request with
  | none => Action.fail .bindingAbsent
  | some sequence => do
    release sequence (record.state = .cancelled) tick
    let retired ← onScheduler fun scheduler => scheduler.retire request
    match retired with
    | .ok record => do
      modify fun rt => { rt with
        bindings := rt.bindings.filter fun binding => binding.1 ≠ request }
      return record
    | .error error => do
      poison
      Action.fail (.retireRequest error)

/-! ### One step -/

/-- Reserve rows. When pages run out, evict as many as the whole batch needs and try once more. -/
def reserveRows (rows : List PageRow) : RuntimeM γ (Except PagedError PreparedBatch) := do
  let first ← onPool fun pool => pool.reserveBatch rows
  match first with
  | .error .outOfPages => do
    let needed := rows.countP fun row => row.position % 16 = 0
    Action.failIf (needed ≥ 2 ^ 32) .pageCountOverflow
    let evicted ← onPool fun pool => pool.evictUnused needed
    match evicted with
    | .ok () => onPool fun pool => pool.reserveBatch rows
    | .error error => return .error error
  | result => return result

/-- Schedule and reserve a batch, halving the token budget while pages run out. -/
def reserveLoop (tick nowNs : ℕ) : ℕ → ℕ → RuntimeM γ (Option (ScheduledBatch × PreparedBatch))
  | 0, _ => throw .diverge
  | fuel + 1, budget => do
    let prepared ← onScheduler fun scheduler => scheduler.prepare tick nowNs budget
    match ← Action.orThrow .schedule prepared with
    | none => return none
    | some scheduled => do
      let rt ← get
      match pageRows rt.bindings scheduled.rows with
      | none => do
        poison
        let _ ← onScheduler (Action.noReply fun scheduler => scheduler.abort scheduled.id)
        Action.fail .bindingAbsent
      | some rows => do
        match ← reserveRows rows with
        | .ok prepared => return some (scheduled, prepared)
        | .error error => do
          let aborted ← onScheduler (Action.noReply fun scheduler => scheduler.abort scheduled.id)
          Action.orThrow .scheduleAbort aborted
          if error = .outOfPages ∧ budget > 1 then
            reserveLoop tick nowNs fuel (max (budget / 2) 1)
          else
            Action.fail (.pageReservation error)

variable (R : Runner γ)

/-- Bind the rows and compute the expected dispatch counts. -/
def preflight (scheduled : ScheduledBatch) (prepared : PreparedBatch) :
    RuntimeM γ (Except String (List ℕ)) := do
  let bound ← onGpu fun gpu => R.bindDispatchRows gpu prepared scheduled.rows
  match bound with
  | .error error => return .error error
  | .ok () => do
    let rt ← get
    return R.expectedDispatchCountsForSelection rt.gpu prepared (outputRows scheduled.rows)

/-- Undo an unsubmitted batch on both sides. -/
def rollback (scheduled : ScheduledBatch) (prepared : PreparedBatch) :
    RuntimeM γ (Except PagedError Unit × Except SchedulerError Unit) := do
  modify fun rt => { rt with gpu := R.abandonDispatchRows rt.gpu }
  let aborted ← onPool (Action.noReply fun pool => pool.abortBatch prepared)
  let scheduledAbort ← onScheduler (Action.noReply fun scheduler => scheduler.abort scheduled.id)
  match aborted, scheduledAbort with
  | .ok (), .ok () => return (aborted, scheduledAbort)
  | _, _ => do
    poison
    return (aborted, scheduledAbort)

/-- Increments of the dispatch counts, rank by rank. -/
def dispatchIncrements (before after : List ℕ) : Option (List ℕ) :=
  (after.zip before).mapM fun counts => checkedSub counts.1 counts.2

/-- Execute a submitted batch and commit it to the pool and to the scheduler. -/
def commit (nowNs completedNs : ℕ) (scheduled : ScheduledBatch) (prepared : PreparedBatch)
    (before expected : List ℕ) (outputHeadRows : ℕ) : RuntimeM γ BatchReport := do
  let bound ← onGpu fun gpu => R.bindNumericalRows gpu scheduled.id scheduled.rows
  Action.orThrow .runner bound
  let executed ← onGpu fun gpu => R.executeBatch gpu prepared (outputRows scheduled.rows)
  let output ← Action.orThrow .runner executed
  Action.failIf (output.choices.length ≠ (outputRows scheduled.rows).length ∨ completedNs < nowNs)
    .outputDrift
  let choices := rowChoices (outputRows scheduled.rows) output.choices
  let rt ← get
  let after := R.dispatchCounts rt.gpu
  Action.failIf (before.length ≠ rt.worldSize ∨ after.length ≠ rt.worldSize) .rosterDrift
  match dispatchIncrements before after with
  | none => Action.fail .countRegressed
  | some rankDispatchCounts => do
    Action.failIf (expected.length ≠ rt.worldSize ∨ rankDispatchCounts ≠ expected) .inexactSchedule
    let validated ← onScheduler fun scheduler => do
      return (← scheduler.validateCompletion scheduled.id choices completedNs, scheduler)
    Action.orThrow .completionPreflight validated
    let committed ← onPool (Action.noReply fun pool => pool.commitBatch prepared output.completion)
    Action.orThrow .pageCommit committed
    let completed ← onScheduler fun scheduler =>
      scheduler.complete scheduled.id choices completedNs
    let outputs ← Action.orThrow .schedulerCompletion completed
    return { batchId := scheduled.id, poolBatchId := prepared.id, rows := scheduled.rows, outputs
             startedNs := nowNs, completedNs, rankDispatchCounts, outputHeadRows }

/-- Hand a reserved batch to the runner. A failure after submission stops reuse permanently. -/
def submit (nowNs completedNs : ℕ) (scheduled : ScheduledBatch) (prepared : PreparedBatch) :
    RuntimeM γ BatchReport := do
  let rt ← get
  let before := R.dispatchCounts rt.gpu
  match ← preflight R scheduled prepared with
  | .error error => do
    let undone ← rollback R scheduled prepared
    Action.fail (.dispatchPreflight error undone.1 undone.2)
  | .ok expected => do
    let rt ← get
    let outputHeadRows :=
      R.outputHeadRows rt.gpu scheduled.rows.length (outputRows scheduled.rows).length
    let begun ← onPool (Action.noReply fun pool => pool.beginSubmission prepared)
    match begun with
    | .error error => do
      let undone ← rollback R scheduled prepared
      Action.fail (.beginPageSubmission error undone.1 undone.2)
    | .ok () =>
      Action.handle (commit R nowNs completedNs scheduled prepared before expected outputHeadRows)
        fun error => do
          modify fun rt => { rt with gpu := R.abandonDispatchRows rt.gpu, poisoned := true }
          let _ ← onPool (Action.noReply fun pool => pool.quarantineBatch prepared)
          let _ ← onScheduler (Action.noReply fun scheduler => scheduler.fail scheduled.id)
          Action.fail error

/-- Schedule one batch and commit it after every rank. -/
def step (tick nowNs completedNs : ℕ) : RuntimeM γ (Option BatchReport) := do
  requireReady
  let rt ← get
  match ← reserveLoop tick nowNs (rt.rowBudget + 1) rt.rowBudget with
  | none => return none
  | some (scheduled, prepared) => do
    let report ← submit R nowNs completedNs scheduled prepared
    return some report

/-- Close the resident group. -/
def close : RuntimeM γ (Except String Unit) := do
  modify fun rt => { rt with closed := true }
  onGpu R.close

end Runtime

end TpBatchRuntime

end Ferric
