import Ferric.ServingRegistry.Planning

/-!
# Calls of the registry return

Five places of the registry index a list or expect a value that an earlier check has made sure of:
the entry that is removed, the key of a maintenance batch, the batch and the members of a
completion, and the predecessor of a lane. None of them fails in any run, so every call ends with a
result or an error value.

## Main results

* `calls_return` — no call of any run panics
-/

namespace Ferric

namespace ServingRegistry

open Spec

variable {C : ℕ} {r : Registry C}

theorem total_validatePlanTransition {current next : ServingPlan} :
    Total (validatePlanTransition current next) :=
  total_failIf.bind fun _ => total_failIf

theorem total_validateSuccessor {request : RequestId} {predecessor : Entry} {index : ℕ} :
    Total (validateSuccessor request predecessor index) :=
  total_failIf.bind fun _ => total_failIf.bind fun _ => total_failIf

theorem total_validateCompletedWindowPredecessor {entry : Entry} {prior : ServingPlan}
    {completedEpoch index : ℕ} :
    Total (validateCompletedWindowPredecessor entry prior completedEpoch index) := by
  refine total_failIf.bind fun _ => ?_
  cases entry.phase with
  | retired quiescence =>
    cases quiescence with
    | completed epoch => exact total_failIf
    | neverSubmitted => trivial
  | _ => trivial

namespace Registry

theorem total_rejectLiveReservation : Total r.rejectLiveReservation := total_failIf

/-! ### Members -/

theorem total_admitRequest {request : RequestId} {prefill : ServingPlan} :
    Total (r.admitRequest request prefill) :=
  total_rejectLiveReservation.bind fun _ => total_failIf.bind fun _ => total_failIf.bind fun _ =>
    total_failIf.bind fun _ => total_failIf.bind fun _ => total_pure

theorem total_transition {request : RequestId} {next : ServingPlan} :
    Total (r.transition request next) :=
  total_rejectLiveReservation.bind fun _ => total_failIf.bind fun _ => total_orErr.bind fun _ =>
    total_failIf.bind fun _ => total_validatePlanTransition.bind fun _ => total_pure

theorem total_cancelledPhase {entry : Entry} : Total (cancelledPhase entry) := by
  rw [cancelledPhase]
  split <;> trivial

theorem total_cancel {request : RequestId} : Total (r.cancel request) :=
  total_rejectLiveReservation.bind fun _ => total_orErr.bind fun _ =>
    total_cancelledPhase.bind fun _ => total_pure

/-- The entry that was found is there. -/
theorem total_removeRetired {request : RequestId} : Total (r.removeRetired request) := by
  refine total_rejectLiveReservation.bind fun _ => ?_
  refine Ensures.bind total_orErr fun index hindex _ => ?_
  have hlt : index < r.entries.length :=
    (List.findIdx?_eq_some_iff_getElem.mp (orErr_eq_ok.mp hindex)).1
  rw [List.getElem?_eq_getElem hlt]
  refine Total.bind (x := .ok _) trivial fun entry => ?_
  cases entry.phase with
  | retired quiescence => exact total_pure
  | _ => trivial

/-! ### Reservations -/

theorem total_validateReadyRoster {batch : BatchPlan} : Total (r.validateReadyRoster batch) := by
  rw [validateReadyRoster]
  cases r.draftCatchup with
  | some phase => exact total_failIf
  | none => exact total_failIf.bind fun _ => total_failIf.bind fun _ => total_failIf

theorem total_validateNextBatch {batch : BatchPlan} : Total (r.validateNextBatch batch) :=
  total_orErr.bind fun selected => total_orErr.bind fun _ =>
    (r.classifyNextQueueAction_total selected).bind fun _ => total_failIf.bind fun _ =>
      total_validateReadyRoster

theorem total_reserveValidatedBatch {batch : BatchPlan} {key : Option DraftCatchupKey} :
    Total (r.reserveValidatedBatch batch key) :=
  total_orErr.bind fun _ => total_pure

theorem total_reservePublication {batch : BatchPlan} : Total (r.reservePublication batch) :=
  total_rejectLiveReservation.bind fun _ => total_failIf.bind fun _ => total_failIf.bind fun _ =>
    total_validateNextBatch.bind fun _ => total_reserveValidatedBatch

theorem total_validateDraftCatchupStart {batch : BatchPlan} {key : DraftCatchupKey} :
    Total (r.validateDraftCatchupStart batch key) :=
  total_failIf.bind fun _ => total_failIf

theorem total_registerDraftCatchupKey {key : DraftCatchupKey} :
    Total (r.registerDraftCatchupKey key) :=
  total_rejectLiveReservation.bind fun _ => total_failIf.bind fun _ => total_failIf.bind fun _ =>
    total_orErr.bind fun _ => Total.bind total_failIf fun _ => total_pure

theorem total_reserveDraftCatchupKey {batch : BatchPlan} {key : DraftCatchupKey} :
    Total (r.reserveDraftCatchupKey batch key) :=
  total_rejectLiveReservation.bind fun _ => total_failIf.bind fun _ =>
    total_validateNextBatch.bind fun _ => total_validateDraftCatchupStart.bind fun _ =>
      total_reserveValidatedBatch

theorem total_reserveDraftCatchupRestoreKey {batch : BatchPlan} {key : DraftCatchupKey}
    {dispatchGeneration : ℕ} :
      Total (r.reserveDraftCatchupRestoreKey batch key dispatchGeneration) :=
  total_rejectLiveReservation.bind fun _ => total_failIf.bind fun _ => total_failIf.bind fun _ =>
    total_validateNextBatch.bind fun _ => total_reserveValidatedBatch

theorem total_validateReservedAction {live : ReservedBatch} {batch : BatchPlan} :
    Total (r.validateReservedAction live batch) := by
  rw [validateReservedAction]
  split
  · exact total_orErr.bind fun _ => total_failIf.bind fun _ => total_validateDraftCatchupStart
  · split
    · exact total_failIf.bind fun _ => total_validateNextBatch
    · trivial
  · exact total_failIf

theorem total_validateReservation {token : PublicationReservation} :
    Total (r.validateReservation token) :=
  total_failIf.bind fun _ => total_failIf.bind fun _ => total_orErr.bind fun _ =>
    total_failIf.bind fun _ => total_failIf.bind fun _ =>
      total_validateReservedAction.bind fun _ => total_validateReadyRoster

/-- A maintenance batch that is recorded has a key. -/
theorem total_recordPublication {token : PublicationReservation} :
    Total (r.recordPublication token) := by
  refine Ensures.bind total_validateReservation fun _ hvalid _ => ?_
  obtain ⟨live, hreserved⟩ := validateReservation_eq_ok.mp hvalid
  show Total (r.recordedPhase token.batch.action (r.reservation.bind (·.draftCatchup)) >>= _)
  rw [hreserved.recordedPhase_eq]
  trivial

/-! ### Completion -/

theorem total_validateLane {inFlight : InFlightBatch} {epoch lane : ℕ} {request : RequestId}
    {disposition : CompletionDisposition} :
    Total (r.validateLane inFlight epoch lane request disposition) := by
  refine total_orErr.bind fun _ => total_failIf.bind fun _ => ?_
  cases disposition with
  | continue_ next => exact total_failIf.bind fun _ => total_validatePlanTransition
  | retire => exact total_pure

theorem total_validateCompletionExact {epoch : ℕ} {dispositions : List CompletionDisposition} :
    Total (r.validateCompletionExact epoch dispositions) :=
  total_rejectLiveReservation.bind fun _ => total_failIf.bind fun _ => total_orErr.bind fun _ =>
    total_failIf.bind fun _ => total_failIf.bind fun _ =>
      total_foldlM fun _ _ _ => total_validateLane

/-- What is completed is in flight. -/
theorem total_completeExact (hv : r.Valid) {identity epoch : ℕ}
    {dispositions : List CompletionDisposition} :
    Total (r.completeExact identity epoch dispositions) := by
  refine Ensures.bind (total_failIf.bind fun _ => total_validateCompletionExact)
    fun _ hpreflight _ => ?_
  rw [preflightCompletionExactFor] at hpreflight
  obtain ⟨-, -, hvalid⟩ := bind_eq_ok.mp hpreflight
  obtain ⟨-, -, b, hflight, -, -, hlength, -⟩ := validateCompletionExact_ok hvalid
  rw [hv.applyValidatedCompletion_eq hflight epoch hlength]
  trivial

theorem total_validateDraftCatchupCompletion {key : DraftCatchupKey} {dispatchGeneration : ℕ} :
    Total (r.validateDraftCatchupCompletion key dispatchGeneration) := by
  refine total_rejectLiveReservation.bind fun _ => total_orErr.bind fun _ =>
    total_failIf.bind fun _ => total_orErr.bind fun _ => total_failIf.bind fun _ => ?_
  split
  · trivial
  · split <;> trivial

theorem total_completeDraftCatchupKey (hv : r.Valid) {key : DraftCatchupKey}
    {dispatchGeneration : ℕ} : Total (r.completeDraftCatchupKey key dispatchGeneration) := by
  refine Ensures.bind total_validateDraftCatchupCompletion fun disposition hvalid _ => ?_
  obtain ⟨-, -, -, -, b, -, hflight, -, hrequests, -⟩ := validateDraftCatchupCompletion_ok hvalid
  rw [hv.applyValidatedCompletion_eq hflight key.epoch (by rw [hrequests]; rfl)]
  trivial

/-! ### Windows -/

theorem total_reserveCompletedWindowReplacement {plan : ServingPlan} {requests : List RequestId} :
    Total (r.reserveCompletedWindowReplacement plan requests) :=
  total_rejectLiveReservation.bind fun _ => total_failIf.bind fun _ => total_failIf.bind fun _ =>
    total_orErr.bind fun _ => total_failIf.bind fun _ =>
    (total_foldlM fun _ _ _ => total_validateCompletedWindowPredecessor).bind fun _ =>
    total_failIf.bind fun _ => total_failIf.bind fun _ => total_failIf.bind fun _ =>
    total_failIf.bind fun _ => (total_foldlM fun _ _ _ => total_validateSuccessor).bind fun _ =>
    total_failIf.bind fun _ => total_orErr.bind fun _ => total_orErr.bind fun _ =>
    total_failIf.bind fun _ => total_failIf.bind fun _ => total_pure

theorem total_validateWindowLane {token : NewWindowReservation} {entry : Entry}
    {request : RequestId} {lane : ℕ} (hlane : lane < token.predecessors.length) :
    Total (validateWindowLane token entry request lane) := by
  refine total_failIf.bind fun _ => total_failIf.bind fun _ => ?_
  rw [List.getElem?_eq_getElem hlane]
  exact Total.bind (x := .ok _) trivial fun _ => total_failIf.bind fun _ => total_failIf

/-- Every lane of a window has a predecessor. -/
theorem total_validateNewWindowReservation {token : NewWindowReservation} :
    Total (r.validateNewWindowReservation token) := by
  refine total_validateReservation.bind fun _ => ?_
  refine Ensures.bind total_failIf fun _ hchecked _ => ?_
  have hlength : token.predecessors.length = r.entries.length := by
    simp only [failIf_eq_ok, not_or, not_not] at hchecked
    exact hchecked.2.2.2.1
  refine (total_foldlM fun _ _ _ => total_validateCompletedWindowPredecessor).bind fun _ => ?_
  refine total_foldlM fun _ p hp => total_validateWindowLane ?_
  have hlt := (List.mem_zipIdx hp).2.1
  rw [List.length_zip] at hlt
  omega

theorem total_restoreCompletedWindowReplacement {token : NewWindowReservation} :
    Total (r.restoreCompletedWindowReplacement token) :=
  total_validateNewWindowReservation.bind fun _ => total_pure

theorem total_recordNewWindowPublication {token : NewWindowReservation} :
    Total (r.recordNewWindowPublication token) :=
  total_validateNewWindowReservation.bind fun _ => total_pure

/-! ### The queue -/

theorem total_quiescentQueueAction : Total r.quiescentQueueAction := by
  refine total_rejectLiveReservation.bind fun _ => total_failIf.bind fun _ => ?_
  cases r.boundPlan with
  | none => exact total_pure
  | some bound =>
    dsimp only
    split <;> exact total_pure

theorem total_recordQuiescentQueueRetirement {bound : ServingPlan} :
    Total (r.recordQuiescentQueueRetirement bound) :=
  total_rejectLiveReservation.bind fun _ => total_failIf.bind fun _ => total_failIf.bind fun _ =>
    total_failIf.bind fun _ => total_pure

end Registry

open Registry

/-- A call on a registry in good order returns. -/
theorem total_call {w : World C} (hw : w.Good) (op : Op) : Total (w.call op) := by
  cases op with
  | admitRequest request prefill => exact total_admitRequest.bind fun _ => total_pure
  | transition request next => exact total_transition.bind fun _ => total_pure
  | cancel request => exact total_cancel.bind fun _ => total_pure
  | removeRetired request => exact total_removeRetired.bind fun _ => total_pure
  | reserve batch => exact total_reservePublication.bind fun _ => total_pure
  | registerCatchup key => exact total_registerDraftCatchupKey.bind fun _ => total_pure
  | reserveCatchup batch key => exact total_reserveDraftCatchupKey.bind fun _ => total_pure
  | reserveRestore batch key generation =>
    exact total_reserveDraftCatchupRestoreKey.bind fun _ => total_pure
  | reserveWindow plan requests =>
    exact total_reserveCompletedWindowReplacement.bind fun _ => total_pure
  | restoreWindow token => exact total_restoreCompletedWindowReplacement.bind fun _ => total_pure
  | recordWindow token => exact total_recordNewWindowPublication.bind fun _ => total_pure
  | abort token =>
    exact (total_validateReservation.bind fun _ => total_pure).bind fun _ => total_pure
  | record token => exact total_recordPublication.bind fun _ => total_pure
  | complete identity epoch dispositions =>
    exact (total_completeExact hw.valid).bind fun _ => total_pure
  | completeCatchup key generation =>
    exact (total_completeDraftCatchupKey hw.valid).bind fun _ => total_pure
  | retireQueue bound => exact total_recordQuiescentQueueRetirement.bind fun _ => total_pure

/-- **No call of any run panics.** Whatever a caller calls with, and whatever was called before, the
call, the plan and the action of the queue end with a result or an error value. -/
theorem calls_return {w : World C} (h : (serving C).Reachable w) :
    (∀ op, (∃ w', w.call op = .ok w') ∨ ∃ e, w.call op = .error (.err e)) ∧
    ((∃ batch, w.registry.planNext = .ok batch) ∨ ∃ e, w.registry.planNext = .error (.err e)) ∧
    ((∃ action, w.registry.quiescentQueueAction = .ok action) ∨
      ∃ e, w.registry.quiescentQueueAction = .error (.err e)) := by
  have hcases : ∀ {α : Type} {x : Outcome RegistryError α}, Total x →
      (∃ a, x = .ok a) ∨ ∃ e, x = .error (.err e) := by
    intro α x hx
    rcases x with (e | _ | _) | a
    · exact .inr ⟨e, rfl⟩
    · cases hx
    · cases hx
    · exact .inl ⟨a, rfl⟩
  exact ⟨fun op => hcases (total_call (reachable_good h) op), hcases w.registry.planNext_total,
    hcases total_quiescentQueueAction⟩

/-- The members of a batch retire, and are completed a second time. -/
theorem calls_return_bothRetire : ∃ w : World 8, (World.start 8).calls bothRetire = .ok w ∧
    ((∃ w', w.call (.complete 1 1 [.retire, .retire]) = .ok w') ∨
      ∃ e, w.call (.complete 1 1 [.retire, .retire]) = .error (.err e)) := by
  obtain ⟨w, hw⟩ : ∃ w, (World.start 8).calls bothRetire = .ok w := ⟨_, rfl⟩
  exact ⟨w, hw, (calls_return (reachable_bothRetire hw)).1 _⟩

end ServingRegistry

end Ferric
