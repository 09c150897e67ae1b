import Ferric.ServingRegistry.Run

/-!
# Planning, queues and maintenance steps agree

Three functions work out what comes next, each for itself: planning, the classification of the
queue, and the check of a reservation. On a registry of a run they agree, so a quiescent registry
either plans a batch or lets its queue go, and without a queue it plans whatever is ready.

A maintenance step that is due comes first: as long as its request is ready, its batch is the only
one that is planned, reserved or published.

## Main definitions

* `Registry.Unwedged` — planning, the queue and reservations agree
* `Awaits` — the worlds since the registration of a key whose request has been ready ever since
* `World.Due` — nothing but the maintenance step can run

## Main results

* `never_wedged` — over every run
-/

namespace Ferric

namespace ServingRegistry

open Spec

variable {C : ℕ}

namespace Registry

variable {r r' : Registry C}

/-! ### The queue -/

/-- The request of a maintenance step is planned first, while it waits under the bound plan. -/
theorem nextReadyPlan_of_readyUnder {phase : DraftCatchupPhase} {plan : ServingPlan}
    (hphase : r.draftCatchup = some phase) (hparent : phase.key.parent = plan.target)
    (hready : r.ReadyUnder phase.key.request plan) : r.nextReadyPlan = some plan := by
  obtain ⟨entry, hentry, hready, rfl⟩ := hready
  have hfilter : (some entry).filter
      (fun e : Entry => e.phase = .ready ∧ e.plan.target = phase.key.parent) = some entry := by
    rw [Option.filter_some, if_pos (by simp [hready, hparent])]
  rw [nextReadyPlan, hphase]
  dsimp only
  rw [hentry, hfilter]

/-- The epoch that comes next. -/
theorem checkedAdd_submitted (hepoch : r.submittedEpoch + 1 < 2 ^ 64) :
    checkedAdd 64 r.submittedEpoch 1 = some (r.submittedEpoch + 1) :=
  checkedAdd_eq_some.mpr ⟨hepoch, rfl⟩

/-- A selected plan without a maintenance step has a roster. -/
theorem isNext_of_selected (hC : 0 < C) (hphase : r.draftCatchup = none) {plan : ServingPlan}
    (hselected : r.nextReadyPlan = some plan) (hepoch : r.submittedEpoch + 1 < 2 ^ 64)
    {action : QueueAction} (haction : classifyQueueAction r.boundPlan plan = .ok action) :
    r.IsNext ⟨plan, r.readyRoster plan, r.submittedEpoch + 1, action⟩ := by
  obtain ⟨e, he, hready, hplan⟩ := exists_ready_of_nextReadyPlan hselected
  refine ⟨hselected, checkedAdd_submitted hepoch, ?_, ?_⟩
  · rw [classifyNextQueueAction, hphase]
    exact haction
  · rw [IsRoster, hphase]
    exact ⟨rfl, readyRoster_ne_nil hC he hready hplan⟩

/-- The batch of a maintenance step, or of the return from one. -/
theorem isNext_of_phase (hv : r.Valid) (hquiescent : r.inFlight = none) {phase : DraftCatchupPhase}
    (hphase : r.draftCatchup = some phase) {plan : ServingPlan} (hbound : r.boundPlan = some plan)
    (hparent : phase.key.parent = plan.target) (hready : r.ReadyUnder phase.key.request plan)
    (hepoch : r.submittedEpoch + 1 < 2 ^ 64) :
    ∃ action, r.IsNext ⟨plan, [phase.key.request], r.submittedEpoch + 1, action⟩ := by
  have hroster : ∀ action,
      r.IsRoster ⟨plan, [phase.key.request], r.submittedEpoch + 1, action⟩ := by
    intro action
    rw [IsRoster, hphase]
    exact ⟨rfl, hready⟩
  have hselected := nextReadyPlan_of_readyUnder hphase hparent hready
  cases phase with
  | pending key =>
    refine ⟨.quiescentDraftCatchup plan, hselected, checkedAdd_submitted hepoch, ?_, hroster _⟩
    rw [classifyNextQueueAction, hphase]
    exact if_pos ⟨hbound, hparent, hready⟩
  | inFlight key =>
    -- a maintenance step in flight is a batch in flight
    obtain ⟨-, ⟨_, hflight⟩, -⟩ := hv.catchup _ hphase
    cases hquiescent.symm.trans hflight
  | completed key dispatchGeneration =>
    refine ⟨.quiescentDraftCatchupRestore plan, hselected, checkedAdd_submitted hepoch, ?_,
      hroster _⟩
    rw [classifyNextQueueAction, hphase]
    exact if_pos ⟨hbound, hparent, hready⟩

/-- What the classification of a batch says about the bound queue. -/
theorem IsNext.of_bound {batch : BatchPlan} (h : r.IsNext batch) {bound : ServingPlan}
    (hbound : r.boundPlan = some bound) :
    r.readyWorkNeedsBoundQueue bound = true ∧ batch.action ≠ .freshLaunch := by
  have haction := h.action
  rw [classifyNextQueueAction, hbound] at haction
  rw [readyWorkNeedsBoundQueue]
  cases hphase : r.draftCatchup with
  | none =>
    rw [hphase] at haction
    dsimp only at haction ⊢
    rw [h.selected]
    rw [classifyQueueAction] at haction
    dsimp only at haction ⊢
    split at haction
    · next heq =>
      rw [← Except.ok.inj haction]
      simp [heq]
    · rw [bind_eq_ok] at haction
      obtain ⟨reason, hreason, haction⟩ := haction
      rw [← Except.ok.inj haction]
      rw [orErr_eq_ok] at hreason
      simp [hreason]
  | some phase =>
    rw [hphase] at haction
    cases phase with
    | pending key =>
      dsimp only at haction
      split at haction
      · next hparent =>
        obtain ⟨hplan, hparent, hready⟩ := hparent
        obtain rfl := Option.some.inj hplan
        rw [← Except.ok.inj haction]
        exact ⟨decide_eq_true ⟨hparent, hready⟩, by simp⟩
      · cases haction
    | inFlight key => cases haction
    | completed key dispatchGeneration =>
      dsimp only at haction
      split at haction
      · next hparent =>
        obtain ⟨hplan, hparent, hready⟩ := hparent
        obtain rfl := Option.some.inj hplan
        rw [← Except.ok.inj haction]
        exact ⟨decide_eq_true ⟨hparent, hready⟩, by simp⟩
      · cases haction

/-- **Ready work needs the bound queue exactly when a batch is planned.** -/
theorem readyWorkNeedsBoundQueue_iff (hC : 0 < C) (hv : r.Valid) (hquiescent : r.inFlight = none)
    (hepoch : r.submittedEpoch + 1 < 2 ^ 64) {bound : ServingPlan}
    (hbound : r.boundPlan = some bound) :
    r.readyWorkNeedsBoundQueue bound = true ↔ ∃ batch, r.IsNext batch := by
  constructor
  · intro h
    rw [readyWorkNeedsBoundQueue] at h
    cases hphase : r.draftCatchup with
    | none =>
      rw [hphase] at h
      dsimp only at h
      cases hselected : r.nextReadyPlan with
      | none => rw [hselected] at h; cases h
      | some next =>
        rw [hselected] at h
        have hcase := of_decide_eq_true h
        have haction : ∃ action, classifyQueueAction r.boundPlan next = .ok action := by
          rw [hbound, classifyQueueAction]
          by_cases heq : bound = next
          · exact ⟨.sameShapeRearm, if_pos heq⟩
          · obtain ⟨reason, hreason⟩ := Option.isSome_iff_exists.mp
              (hcase.resolve_left fun h => heq h.symm)
            refine ⟨.quiescentRollover bound next reason, ?_⟩
            rw [if_neg heq, hreason]
            rfl
        obtain ⟨action, haction⟩ := haction
        exact ⟨_, isNext_of_selected hC hphase hselected hepoch haction⟩
    | some phase =>
      rw [hphase] at h
      obtain ⟨hparent, hready⟩ := of_decide_eq_true h
      obtain ⟨action, hnext⟩ :=
        isNext_of_phase hv hquiescent hphase hbound hparent hready hepoch
      exact ⟨_, hnext⟩
  · rintro ⟨batch, h⟩
    exact (h.of_bound hbound).1

/-! ### Planning -/

theorem classifyNextQueueAction_total (r : Registry C) (selected : ServingPlan) :
    Total (r.classifyNextQueueAction selected) := by
  rw [classifyNextQueueAction]
  cases r.draftCatchup with
  | none =>
    show Total (classifyQueueAction r.boundPlan selected)
    cases r.boundPlan with
    | none => trivial
    | some prior =>
      unfold classifyQueueAction
      dsimp only
      split
      · trivial
      · exact total_orErr.bind fun _ => trivial
  | some phase =>
    cases phase with
    | inFlight key => trivial
    | _ =>
      dsimp only
      split <;> trivial

/-- Planning ends with a batch, with none, or with an error value. -/
theorem planNext_total (r : Registry C) : Total r.planNext := by
  have hroster : ∀ selected, Total (r.nextRoster selected) := by
    intro selected
    rw [nextRoster]
    cases r.draftCatchup with
    | none => exact Total.bind (x := pure _) trivial fun _ => total_failIf.bind fun _ => trivial
    | some phase =>
      refine total_failIf.bind fun _ => Total.bind (x := pure _) trivial fun _ => ?_
      exact total_failIf.bind fun _ => trivial
  rw [planNext, rejectLiveReservation]
  refine total_failIf.bind fun _ => total_failIf.bind fun _ => ?_
  cases r.nextReadyPlan with
  | none => trivial
  | some selected =>
    exact (hroster selected).bind fun _ => total_orErr.bind fun _ =>
      (r.classifyNextQueueAction_total selected).bind fun _ => trivial

/-- Planning and reservations agree, and the queue is kept exactly as long as something needs it. -/
structure Unwedged (r : Registry C) : Prop where
  /-- The queue is kept for the batch that is planned next. -/
  retain : ∀ bound, r.quiescentQueueAction = .ok (.retainForReadyWork bound) ↔
    r.boundPlan = some bound ∧
      ∃ batch, r.planNext = .ok (some batch) ∧ batch.action ≠ .freshLaunch
  /-- The queue may retire when planning has nothing for it. -/
  retire : ∀ bound, r.quiescentQueueAction = .ok (.retire bound) ↔
    r.boundPlan = some bound ∧
      (r.planNext = .ok none ∨ ∃ e, r.planNext = .error (.err e))
  /-- A queue that may retire does, and then everything that is ready is planned. -/
  retires : ∀ bound, r.quiescentQueueAction = .ok (.retire bound) →
    ∃ r', r.recordQuiescentQueueRetirement bound = .ok r' ∧
      ((∀ e ∈ r'.entries, e.phase ≠ .ready) → r'.planNext = .ok none) ∧
      ((∃ e ∈ r'.entries, e.phase = .ready) → ∃ batch, r'.planNext = .ok (some batch) ∧
        batch.requests ≠ [] ∧ batch.action = .freshLaunch)
  /-- A batch is reserved exactly when it is planned. -/
  reserves : r.nextReservationId + 1 < 2 ^ 64 → ∀ batch,
    (∃ out, r.reservePublication batch = .ok out) ↔
      r.planNext = .ok (some batch) ∧ batch.action.isDraftCatchup = false

/-- What the queue action says. -/
theorem quiescentQueueAction_of_bound (hunreserved : r.reservation = none)
    (hquiescent : r.inFlight = none) {bound : ServingPlan} (hbound : r.boundPlan = some bound) :
    r.quiescentQueueAction = .ok (if r.readyWorkNeedsBoundQueue bound = true
      then .retainForReadyWork bound else .retire bound) := by
  rw [quiescentQueueAction, rejectLiveReservation, hunreserved, hquiescent, hbound]
  show (if _ then _ else _) = _
  split <;> rfl

theorem quiescentQueueAction_of_unbound (hunreserved : r.reservation = none)
    (hquiescent : r.inFlight = none) (hbound : r.boundPlan = none) :
    r.quiescentQueueAction = .ok .noQueue := by
  rw [quiescentQueueAction, rejectLiveReservation, hunreserved, hquiescent, hbound]
  rfl

/-- A roster names somebody. -/
theorem IsRoster.ne_nil {batch : BatchPlan} (h : r.IsRoster batch) : batch.requests ≠ [] := by
  obtain ⟨-, -, -, -, hne⟩ := h.chosen
  exact hne

/-- What becomes of a bound queue is told by what planning finds. -/
theorem quiescentQueueAction_eq_ok (hC : 0 < C) (hv : r.Valid) (hunreserved : r.reservation = none)
    (hquiescent : r.inFlight = none) (hepoch : r.submittedEpoch + 1 < 2 ^ 64)
    (bound : ServingPlan) :
    (r.quiescentQueueAction = .ok (.retainForReadyWork bound) ↔
      r.boundPlan = some bound ∧ ∃ batch, r.IsNext batch) ∧
    (r.quiescentQueueAction = .ok (.retire bound) ↔
      r.boundPlan = some bound ∧ ¬ ∃ batch, r.IsNext batch) := by
  cases hbound : r.boundPlan with
  | none => simp [quiescentQueueAction_of_unbound hunreserved hquiescent hbound]
  | some plan =>
    rw [quiescentQueueAction_of_bound hunreserved hquiescent hbound,
      ← readyWorkNeedsBoundQueue_iff hC hv hquiescent hepoch hbound]
    split
    · next hready => simp [hready]
    · next hready => simp [hready]

/-- **A quiescent registry in good order is not wedged.** -/
theorem Valid.unwedged (hC : 0 < C) (hv : r.Valid) (hunreserved : r.reservation = none)
    (hquiescent : r.inFlight = none) (hepoch : r.submittedEpoch + 1 < 2 ^ 64) : r.Unwedged := by
  have hplan : ∀ {batch}, r.planNext = .ok (some batch) ↔ r.IsNext batch := by
    intro batch
    rw [planNext_eq_some hC]
    exact ⟨fun h => h.2.2, fun h => ⟨hunreserved, hquiescent, h⟩⟩
  have haction := quiescentQueueAction_eq_ok hC hv hunreserved hquiescent hepoch
  refine ⟨fun bound => ?_, fun bound => ?_, fun bound h => ?_, fun hid batch => ?_⟩
  · rw [(haction bound).1]
    refine and_congr_right fun hbound => exists_congr fun batch => ?_
    rw [hplan]
    exact ⟨fun h => ⟨h, (h.of_bound hbound).2⟩, fun h => h.1⟩
  · rw [(haction bound).2]
    refine and_congr_right fun hbound => ?_
    constructor
    · intro hnone
      rcases (planNext_total r).cases with ⟨planned, hplanned, -⟩ | ⟨e, he, -⟩
      · cases planned with
        | none => exact .inl hplanned
        | some batch => exact absurd ⟨batch, hplan.mp hplanned⟩ hnone
      · exact .inr ⟨e, he⟩
    · rintro hcase ⟨batch, hnext⟩
      rw [hplan.mpr hnext] at hcase
      rcases hcase with hcase | ⟨e, hcase⟩
      · cases hcase
      · cases hcase
  · obtain ⟨hbound, hnone⟩ := (haction bound).2.mp h
    have hneeds : r.readyWorkNeedsBoundQueue bound = false := by
      rw [← Bool.not_eq_true]
      intro hneeds
      exact hnone ((readyWorkNeedsBoundQueue_iff hC hv hquiescent hepoch hbound).mp hneeds)
    refine ⟨_, recordQuiescentQueueRetirement_eq_ok.mpr
      ⟨hunreserved, hquiescent, hbound, hneeds, rfl⟩, fun hidle => ?_, ?_⟩
    · -- nothing is ready, so nothing is selected
      have hselected : Registry.nextReadyPlan (C := C)
          { r with boundPlan := none, draftCatchup := none } = none := by
        by_contra hne
        obtain ⟨plan, hplan⟩ := Option.ne_none_iff_exists'.mp hne
        obtain ⟨e, he, hready, -⟩ := exists_ready_of_nextReadyPlan hplan
        exact hidle e he hready
      rw [planNext, rejectLiveReservation, hselected]
      show (failIf (r.reservation.isSome = true) _ >>= fun _ =>
        failIf (r.inFlight.isSome = true) _ >>= fun _ => _) = _
      rw [hunreserved, hquiescent]
      rfl
    · rintro ⟨e, he, hready⟩
      obtain ⟨plan, hselected⟩ :=
        Option.ne_none_iff_exists'.mp (nextReadyPlan_ne_none he hready)
      have hlaunch : classifyQueueAction none plan = .ok .freshLaunch := rfl
      have hnext := isNext_of_selected hC rfl hselected hepoch hlaunch
      refine ⟨_, (planNext_eq_some hC).mpr ⟨hunreserved, hquiescent, hnext⟩, ?_, rfl⟩
      exact hnext.roster.ne_nil
  · rw [hplan]
    constructor
    · rintro ⟨⟨token, r'⟩, hout⟩
      obtain ⟨-, -, hkind, hnext, -⟩ := reservePublication_eq_ok.mp hout
      exact ⟨hnext, hkind⟩
    · rintro ⟨hnext, hkind⟩
      exact ⟨(_, _), reservePublication_eq_ok.mpr
        ⟨hunreserved, hquiescent, hkind, hnext, hid, rfl, rfl⟩⟩

end Registry

/-! ### A maintenance step that is due -/

/-- The batch of a maintenance step. -/
def DraftCatchupKey.batch (key : DraftCatchupKey) (parent : ServingPlan) : BatchPlan :=
  ⟨parent, [key.request], key.epoch, .quiescentDraftCatchup parent⟩

/-- The worlds since the registration of a key that is pending, and whose request has been ready,
ever since. -/
inductive Awaits (key : DraftCatchupKey) : World C → Prop
  | registered {w w' : World C} (h : (serving C).Reachable w)
    (hcall : w.call (.registerCatchup key) = .ok w') : Awaits key w'
  | step {w w' : World C} {op : Op} (h : Awaits key w) (hs : (serving C).step w op w')
    (hpending : w'.registry.draftCatchup = some (.pending key))
    (hready : ∃ e, w'.registry.entry key.request = some e ∧ e.phase = .ready) : Awaits key w'

theorem Awaits.reachable {key : DraftCatchupKey} {w : World C} (h : Awaits key w) :
    (serving C).Reachable w := by
  induction h with
  | registered h hcall => exact h.step (a := .registerCatchup key) ⟨trivial, hcall⟩
  | step _ hs _ _ ih => exact ih.step hs

/-- The maintenance step is due under its parent, and nothing else is reserved. -/
structure Registry.Waiting (r : Registry C) (parent : ServingPlan) (key : DraftCatchupKey) :
    Prop where
  pending : r.draftCatchup = some (.pending key)
  quiescent : r.inFlight = none
  due : r.KeyReady parent key
  reserved : ∀ live, r.reservation = some live →
    live.plan = parent ∧ live.epoch = key.epoch ∧ live.action = .quiescentDraftCatchup parent ∧
      live.draftCatchup = some key

namespace Registry.Waiting

variable {r r' : Registry C} {parent : ServingPlan} {key : DraftCatchupKey}

/-- The batch of the maintenance step is the next one. -/
theorem isNext (hv : r.Valid) (h : r.Waiting parent key) : r.IsNext (key.batch parent) := by
  obtain ⟨hparent, -, -, -, -, -, hepoch, -⟩ := h.due.valid
  obtain ⟨hlt, hepoch⟩ := checkedAdd_eq_some.mp hepoch
  rw [← h.due.submitted] at hlt hepoch
  obtain ⟨action, hnext⟩ := isNext_of_phase hv h.quiescent h.pending h.due.bound hparent
    h.due.ready hlt
  have haction : action = .quiescentDraftCatchup parent := by
    have hclassified := hnext.action
    rw [classifyNextQueueAction, h.pending] at hclassified
    dsimp only at hclassified
    rw [if_pos ⟨h.due.bound, hparent, h.due.ready⟩] at hclassified
    exact (Except.ok.inj hclassified).symm
  rw [DraftCatchupKey.batch, ← hepoch, ← haction]
  exact hnext

theorem starts (h : r.Waiting parent key) : r.Starts (key.batch parent) key :=
  ⟨h.pending, rfl, rfl, rfl, h.due⟩

/-- Other entries of other requests. -/
theorem withEntries (h : r.Waiting parent key) {entries : List Entry}
    (hentry : entries.find? (·.request = key.request) = r.entry key.request) :
    ({ r with entries := entries } : Registry C).Waiting parent key := by
  refine ⟨h.pending, h.quiescent, ⟨h.due.valid, h.due.bound, h.due.submitted, h.due.completed, ?_,
    ?_⟩, h.reserved⟩
  · obtain ⟨e, he, hready⟩ := h.due.ready
    exact ⟨e, hentry.trans he, hready⟩
  · exact (congrArg (Option.bind · _) hentry).trans h.due.quiet

/-- What is recorded is the batch of the maintenance step. -/
theorem batch_eq (h : r.Waiting parent key) {token : PublicationReservation} {live : ReservedBatch}
    (hreserved : r.Reserved token live) : token.batch = key.batch parent := by
  obtain ⟨hplan, hepoch, haction, -⟩ := h.reserved live hreserved.reservation
  have hroster := hreserved.roster
  rw [IsRoster, h.pending] at hroster
  have hrequests := hroster.1
  have h1 := hreserved.plan.symm.trans hplan
  have h2 := hreserved.epoch.symm.trans hepoch
  have h3 := hreserved.action.symm.trans haction
  cases hbatch : token.batch
  simp_all [DraftCatchupKey.batch, DraftCatchupPhase.key]

end Registry.Waiting

/-- Finding the entry of a request among entries of which others change. -/
theorem find_onEntry {entries : List Entry} {request other : RequestId} (hne : other ≠ request)
    {g : Entry → Entry} (hg : ∀ e, (g e).request = e.request) :
    (entries.map (onEntry other g)).find? (·.request = request) =
      entries.find? (·.request = request) := by
  induction entries with
  | nil => rfl
  | cons e rest ih =>
    rw [List.map_cons, List.find?_cons, List.find?_cons, onEntry_request hg, ih]
    by_cases he : e.request = request
    · rw [onEntry, if_neg (fun h => hne (h.symm.trans he))]
    · simp [he]

theorem find_filter {entries : List Entry} {request other : RequestId} (hne : other ≠ request) :
    (entries.filter (·.request ≠ other)).find? (·.request = request) =
      entries.find? (·.request = request) := by
  rw [List.find?_filter]
  congr 1
  funext e
  by_cases he : e.request = request
  · simp [he, hne.symm]
  · simp [he]

/-- A window is not replaced while a maintenance step is due. -/
theorem Registry.Waiting.not_replaces {r : Registry C} {parent : ServingPlan}
    {key : DraftCatchupKey} (h : r.Waiting parent key) {token : NewWindowReservation}
    {live : ReservedBatch} (hreplaces : r.Replaces token live) : False := by
  have haction := hreplaces.action
  rw [h.batch_eq hreplaces.reserved] at haction
  cases haction

/-- What is reserved and what runs, where a maintenance step is or was just due. -/
structure Registry.Only (r : Registry C) (parent : ServingPlan) (key : DraftCatchupKey) : Prop where
  reserved : ∀ live, r.reservation = some live →
    live.plan = parent ∧ live.epoch = key.epoch ∧ live.action = .quiescentDraftCatchup parent ∧
      live.draftCatchup = some key
  published : ∀ b, r.inFlight = some b → b = ⟨parent, [key.request], key.epoch⟩

/-- What a call leaves of a maintenance step that was due: nothing else is reserved or runs, and it
is due as long as it is pending and its request is ready. -/
structure Registry.Attends (r : Registry C) (parent : ServingPlan) (key : DraftCatchupKey) :
    Prop where
  only : r.Only parent key
  waiting : r.draftCatchup = some (.pending key) →
    (∃ e, r.entry key.request = some e ∧ e.phase = .ready) → r.Waiting parent key

namespace Registry.Waiting

variable {r r' : Registry C} {parent plan : ServingPlan} {key other : DraftCatchupKey}
variable {request : RequestId} {batch : BatchPlan} {dispatchGeneration : ℕ}

/-- A call that reserves nothing and publishes nothing. -/
theorem idle (h : r.Waiting parent key) (hreserved : r'.reservation = r.reservation)
    (hflight : r'.inFlight = r.inFlight) : r'.Only parent key := by
  refine ⟨fun live hlive => h.reserved live (hreserved.symm.trans hlive), fun b hb => ?_⟩
  cases h.quiescent.symm.trans (hflight.symm.trans hb)

/-- Another reservation, of the step or of nothing. -/
theorem withReservation (h : r.Waiting parent key) {reservation : Option ReservedBatch} {id : ℕ}
    (hreserved : ∀ live, reservation = some live → live.plan = parent ∧ live.epoch = key.epoch ∧
      live.action = .quiescentDraftCatchup parent ∧ live.draftCatchup = some key) :
    ({ r with reservation := reservation, nextReservationId := id } : Registry C).Attends
      parent key := by
  refine ⟨⟨hreserved, fun b hb => ?_⟩, fun _ _ => ⟨h.pending, h.quiescent, ?_, hreserved⟩⟩
  · cases h.quiescent.symm.trans hb
  · exact ⟨h.due.valid, h.due.bound, h.due.submitted, h.due.completed, h.due.ready, h.due.quiet⟩

/-! #### What a call can do -/

theorem admitRequest (h : r.Waiting parent key)
    (hcall : r.admitRequest request plan = .ok r') : r'.Attends parent key := by
  obtain ⟨-, -, -, -, -, rfl⟩ := Registry.admit_ok hcall
  refine ⟨h.idle rfl rfl, fun _ _ => h.withEntries ?_⟩
  obtain ⟨e, he, -⟩ := h.due.ready
  rw [List.find?_append, show r.entries.find? (·.request = key.request) = _ from he, he]
  rfl

theorem cancel (h : r.Waiting parent key) (hv : r.Valid) {phase : RequestPhase}
    (hcall : r.cancel request = .ok (phase, r')) : r'.Attends parent key := by
  obtain ⟨-, entry, hentry, hphase, -, heq⟩ := Registry.cancel_ok hv.nodup hcall
  obtain rfl : r' = _ := heq
  have hg : ∀ e : Entry, ({ e with phase := Registry.cancelPhase e } : Entry).request =
      e.request := fun _ => rfl
  refine ⟨h.idle rfl rfl, fun _ hready => ?_⟩
  by_cases hrequest : request = key.request
  · -- the cancelled request is not ready
    subst hrequest
    obtain ⟨e, he, hready⟩ := hready
    have hmem := List.mem_of_find?_eq_some he
    obtain ⟨x, hx, hxe⟩ := List.mem_map.mp hmem
    have herequest : e.request = key.request := by simpa using List.find?_some he
    have hxrequest : x.request = key.request := by
      rw [← herequest, ← hxe, onEntry_request hg]
    have hxentry : x = entry :=
      Option.some.inj ((Registry.entry_of_mem hv.nodup hx).symm.trans (hxrequest ▸ hentry))
    rw [onEntry, if_pos hxrequest] at hxe
    exact absurd (.inl (hxe ▸ hready)) (not_live_cancelPhase (hxentry ▸ hphase))
  · exact h.withEntries (find_onEntry hrequest hg)

theorem removeRetired (h : r.Waiting parent key) (hv : r.Valid) {q : Quiescence}
    (hcall : r.removeRetired request = .ok (q, r')) : r'.Attends parent key := by
  obtain ⟨-, entry, hentry, hretired, heq⟩ := Registry.removeRetired_ok hv.nodup hcall
  obtain rfl : r' = _ := heq
  refine ⟨h.idle rfl rfl, fun _ _ => ?_⟩
  by_cases hrequest : request = key.request
  · obtain ⟨e, he, hready, -⟩ := h.due.ready
    obtain rfl := Option.some.inj ((hrequest ▸ hentry).symm.trans he)
    cases hready.symm.trans hretired
  · exact h.withEntries (find_filter hrequest)

/-- Only the batch of the step is reserved. -/
theorem reserveDraftCatchupKey (h : r.Waiting parent key) (hv : r.Valid)
    {token : PublicationReservation}
    (hcall : r.reserveDraftCatchupKey batch other = .ok (token, r')) : r'.Attends parent key := by
  obtain ⟨-, -, hnext, hstarts, -, -, heq⟩ := Registry.reserveDraftCatchupKey_eq_ok.mp hcall
  obtain rfl : r' = _ := heq
  obtain rfl : batch = key.batch parent := hnext.eq (h.isNext hv)
  obtain rfl : key = other :=
    DraftCatchupPhase.pending.inj (Option.some.inj (h.pending.symm.trans hstarts.pending))
  refine h.withReservation fun live hlive => ?_
  obtain rfl := Option.some.inj hlive
  exact ⟨rfl, rfl, rfl, rfl⟩

theorem abortPublication (h : r.Waiting parent key) {token : PublicationReservation}
    (hcall : r.abortPublication token = .ok r') : r'.Attends parent key := by
  obtain ⟨-, rfl⟩ := Registry.abortPublication_eq_ok.mp hcall
  refine h.withReservation fun live hlive => ?_
  cases hlive

/-- Only the batch of the step is published, and then the step is in flight. -/
theorem recordPublication (h : r.Waiting parent key) {token : PublicationReservation}
    (hcall : r.recordPublication token = .ok r') : r'.Attends parent key := by
  obtain ⟨live, hreserved, rfl⟩ := Registry.recordPublication_eq_ok.mp hcall
  obtain ⟨-, -, -, hkey⟩ := h.reserved live hreserved.reservation
  have hbatch := h.batch_eq hreserved
  refine ⟨⟨fun other hlive => (by cases hlive), fun b hb => ?_⟩, fun hpending => ?_⟩
  · obtain rfl := Option.some.inj hb
    rw [hbatch]
    rfl
  · have hphase : r.phaseAfter live token.batch.action = some (.inFlight key) := by
      rw [hbatch]
      show live.draftCatchup.map _ = _
      rw [hkey]
      rfl
    cases hphase.symm.trans hpending

/-- The queue is let go together with the step. -/
theorem recordQuiescentQueueRetirement (h : r.Waiting parent key)
    (hcall : r.recordQuiescentQueueRetirement plan = .ok r') : r'.Attends parent key := by
  obtain ⟨-, -, -, -, rfl⟩ := Registry.recordQuiescentQueueRetirement_eq_ok.mp hcall
  refine ⟨h.idle rfl rfl, fun hpending => ?_⟩
  cases hpending

/-! #### What fails -/

theorem not_transition (h : r.Waiting parent key) (hv : r.Valid)
    (hcall : r.transition request plan = .ok r') : False := by
  obtain ⟨-, hnone, -⟩ := Registry.transition_ok hv.nodup hcall
  cases h.pending.symm.trans hnone

theorem not_reservePublication (h : r.Waiting parent key) (hv : r.Valid)
    {token : PublicationReservation} (hcall : r.reservePublication batch = .ok (token, r')) :
    False := by
  obtain ⟨-, -, haction, hnext, -⟩ := Registry.reservePublication_eq_ok.mp hcall
  rw [hnext.eq (h.isNext hv)] at haction
  cases haction

theorem not_registerDraftCatchupKey (h : r.Waiting parent key)
    (hcall : r.registerDraftCatchupKey other = .ok r') : False := by
  obtain ⟨-, -, hnone, -⟩ := Registry.registerDraftCatchupKey_eq_ok.mp hcall
  cases h.pending.symm.trans hnone

theorem not_reserveDraftCatchupRestoreKey (h : r.Waiting parent key)
    {token : PublicationReservation}
    (hcall : r.reserveDraftCatchupRestoreKey batch other dispatchGeneration = .ok (token, r')) :
    False := by
  obtain ⟨-, -, ⟨hcompleted, -⟩, -⟩ := Registry.reserveDraftCatchupRestoreKey_eq_ok.mp hcall
  cases h.pending.symm.trans hcompleted

theorem not_reserveCompletedWindowReplacement (h : r.Waiting parent key)
    {requests : List RequestId} {token : NewWindowReservation}
    (hcall : r.reserveCompletedWindowReplacement plan requests = .ok (token, r')) : False := by
  obtain ⟨prior, hreplaceable, -⟩ := Registry.reserveCompletedWindowReplacement_eq_ok.mp hcall
  cases h.pending.symm.trans hreplaceable.maintained

theorem not_restoreCompletedWindowReplacement (h : r.Waiting parent key)
    {token : NewWindowReservation} {requests : ServingPlan × List RequestId}
    (hcall : r.restoreCompletedWindowReplacement token = .ok (requests, r')) : False := by
  obtain ⟨⟨live, hreplaces⟩, -⟩ := Registry.restoreCompletedWindowReplacement_eq_ok.mp hcall
  exact h.not_replaces hreplaces

theorem not_recordNewWindowPublication (h : r.Waiting parent key) {token : NewWindowReservation}
    (hcall : r.recordNewWindowPublication token = .ok r') : False := by
  obtain ⟨live, hreplaces, -⟩ := Registry.recordNewWindowPublication_eq_ok.mp hcall
  exact h.not_replaces hreplaces

theorem not_completeExact (h : r.Waiting parent key) (hv : r.Valid) {identity epoch : ℕ}
    {dispositions : List CompletionDisposition}
    (hcall : r.completeExact identity epoch dispositions = .ok r') : False := by
  obtain ⟨-, b, hflight, -⟩ := hv.completeExact hcall
  cases h.quiescent.symm.trans hflight

theorem not_completeDraftCatchupKey (h : r.Waiting parent key) (hv : r.Valid)
    (hcall : r.completeDraftCatchupKey other dispatchGeneration = .ok r') : False := by
  obtain ⟨-, b, -, hflight, -⟩ := hv.completeDraftCatchupKey hcall
  cases h.quiescent.symm.trans hflight

end Registry.Waiting

/-- **What a call can do while a maintenance step is due**: reserve it, publish it, or give it up
for its request. -/
theorem waiting_step {w w' : World C} {op : Op} {parent : ServingPlan} {key : DraftCatchupKey}
    (hv : w.registry.Valid) (h : w.registry.Waiting parent key) (hcall : w.call op = .ok w') :
    w'.registry.Attends parent key := by
  cases op <;> simp only [World.call, bind_eq_ok] at hcall <;>
    obtain ⟨out, hout, hcall⟩ := hcall <;> obtain rfl := Except.ok.inj hcall
  case admitRequest => exact h.admitRequest hout
  case transition => exact (h.not_transition hv hout).elim
  case cancel => exact h.cancel hv hout
  case removeRetired => exact h.removeRetired hv hout
  case reserve => exact (h.not_reservePublication hv hout).elim
  case registerCatchup => exact (h.not_registerDraftCatchupKey hout).elim
  case reserveCatchup => exact h.reserveDraftCatchupKey hv hout
  case reserveRestore => exact (h.not_reserveDraftCatchupRestoreKey hout).elim
  case reserveWindow => exact (h.not_reserveCompletedWindowReplacement hout).elim
  case restoreWindow => exact (h.not_restoreCompletedWindowReplacement hout).elim
  case recordWindow => exact (h.not_recordNewWindowPublication hout).elim
  case abort => exact h.abortPublication hout
  case record => exact h.recordPublication hout
  case complete => exact (h.not_completeExact hv hout).elim
  case completeCatchup => exact (h.not_completeDraftCatchupKey hv hout).elim
  case retireQueue => exact h.recordQuiescentQueueRetirement hout

/-- As long as its request is ready, a maintenance step that was registered is due. -/
theorem Awaits.waiting {key : DraftCatchupKey} {w : World C} (h : Awaits key w) :
    ∃ parent, w.registry.Waiting parent key := by
  induction h with
  | @registered w w' h hcall =>
    simp only [World.call, bind_eq_ok] at hcall
    obtain ⟨r', hr, hcall⟩ := hcall
    obtain rfl := Except.ok.inj hcall
    obtain ⟨hunreserved, hquiescent, -, ⟨parent, hkey⟩, rfl⟩ :=
      Registry.registerDraftCatchupKey_eq_ok.mp hr
    refine ⟨parent, rfl, hquiescent, ⟨hkey.valid, hkey.bound, hkey.submitted, hkey.completed,
      hkey.ready, hkey.quiet⟩, fun live hlive => ?_⟩
    cases hunreserved.symm.trans hlive
  | @step w w' op h hs hpending hready ih =>
    obtain ⟨parent, hwaiting⟩ := ih
    have hattends := waiting_step (reachable_good h.reachable).valid hwaiting hs.2
    exact ⟨parent, hattends.waiting hpending hready⟩

/-! ### Every run -/

/-- Nothing but the maintenance step can run. -/
structure World.Due (w : World C) (parent : ServingPlan) (key : DraftCatchupKey) : Prop where
  /-- Its batch is planned, for its request alone, in its epoch. -/
  planned : w.registry.boundPlan = some parent ∧ (w.registry.reservation = none →
    w.registry.planNext =
      .ok (some ⟨parent, [key.request], key.epoch, .quiescentDraftCatchup parent⟩))
  /-- The key reserves it. -/
  reserves : w.registry.reservation = none → w.registry.nextReservationId + 1 < 2 ^ 64 →
    ∃ out, w.registry.reserveDraftCatchupKey
      ⟨parent, [key.request], key.epoch, .quiescentDraftCatchup parent⟩ key = .ok out
  /-- Whatever is called, nothing else is reserved, and nothing else is in flight after it. -/
  only : ∀ op w', (serving C).step w op w' →
    (∀ live, w'.registry.reservation = some live → live.plan = parent ∧ live.epoch = key.epoch ∧
        live.action = .quiescentDraftCatchup parent ∧ live.draftCatchup = some key) ∧
      ∀ b, w'.registry.inFlight = some b → b = ⟨parent, [key.request], key.epoch⟩

theorem Awaits.due {key : DraftCatchupKey} {w : World C} (h : Awaits key w) :
    ∃ parent, w.Due parent key := by
  have hw := reachable_good h.reachable
  obtain ⟨parent, hwaiting⟩ := h.waiting
  have hnext := hwaiting.isNext hw.valid
  refine ⟨parent, ⟨hwaiting.due.bound, fun hunreserved => ?_⟩, fun hunreserved hid => ?_,
    fun op w' hs => ?_⟩
  · exact (Registry.planNext_eq_some hw.capacity).mpr ⟨hunreserved, hwaiting.quiescent, hnext⟩
  · exact ⟨(_, _), Registry.reserveDraftCatchupKey_eq_ok.mpr
      ⟨hunreserved, hwaiting.quiescent, hnext, hwaiting.starts, hid, rfl, rfl⟩⟩
  · have honly := (waiting_step hw.valid hwaiting hs.2).only
    exact ⟨honly.reserved, honly.published⟩

/-- **The registry is never wedged.** In a run without a live reservation and a batch in flight,
planning, the queue and reservations agree; and as long as the request of a maintenance step has
been ready, nothing but that step can run.

A request that is cancelled is not waited for any more, and admitting its identity again starts
nothing anew: the key stays in the registry, and planning may answer `DraftCatchupPhaseMismatch`, an
error that `plan_next` does not list. The first part covers these states: after an error the queue
action is `Retire`, retirement is accepted and drops the key, and what is ready is then planned with
a fresh launch. -/
theorem never_wedged :
    (∀ w : World C, (serving C).Reachable w → w.registry.reservation = none →
        w.registry.inFlight = none → w.registry.submittedEpoch < 2 ^ 64 - 1 →
          w.registry.Unwedged) ∧
      ∀ (key : DraftCatchupKey) (w : World C), Awaits key w → ∃ parent, w.Due parent key := by
  refine ⟨fun w h hunreserved hquiescent hepoch => ?_, fun key w h => h.due⟩
  have hw := reachable_good h
  exact hw.valid.unwedged hw.capacity hunreserved hquiescent (by omega)

theorem prefillS1_checked :
    checkPair ⟨.target8B, .prefill, .prefillS1T128⟩ ⟨.draft06B, .prefill, .prefillS1T128⟩ =
      .ok (.pairedPrefill, 1) := rfl

theorem speculativeS1K4_checked :
    checkPair ⟨.target8B, .speculative, .speculativeS1K4C8192⟩
      ⟨.draft06B, .decode, .decodeS1C8192⟩ = .ok (.speculativeK4, 1) := rfl

/-- Paired prefill of one sequence. -/
def prefillS1 : ServingPlan := ⟨_, _, _, _, prefillS1_checked⟩

/-- Speculation of four tokens for one sequence. -/
def speculativeS1K4 : ServingPlan := ⟨_, _, _, _, speculativeS1K4_checked⟩

/-- A request is prefilled and speculates for one round. -/
def speculatesOnce : List Op :=
  [.admitRequest ⟨0, 1⟩ prefillS1, .reserve ⟨prefillS1, [⟨0, 1⟩], 1, .freshLaunch⟩,
    .record ⟨1, 1, ⟨prefillS1, [⟨0, 1⟩], 1, .freshLaunch⟩⟩,
    .complete 1 1 [.continue_ speculativeS1K4],
    .reserve ⟨speculativeS1K4, [⟨0, 1⟩], 2, .quiescentRollover prefillS1 speculativeS1K4 .mode⟩,
    .record ⟨1, 2,
      ⟨speculativeS1K4, [⟨0, 1⟩], 2, .quiescentRollover prefillS1 speculativeS1K4 .mode⟩⟩,
    .complete 1 2 [.continue_ speculativeS1K4]]

/-- The round accepted every token that was drafted. -/
def fullAcceptance : DraftCatchupKey :=
  ⟨7, ⟨.target8B, .speculative, .speculativeS1K4C8192⟩, ⟨0, 1⟩, 0, 2, 3, 132, 133, 9, 1⟩

theorem never_wedged_speculatesOnce :
    ∃ w w' : World 8, (World.start 8).calls speculatesOnce = .ok w ∧ w.registry.Unwedged ∧
      w.call (.registerCatchup fullAcceptance) = .ok w' ∧
      ∃ parent, w'.Due parent fullAcceptance := by
  obtain ⟨w, hw⟩ : ∃ w, (World.start 8).calls speculatesOnce = .ok w := ⟨_, rfl⟩
  have hreachable : (serving 8).Reachable w := by
    refine reachable_of_calls (.init ⟨⟨1, rfl⟩, rfl, rfl⟩) ?_ hw
    intro op hop v
    simp only [speculatesOnce, List.mem_cons, List.not_mem_nil, or_false] at hop
    rcases hop with rfl | rfl | rfl | rfl | rfl | rfl | rfl <;> trivial
  obtain rfl := Except.ok.inj hw
  exact ⟨_, _, hw, never_wedged.1 _ hreachable rfl rfl (by decide), rfl,
    never_wedged.2 fullAcceptance _ (.registered hreachable rfl)⟩

end ServingRegistry

end Ferric
