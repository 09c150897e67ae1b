import Ferric.Lib.System
import Ferric.ServingRegistry.Invariant

/-!
# Runs of the registry

Calls come in any order, with batches, tokens, keys and dispositions of any kind. Only a reservation
of a window cannot be made up: its fields are private, it is not copied, and restoring or recording
it uses it up.

The log of a run is a ghost. It says which requests entered and which were cancelled, which batches
were published, with the registry that published them, and which epochs completed.

## Main definitions

* `World`, `Op`, `serving` — a registry with its windows and its log, its calls, its runs
* `World.Good` — what the log tells of the registry

## Main results

* `reachable_good` — every run keeps the registry in good order, and in step with its log
* `run_orderly` — one batch at a time, of ready requests, and of no request that was cancelled
-/

namespace Ferric

namespace ServingRegistry

open Spec

/-! ### The log -/

/-- What happens to requests and batches. -/
inductive Event (C : ℕ) where
  | entered (request : RequestId)
  | cancelled (request : RequestId)
  | published (before : Registry C) (batch : BatchPlan)
  | completed (epoch : ℕ)

/-- What happens to epochs. -/
inductive Turn where
  | published (epoch : ℕ)
  | completed (epoch : ℕ)
  deriving DecidableEq

variable {C : ℕ}

def Event.turn : Event C → Option Turn
  | .published _ batch => some (.published batch.epoch)
  | .completed epoch => some (.completed epoch)
  | _ => none

/-- The epochs of a log. -/
def turns (log : List (Event C)) : List Turn := log.filterMap Event.turn

/-- The first `n` epochs, each published and then completed. -/
def rounds (n : ℕ) : List Turn :=
  (List.range n).flatMap fun k => [.published (k + 1), .completed (k + 1)]

theorem rounds_succ (n : ℕ) :
    rounds (n + 1) = rounds n ++ [.published (n + 1)] ++ [.completed (n + 1)] := by
  rw [rounds, List.range_succ, List.flatMap_append, rounds, List.append_assoc]
  rfl

/-- Whether a request is cancelled after an event. -/
def withdrawnBy (request : RequestId) (was : Bool) : Event C → Bool
  | .entered other => if other = request then false else was
  | .cancelled other => if other = request then true else was
  | _ => was

/-- The request was cancelled, and did not enter again. -/
def withdrawn (request : RequestId) (log : List (Event C)) : Bool :=
  log.foldl (withdrawnBy request) false

theorem withdrawn_concat (request : RequestId) (log : List (Event C)) (event : Event C) :
    withdrawn request (log ++ [event]) = withdrawnBy request (withdrawn request log) event := by
  rw [withdrawn, List.foldl_append]
  rfl

@[simp] theorem withdrawn_published (request : RequestId) (log : List (Event C))
    (before : Registry C) (batch : BatchPlan) :
    withdrawn request (log ++ [.published before batch]) = withdrawn request log :=
  withdrawn_concat request log _

@[simp] theorem withdrawn_completed (request : RequestId) (log : List (Event C)) (epoch : ℕ) :
    withdrawn request (log ++ [.completed epoch]) = withdrawn request log :=
  withdrawn_concat request log _

/-- A request that entered last is not cancelled. -/
theorem withdrawn_entered {request : RequestId} {requests : List RequestId}
    (h : request ∈ requests) (log : List (Event C)) :
    withdrawn request (log ++ requests.map .entered) = false := by
  have hkeep : ∀ rest : List RequestId,
      (rest.map Event.entered).foldl (withdrawnBy (C := C) request) false = false := by
    intro rest
    induction rest with
    | nil => rfl
    | cons other rest ih =>
      rw [List.map_cons, List.foldl_cons, withdrawnBy, ite_self]
      exact ih
  obtain ⟨before, rest, rfl⟩ := List.append_of_mem h
  rw [withdrawn, List.map_append, List.map_cons, List.foldl_append, List.foldl_append,
    List.foldl_cons, withdrawnBy, if_pos rfl]
  exact hkeep rest

/-! ### Runs -/

/-- A registry, the windows that are held, and what happened. -/
structure World (C : ℕ) where
  registry : Registry C
  windows : List NewWindowReservation
  log : List (Event C)

/-- The calls that change a registry. Planning does not. -/
inductive Op where
  | admitRequest (request : RequestId) (prefill : ServingPlan)
  | transition (request : RequestId) (next : ServingPlan)
  | cancel (request : RequestId)
  | removeRetired (request : RequestId)
  | reserve (batch : BatchPlan)
  | registerCatchup (key : DraftCatchupKey)
  | reserveCatchup (batch : BatchPlan) (key : DraftCatchupKey)
  | reserveRestore (batch : BatchPlan) (key : DraftCatchupKey) (dispatchGeneration : ℕ)
  | reserveWindow (plan : ServingPlan) (requests : List RequestId)
  | restoreWindow (token : NewWindowReservation)
  | recordWindow (token : NewWindowReservation)
  | abort (token : PublicationReservation)
  | record (token : PublicationReservation)
  | complete (identity epoch : ℕ) (dispositions : List CompletionDisposition)
  | completeCatchup (key : DraftCatchupKey) (dispatchGeneration : ℕ)
  | retireQueue (bound : ServingPlan)

namespace World

/-- The world after a call on its registry. -/
def update (w : World C) (r : Registry C) (events : List (Event C)) : World C :=
  { w with registry := r, log := w.log ++ events }

/-- A call that succeeds. -/
def call (w : World C) : Op → Outcome RegistryError (World C)
  | .admitRequest request prefill => do
    let r ← w.registry.admitRequest request prefill
    return w.update r [.entered request]
  | .transition request next => do
    let r ← w.registry.transition request next
    return w.update r []
  | .cancel request => do
    let r ← w.registry.cancel request
    return w.update r.2 [.cancelled request]
  | .removeRetired request => do
    let r ← w.registry.removeRetired request
    return w.update r.2 []
  | .reserve batch => do
    let r ← w.registry.reservePublication batch
    return w.update r.2 []
  | .registerCatchup key => do
    let r ← w.registry.registerDraftCatchupKey key
    return w.update r []
  | .reserveCatchup batch key => do
    let r ← w.registry.reserveDraftCatchupKey batch key
    return w.update r.2 []
  | .reserveRestore batch key dispatchGeneration => do
    let r ← w.registry.reserveDraftCatchupRestoreKey batch key dispatchGeneration
    return w.update r.2 []
  | .reserveWindow plan requests => do
    let r ← w.registry.reserveCompletedWindowReplacement plan requests
    return { w.update r.2 (requests.map .entered) with windows := r.1 :: w.windows }
  | .restoreWindow token => do
    let r ← w.registry.restoreCompletedWindowReplacement token
    return { w.update r.2 [] with windows := w.windows.erase token }
  | .recordWindow token => do
    let r ← w.registry.recordNewWindowPublication token
    return { w.update r [.published w.registry token.publication.batch] with
      windows := w.windows.erase token }
  | .abort token => do
    let r ← w.registry.abortPublication token
    return w.update r []
  | .record token => do
    let r ← w.registry.recordPublication token
    return w.update r [.published w.registry token.batch]
  | .complete identity epoch dispositions => do
    let r ← w.registry.completeExact identity epoch dispositions
    return w.update r [.completed epoch]
  | .completeCatchup key dispatchGeneration => do
    let r ← w.registry.completeDraftCatchupKey key dispatchGeneration
    return w.update r [.completed key.epoch]
  | .retireQueue bound => do
    let r ← w.registry.recordQuiescentQueueRetirement bound
    return w.update r []

/-- A reservation of a window of this registry is one that it gave out. -/
def Holds (w : World C) (token : NewWindowReservation) : Prop :=
  token.publication.registryIdentity = w.registry.identity → token ∈ w.windows

/-- What a caller can call with. -/
def Permits (w : World C) : Op → Prop
  | .restoreWindow token => w.Holds token
  | .recordWindow token => w.Holds token
  | _ => True

end World

/-- The runs of a registry of capacity `C`. -/
def serving (C : ℕ) : System (World C) Op where
  init w := (∃ counter, Registry.new C counter = .ok w.registry) ∧ w.windows = [] ∧ w.log = []
  step w op w' := w.Permits op ∧ w.call op = .ok w'

/-! ### What the log tells -/

/-- A member that is not cancelled: it waits, or it runs. -/
def Entry.Live (e : Entry) : Prop := e.phase = .ready ∨ ∃ epoch, e.phase = .inFlight epoch

/-- A member whose cancellation is accepted is not live any more. -/
theorem not_live_cancelPhase {e : Entry} (h : e.Live) :
    ¬ Entry.Live { e with phase := Registry.cancelPhase e } := by
  intro hlives
  rcases h with hready | ⟨n, hrun⟩
  · rcases hlives with hphase | ⟨m, hphase⟩ <;> simp [Registry.cancelPhase, hready] at hphase
  · rcases hlives with hphase | ⟨m, hphase⟩ <;> simp [Registry.cancelPhase, hrun] at hphase

/-- The epoch of a batch in flight is the next one. -/
theorem Registry.Valid.epoch_eq {r : Registry C} (hv : r.Valid) {b : InFlightBatch}
    (hflight : r.inFlight = some b) : b.epoch = r.completedEpoch + 1 := by
  have heq := hv.epochs
  rw [hflight] at heq
  exact (hv.flight b hflight).2.2.1.trans heq

/-- What the log of a run tells of its registry. -/
structure InStep (r : Registry C) (log : List (Event C)) : Prop where
  epochs : turns log =
    rounds r.completedEpoch ++ r.inFlight.elim [] fun b => [.published b.epoch]
  rosters : ∀ before batch, .published before batch ∈ log → before.IsRoster batch
  live : ∀ e ∈ r.entries, e.Live → withdrawn e.request log = false
  honoured : ∀ (i : ℕ) before batch, log[i]? = some (.published before batch) →
    ∀ request ∈ batch.requests, withdrawn request (log.take i) = false

namespace InStep

variable {r r' : Registry C} {log : List (Event C)}

/-- An event that publishes nothing. -/
theorem concat (h : InStep r log) {event : Event C}
    (hevent : ∀ before batch, event ≠ .published before batch)
    (hturns : turns (log ++ [event]) =
      rounds r'.completedEpoch ++ r'.inFlight.elim [] fun b => [.published b.epoch])
    (hlive : ∀ e ∈ r'.entries, e.Live → withdrawn e.request (log ++ [event]) = false) :
    InStep r' (log ++ [event]) := by
  refine ⟨hturns, ?_, hlive, ?_⟩
  · intro before batch hmem
    rcases List.mem_append.mp hmem with hmem | hmem
    · exact h.rosters before batch hmem
    · exact absurd (List.mem_singleton.mp hmem).symm (hevent before batch)
  · intro i before batch hi
    rcases Nat.lt_or_ge i log.length with hlt | hge
    · rw [List.getElem?_append_left hlt] at hi
      rw [List.take_append_of_le_length hlt.le]
      exact h.honoured i before batch hi
    · rw [List.getElem?_append_right hge, List.getElem?_singleton] at hi
      split at hi
      · exact absurd (Option.some.inj hi) (hevent before batch)
      · cases hi

/-- A call that nothing happens in. -/
theorem quiet (h : InStep r log) (hcompleted : r'.completedEpoch = r.completedEpoch)
    (hflight : r'.inFlight = r.inFlight)
    (hlive : ∀ e ∈ r'.entries, e.Live → ∃ x ∈ r.entries, x.Live ∧ x.request = e.request) :
    InStep r' log := by
  refine ⟨?_, h.rosters, ?_, h.honoured⟩
  · rw [hcompleted, hflight]
    exact h.epochs
  · intro e he hlives
    obtain ⟨x, hx, hxlive, hrequest⟩ := hlive e he hlives
    exact hrequest ▸ h.live x hx hxlive

/-- A request enters. -/
theorem entered (h : InStep r log) {request : RequestId}
    (hcompleted : r'.completedEpoch = r.completedEpoch) (hflight : r'.inFlight = r.inFlight)
    (hlive : ∀ e ∈ r'.entries, e.Live → e.request = request ∨ e ∈ r.entries) :
    InStep r' (log ++ [.entered request]) := by
  refine h.concat (fun _ _ heq => by cases heq) ?_ ?_
  · rw [hcompleted, hflight, ← h.epochs, turns, List.filterMap_append]
    exact List.append_nil _
  · intro e he hlives
    rw [withdrawn_concat, withdrawnBy]
    rcases hlive e he hlives with heq | hmem
    · rw [if_pos heq.symm]
    · rw [h.live e hmem hlives, ite_self]

/-- Requests enter, and all that is left are theirs. -/
theorem enteredAll (h : InStep r log) {requests : List RequestId}
    (hcompleted : r'.completedEpoch = r.completedEpoch) (hflight : r'.inFlight = r.inFlight)
    (hentries : ∀ e ∈ r'.entries, e.request ∈ requests) :
    InStep r' (log ++ requests.map .entered) := by
  have hlog : InStep { r with entries := [] } (log ++ requests.map .entered) := by
    have hstart : InStep { r with entries := [] } log :=
      ⟨h.epochs, h.rosters, fun e he => absurd he List.not_mem_nil, h.honoured⟩
    clear hentries
    induction requests using List.reverseRecOn with
    | nil => simpa using hstart
    | append_singleton requests request ih =>
      rw [List.map_append, ← List.append_assoc]
      exact ih.entered rfl rfl fun e he => absurd he List.not_mem_nil
  refine ⟨?_, hlog.rosters, fun e he _ => withdrawn_entered (hentries e he) log, hlog.honoured⟩
  rw [hcompleted, hflight]
  exact hlog.epochs

/-- A request is cancelled. -/
theorem cancelled (h : InStep r log) {request : RequestId}
    (hcompleted : r'.completedEpoch = r.completedEpoch) (hflight : r'.inFlight = r.inFlight)
    (hlive : ∀ e ∈ r'.entries, e.Live → e.request ≠ request ∧ e ∈ r.entries) :
    InStep r' (log ++ [.cancelled request]) := by
  refine h.concat (fun _ _ heq => by cases heq) ?_ ?_
  · rw [hcompleted, hflight, ← h.epochs, turns, List.filterMap_append]
    exact List.append_nil _
  · intro e he hlives
    obtain ⟨hne, hmem⟩ := hlive e he hlives
    rw [withdrawn_concat, withdrawnBy, if_neg hne.symm]
    exact h.live e hmem hlives

/-- **A batch is published**, of members none of whom is cancelled. -/
theorem published (h : InStep r log) (hv : r.Valid) (hquiescent : r.inFlight = none)
    {batch : BatchPlan}
    (hroster : r.IsRoster batch) {live : ReservedBatch} :
    InStep (r.recorded live batch) (log ++ [.published r batch]) := by
  obtain ⟨chosen, hsub, hrequests, hready, -⟩ := hroster.chosen
  have hturns := h.epochs
  rw [hquiescent] at hturns
  refine ⟨?_, ?_, ?_, ?_⟩
  · rw [turns, List.filterMap_append]
    show turns log ++ [.published batch.epoch] = rounds r.completedEpoch ++ [.published batch.epoch]
    rw [hturns]
    exact congrArg (· ++ _) (List.append_nil _)
  · intro before other hmem
    rcases List.mem_append.mp hmem with hmem | hmem
    · exact h.rosters before other hmem
    · obtain ⟨rfl, rfl⟩ := Event.published.inj (List.mem_singleton.mp hmem)
      exact hroster
  · intro e he hlives
    obtain ⟨x, hx, rfl⟩ := List.mem_map.mp he
    rw [withdrawn_published, Registry.publishEntry_request]
    refine h.live x hx ?_
    by_cases hmem : x.request ∈ batch.requests
    · -- a member that goes into flight waited
      rw [← hrequests] at hmem
      obtain ⟨y, hy, hyx⟩ := List.mem_map.mp hmem
      have hxy : y = x := Keyed.eq_of_nodup hv.nodup (hsub.subset hy) hx hyx
      exact .inl (hxy ▸ (hready y hy).1)
    · rwa [publishEntry, if_neg hmem] at hlives
  · intro i before other hi
    rcases Nat.lt_or_ge i log.length with hlt | hge
    · rw [List.getElem?_append_left hlt] at hi
      rw [List.take_append_of_le_length hlt.le]
      exact h.honoured i before other hi
    · rw [List.getElem?_append_right hge, List.getElem?_singleton] at hi
      split at hi
      · next hzero =>
        obtain ⟨rfl, rfl⟩ := Event.published.inj (Option.some.inj hi)
        have hi : i = log.length := by omega
        rw [hi, List.take_left]
        intro request hrequest
        rw [← hrequests] at hrequest
        obtain ⟨e, he, rfl⟩ := List.mem_map.mp hrequest
        exact h.live e (hsub.subset he) (.inl (hready e he).1)
      · cases hi

/-- **A batch completes.** A member whose cancellation is pending does not go on. -/
theorem completed (h : InStep r log) (hv : r.Valid) {b : InFlightBatch}
    (hflight : r.inFlight = some b) {dispositions : List CompletionDisposition}
    (hlength : dispositions.length = b.requests.length)
    (hcontinue : ∀ lane ∈ b.requests.zip dispositions, lane.2 ≠ .retire →
      ∃ entry, r.entry lane.1 = some entry ∧ entry.phase = .inFlight b.epoch)
    (hentries : r'.entries = r.completedEntries b.epoch (b.requests.zip dispositions))
    (hcompleted : r'.completedEpoch = b.epoch) (hquiescent : r'.inFlight = none) :
    InStep r' (log ++ [.completed b.epoch]) := by
  have hepoch : b.epoch = r.completedEpoch + 1 := hv.epoch_eq hflight
  refine h.concat (fun _ _ heq => by cases heq) ?_ ?_
  · rw [turns, List.filterMap_append]
    show turns log ++ [.completed b.epoch] = _
    rw [h.epochs, hflight, hcompleted, hquiescent, Option.elim_some, Option.elim_none,
      List.append_nil, hepoch, rounds_succ]
  · intro e he hlives
    rw [hentries] at he
    obtain ⟨x, hx, rfl⟩ := List.mem_map.mp he
    rw [withdrawn_completed]
    rcases Registry.take_cases b.epoch hlength x with ⟨-, hsame⟩ | ⟨-, d, hlane, hdone⟩
    · rw [hsame] at hlives ⊢
      exact h.live x hx hlives
    · rw [hdone] at hlives ⊢
      rw [completeEntry_request]
      cases hd : d with
      | retire =>
        subst hd
        rcases hlives with hready | ⟨n, hrun⟩
        · cases hready
        · cases hrun
      | continue_ next =>
        obtain ⟨entry, hentry, hphase⟩ := hcontinue _ hlane (by simp [hd])
        have hxe : x = entry :=
          Option.some.inj ((Registry.entry_of_mem hv.nodup hx).symm.trans hentry)
        exact h.live x hx (.inr ⟨_, hxe ▸ hphase⟩)

end InStep

/-! ### Every run -/

/-- What every run keeps. -/
structure World.Good (w : World C) : Prop where
  capacity : 0 < C
  valid : w.registry.Valid
  shelved : ∀ token ∈ w.windows, Registry.Shelved C token
  inStep : InStep w.registry w.log

namespace World.Good

variable {w : World C} {r' : Registry C} {request : RequestId} {plan : ServingPlan}
variable {batch : BatchPlan} {key : DraftCatchupKey} {dispatchGeneration : ℕ}

/-- A window that passes its checks is one that was given out, so its entries are in good order. -/
theorem shelved_of_replaces (hw : w.Good) {token : NewWindowReservation} {live : ReservedBatch}
    (hholds : w.Holds token) (h : w.registry.Replaces token live) : Registry.Shelved C token :=
  hw.shelved token (hholds h.reserved.identity)

/-! #### Calls that nothing happens in -/

theorem quiet (hw : w.Good) (hvalid : r'.Valid)
    (hcompleted : r'.completedEpoch = w.registry.completedEpoch)
    (hflight : r'.inFlight = w.registry.inFlight)
    (hlive : ∀ e ∈ r'.entries, e.Live →
      ∃ x ∈ w.registry.entries, x.Live ∧ x.request = e.request) : (w.update r' []).Good := by
  refine ⟨hw.capacity, hvalid, hw.shelved, ?_⟩
  show InStep r' (w.log ++ [])
  rw [List.append_nil]
  exact hw.inStep.quiet hcompleted hflight hlive

/-- A call that leaves the entries alone, or removes some. -/
theorem still (hw : w.Good) (hvalid : r'.Valid)
    (hcompleted : r'.completedEpoch = w.registry.completedEpoch)
    (hflight : r'.inFlight = w.registry.inFlight)
    (hentries : r'.entries ⊆ w.registry.entries) : (w.update r' []).Good :=
  hw.quiet hvalid hcompleted hflight fun e he hlives => ⟨e, hentries he, hlives, rfl⟩

theorem transition (hw : w.Good) (h : w.registry.transition request plan = .ok r') :
    (w.update r' []).Good := by
  have hvalid := hw.valid.transition h
  obtain ⟨-, -, entry, -, -, -, rfl⟩ := Registry.transition_ok hw.valid.nodup h
  refine hw.quiet hvalid rfl rfl fun e he hlives => ?_
  obtain ⟨x, hx, rfl⟩ := List.mem_map.mp he
  have hrequest : (onEntry request (fun e => { e with plan := plan }) x).request = x.request :=
    onEntry_request (g := fun e => { e with plan := plan }) (fun _ => rfl) x
  refine ⟨x, hx, ?_, hrequest.symm⟩
  rw [onEntry] at hlives
  split at hlives
  · exact hlives
  · exact hlives

theorem removeRetired (hw : w.Good) {q : Quiescence}
    (h : w.registry.removeRetired request = .ok (q, r')) : (w.update r' []).Good := by
  have hvalid := hw.valid.removeRetired h
  obtain ⟨-, -, -, -, heq⟩ := Registry.removeRetired_ok hw.valid.nodup h
  obtain rfl : r' = _ := heq
  exact hw.still hvalid rfl rfl List.filter_sublist.subset

theorem reservePublication (hw : w.Good) {token : PublicationReservation}
    (h : w.registry.reservePublication batch = .ok (token, r')) : (w.update r' []).Good := by
  obtain ⟨-, hquiescent, -, hnext, -, -, heq⟩ := Registry.reservePublication_eq_ok.mp h
  obtain rfl : r' = _ := heq
  exact hw.still (hw.valid.reserve hnext hquiescent none) rfl rfl (List.Subset.refl _)

theorem registerDraftCatchupKey (hw : w.Good)
    (h : w.registry.registerDraftCatchupKey key = .ok r') : (w.update r' []).Good := by
  obtain ⟨-, hquiescent, -, ⟨parent, hkey⟩, rfl⟩ := Registry.registerDraftCatchupKey_eq_ok.mp h
  exact hw.still (hw.valid.registerKey hquiescent hkey) rfl rfl (List.Subset.refl _)

theorem reserveDraftCatchupKey (hw : w.Good) {token : PublicationReservation}
    (h : w.registry.reserveDraftCatchupKey batch key = .ok (token, r')) :
    (w.update r' []).Good := by
  obtain ⟨-, hquiescent, hnext, -, -, -, heq⟩ := Registry.reserveDraftCatchupKey_eq_ok.mp h
  obtain rfl : r' = _ := heq
  exact hw.still (hw.valid.reserve hnext hquiescent (some key)) rfl rfl (List.Subset.refl _)

theorem reserveDraftCatchupRestoreKey (hw : w.Good) {token : PublicationReservation}
    (h : w.registry.reserveDraftCatchupRestoreKey batch key dispatchGeneration =
      .ok (token, r')) : (w.update r' []).Good := by
  obtain ⟨-, hquiescent, -, hnext, -, -, heq⟩ :=
    Registry.reserveDraftCatchupRestoreKey_eq_ok.mp h
  obtain rfl : r' = _ := heq
  exact hw.still (hw.valid.reserve hnext hquiescent none) rfl rfl (List.Subset.refl _)

theorem abortPublication (hw : w.Good) {token : PublicationReservation}
    (h : w.registry.abortPublication token = .ok r') : (w.update r' []).Good := by
  obtain ⟨-, rfl⟩ := Registry.abortPublication_eq_ok.mp h
  exact hw.still hw.valid.abort rfl rfl (List.Subset.refl _)

theorem recordQuiescentQueueRetirement (hw : w.Good)
    (h : w.registry.recordQuiescentQueueRetirement plan = .ok r') : (w.update r' []).Good := by
  obtain ⟨-, hquiescent, -, -, rfl⟩ := Registry.recordQuiescentQueueRetirement_eq_ok.mp h
  exact hw.still (hw.valid.retireQueue hquiescent) rfl rfl (List.Subset.refl _)

/-! #### Requests that enter and leave -/

theorem admitRequest (hw : w.Good) (h : w.registry.admitRequest request plan = .ok r') :
    (w.update r' [.entered request]).Good := by
  refine ⟨hw.capacity, hw.valid.admitRequest h, hw.shelved, ?_⟩
  obtain ⟨-, -, -, -, -, rfl⟩ := Registry.admit_ok h
  refine hw.inStep.entered rfl rfl fun e he _ => ?_
  rcases List.mem_append.mp he with he | he
  · exact .inr he
  · exact .inl (by rw [List.mem_singleton.mp he])

theorem cancel (hw : w.Good) {phase : RequestPhase}
    (h : w.registry.cancel request = .ok (phase, r')) :
    (w.update r' [.cancelled request]).Good := by
  refine ⟨hw.capacity, hw.valid.cancel h, hw.shelved, ?_⟩
  obtain ⟨-, entry, hentry, hphase, -, heq⟩ := Registry.cancel_ok hw.valid.nodup h
  obtain rfl : r' = _ := heq
  refine hw.inStep.cancelled rfl rfl fun e he hlives => ?_
  obtain ⟨x, hx, rfl⟩ := List.mem_map.mp he
  rw [onEntry] at hlives ⊢
  by_cases hxr : x.request = request
  · -- the member that is cancelled is not live any more
    rw [if_pos hxr] at hlives
    have hxe : x = entry :=
      Option.some.inj ((Registry.entry_of_mem hw.valid.nodup hx).symm.trans (hxr ▸ hentry))
    exact absurd hlives (not_live_cancelPhase (hxe ▸ hphase))
  · rw [if_neg hxr]
    rw [if_neg hxr] at hlives
    exact ⟨hxr, hx⟩

/-! #### Windows -/

theorem reserveCompletedWindowReplacement (hw : w.Good) {requests : List RequestId}
    {token : NewWindowReservation}
    (h : w.registry.reserveCompletedWindowReplacement plan requests = .ok (token, r')) :
    { w.update r' (requests.map .entered) with windows := token :: w.windows }.Good := by
  obtain ⟨prior, hreplaceable, htoken, heq⟩ :=
    Registry.reserveCompletedWindowReplacement_eq_ok.mp h
  obtain rfl : token = _ := htoken
  obtain rfl : r' = _ := heq
  obtain ⟨hvalid, hshelved⟩ := hw.valid.windowed hreplaceable
  refine ⟨hw.capacity, hvalid, ?_, ?_⟩
  · intro other hother
    rcases List.mem_cons.mp hother with rfl | hmem
    · exact hshelved
    · exact hw.shelved other hmem
  · refine hw.inStep.enteredAll rfl rfl fun e he => ?_
    obtain ⟨request, hrequest, rfl⟩ := List.mem_map.mp he
    exact hrequest

/-- The entries that a window held are retired. -/
theorem restoreCompletedWindowReplacement (hw : w.Good) {token : NewWindowReservation}
    {requests : ServingPlan × List RequestId} (hholds : w.Holds token)
    (h : w.registry.restoreCompletedWindowReplacement token = .ok (requests, r')) :
    { w.update r' [] with windows := w.windows.erase token }.Good := by
  obtain ⟨⟨live, hreplaces⟩, -, heq⟩ := Registry.restoreCompletedWindowReplacement_eq_ok.mp h
  obtain rfl : r' = _ := heq
  have hshelved := hw.shelved_of_replaces hholds hreplaces
  have hgood := hw.quiet (hw.valid.restored hreplaces hshelved) rfl rfl fun e he hlives => by
    obtain ⟨q, hq⟩ := hshelved.retired e he
    rcases hlives with hready | ⟨n, hrun⟩
    · cases hq.symm.trans hready
    · cases hq.symm.trans hrun
  exact ⟨hgood.capacity, hgood.valid,
    fun other hother => hw.shelved other (List.mem_of_mem_erase hother), hgood.inStep⟩

theorem recordNewWindowPublication (hw : w.Good) {token : NewWindowReservation}
    (h : w.registry.recordNewWindowPublication token = .ok r') :
    { w.update r' [.published w.registry token.publication.batch] with
      windows := w.windows.erase token }.Good := by
  obtain ⟨live, hreplaces, rfl⟩ := Registry.recordNewWindowPublication_eq_ok.mp h
  have hreserved := hreplaces.reserved
  exact ⟨hw.capacity, hw.valid.recorded hreserved,
    fun other hother => hw.shelved other (List.mem_of_mem_erase hother),
    hw.inStep.published hw.valid hreserved.quiescent hreserved.roster⟩

/-! #### Batches -/

theorem recordPublication (hw : w.Good) {token : PublicationReservation}
    (h : w.registry.recordPublication token = .ok r') :
    (w.update r' [.published w.registry token.batch]).Good := by
  obtain ⟨live, hreserved, rfl⟩ := Registry.recordPublication_eq_ok.mp h
  exact ⟨hw.capacity, hw.valid.recorded hreserved, hw.shelved,
    hw.inStep.published hw.valid hreserved.quiescent hreserved.roster⟩

theorem completeExact (hw : w.Good) {identity epoch : ℕ}
    {dispositions : List CompletionDisposition}
    (h : w.registry.completeExact identity epoch dispositions = .ok r') :
    (w.update r' [.completed epoch]).Good := by
  obtain ⟨hvalid, b, hflight, rfl, hlength, rfl⟩ := hw.valid.completeExact h
  obtain ⟨-, -, b', hflight', -, -, -, hlanes⟩ :=
    Registry.validateCompletionExact_ok (Registry.completeExact_ok h).1
  obtain rfl := Option.some.inj (hflight.symm.trans hflight')
  refine ⟨hw.capacity, hvalid, hw.shelved,
    hw.inStep.completed hw.valid hflight hlength (fun lane hlane hne => ?_) rfl rfl rfl⟩
  obtain ⟨entry, hentry, hphase⟩ := hlanes lane hlane
  exact ⟨entry, hentry, hphase hne⟩

theorem completeDraftCatchupKey (hw : w.Good)
    (h : w.registry.completeDraftCatchupKey key dispatchGeneration = .ok r') :
    (w.update r' [.completed key.epoch]).Good := by
  obtain ⟨hvalid, b, disposition, hflight, hepoch, hrequests, -, hdisposition, rfl⟩ :=
    hw.valid.completeDraftCatchupKey h
  obtain ⟨-, -, -, -, -, entry, -, -, -, -, -, hentry, -, hlane⟩ :=
    Registry.validateDraftCatchupCompletion_ok hdisposition
  refine ⟨hw.capacity, hvalid, hw.shelved, ?_⟩
  show InStep _ (w.log ++ [.completed key.epoch])
  rw [← hepoch]
  refine hw.inStep.completed hw.valid hflight (by simp [hrequests]) (fun lane hmem hne => ?_) rfl
    rfl rfl
  rw [hrequests, List.zip_cons_cons, List.zip_nil_right, List.mem_singleton] at hmem
  subst hmem
  exact ⟨entry, hentry, hepoch ▸ (hlane hne).1⟩

end World.Good

/-- Every call keeps the registry in good order, and in step with its log. -/
theorem good_step {w w' : World C} {op : Op} (hw : w.Good) (hpermits : w.Permits op)
    (h : w.call op = .ok w') : w'.Good := by
  cases op <;> simp only [World.call, bind_eq_ok] at h <;> obtain ⟨out, hout, h⟩ := h <;>
    obtain rfl := Except.ok.inj h
  case admitRequest => exact hw.admitRequest hout
  case transition => exact hw.transition hout
  case cancel => exact hw.cancel hout
  case removeRetired => exact hw.removeRetired hout
  case reserve => exact hw.reservePublication hout
  case registerCatchup => exact hw.registerDraftCatchupKey hout
  case reserveCatchup => exact hw.reserveDraftCatchupKey hout
  case reserveRestore => exact hw.reserveDraftCatchupRestoreKey hout
  case reserveWindow => exact hw.reserveCompletedWindowReplacement hout
  case restoreWindow => exact hw.restoreCompletedWindowReplacement hpermits hout
  case recordWindow => exact hw.recordNewWindowPublication hout
  case abort => exact hw.abortPublication hout
  case record => exact hw.recordPublication hout
  case complete => exact hw.completeExact hout
  case completeCatchup => exact hw.completeDraftCatchupKey hout
  case retireQueue => exact hw.recordQuiescentQueueRetirement hout

/-- **Every run keeps the registry in good order, and in step with its log.** -/
theorem reachable_good {w : World C} (h : (serving C).Reachable w) : w.Good := by
  refine System.Reachable.induction (I := World.Good) ?_ ?_ h
  · rintro w ⟨⟨counter, hnew⟩, hwindows, hlog⟩
    obtain ⟨hvalid, hC⟩ := Registry.Valid.new hnew
    simp only [Registry.new, bind_eq_ok, failIf_eq_ok] at hnew
    obtain ⟨_, -, _, -, _, -, hnew⟩ := hnew
    refine ⟨hC, hvalid, by simp [hwindows], ?_⟩
    rw [hlog, ← Except.ok.inj hnew]
    exact ⟨rfl, by simp, by simp, by simp⟩
  · intro w op w' _ hw hstep
    exact good_step hw hstep.1 hstep.2

/-! ### What every run keeps -/

/-- One batch at a time, of ready requests, and of none that was cancelled. -/
structure World.Orderly (w : World C) : Prop where
  /-- Entries have requests of their own. -/
  distinct : (w.registry.entries.map (·.request)).Nodup
  /-- At most one epoch is open, and it is that of the batch in flight. -/
  epochs : w.registry.submittedEpoch =
    w.registry.completedEpoch + if w.registry.inFlight.isSome then 1 else 0
  /-- The members that run are the roster of the batch in flight, in its epoch. -/
  running : ∀ request epoch,
    (∃ e ∈ w.registry.entries, e.request = request ∧
        (e.phase = .inFlight epoch ∨ e.phase = .cancellationPending epoch)) ↔
      ∃ b, w.registry.inFlight = some b ∧ request ∈ b.requests ∧ epoch = b.epoch
  /-- They run under its plan, and they are in the order of the entries. -/
  plans : ∀ b, w.registry.inFlight = some b →
    ((w.registry.entries.filter (·.request ∈ b.requests)).map (·.request) = b.requests) ∧
      ∀ e ∈ w.registry.entries, e.request ∈ b.requests → e.plan = b.plan
  /-- The epochs 1, 2, 3, … are published and completed in turn, and the open one is the next. -/
  turns : turns w.log = rounds w.registry.completedEpoch ++
      w.registry.inFlight.elim [] (fun b => [.published b.epoch]) ∧
    ∀ b, w.registry.inFlight = some b → b.epoch = w.registry.completedEpoch + 1
  /-- A roster is the first ready entries of one plan, or the request of a maintenance step. -/
  rosters : ∀ before batch, .published before batch ∈ w.log →
    (before.draftCatchup = none ∧ batch.requests ≠ [] ∧
        batch.requests = ((before.entries.filter fun e =>
          e.phase = .ready ∧ e.plan = batch.plan).take
            (min C batch.plan.sequenceCapacity)).map (·.request)) ∨
      ∃ phase, before.draftCatchup = some phase ∧ batch.requests = [phase.key.request] ∧
        before.ReadyUnder phase.key.request batch.plan
  /-- A request that was cancelled is not published unless it enters again. -/
  honoured : ∀ (i : ℕ) before batch, w.log[i]? = some (.published before batch) →
    ∀ request ∈ batch.requests, withdrawn request (w.log.take i) = false
  /-- A member that was cancelled waits for its batch, or is retired. -/
  withdrawn : ∀ e ∈ w.registry.entries, withdrawn e.request w.log = true →
    (∃ epoch, e.phase = .cancellationPending epoch) ∨ ∃ q, e.phase = .retired q

theorem activeEpoch_eq_some {phase : RequestPhase} {epoch : ℕ} :
    phase.activeEpoch = some epoch ↔
      phase = .inFlight epoch ∨ phase = .cancellationPending epoch := by
  cases phase <;> simp [RequestPhase.activeEpoch]

/-- The members of a batch in flight, as its requests. -/
theorem Registry.Valid.running {r : Registry C} (hv : r.Valid) (request : RequestId) (epoch : ℕ) :
    (∃ e ∈ r.entries, e.request = request ∧
        (e.phase = .inFlight epoch ∨ e.phase = .cancellationPending epoch)) ↔
      ∃ b, r.inFlight = some b ∧ request ∈ b.requests ∧ epoch = b.epoch := by
  constructor
  · rintro ⟨e, he, rfl, hphase⟩
    have hactive := activeEpoch_eq_some.mpr hphase
    obtain ⟨b, hb, hepoch, -⟩ := (hv.entries e he).active epoch hactive
    have hmem := hv.mem_roster he (by rw [hactive]; rfl)
    rw [Registry.roster, hb] at hmem
    exact ⟨b, hb, hmem, hepoch⟩
  · rintro ⟨b, hb, hmem, rfl⟩
    have hroster : request ∈ r.roster := by rwa [Registry.roster, hb]
    obtain ⟨e, he, hrequest, hactive⟩ := hv.exists_of_mem_roster hroster
    obtain ⟨n, hn⟩ := Option.isSome_iff_exists.mp hactive
    obtain ⟨b', hb', hepoch, -⟩ := (hv.entries e he).active n hn
    obtain rfl : b' = b := Option.some.inj (hb'.symm.trans hb)
    exact ⟨e, he, hrequest, activeEpoch_eq_some.mp (hepoch ▸ hn)⟩

/-- **One batch at a time, of ready requests, and of none that was cancelled**: over every run of
calls, whatever they are made with. -/
theorem run_orderly {w : World C} (h : (serving C).Reachable w) : w.Orderly := by
  have hw := reachable_good h
  have hv := hw.valid
  refine ⟨hv.nodup, ?_, hv.running, fun b hb => ⟨?_, fun e he hmem => ?_⟩,
    ⟨hw.inStep.epochs, fun b hb => hv.epoch_eq hb⟩, fun before batch hmem => ?_,
    hw.inStep.honoured, fun e he hwithdrawn => ?_⟩
  · rw [hv.epochs]
    cases w.registry.inFlight <;> rfl
  · have hroster : (active w.registry.entries).map (·.request) = b.requests := by
      rw [hv.roster, Registry.roster, hb]
      rfl
    have hsub : b.requests.Sublist (w.registry.entries.map (·.request)) :=
      hroster ▸ List.filter_sublist.map _
    have hfilter := filter_mem_of_sublist hsub hv.nodup
    rw [List.filter_map] at hfilter
    exact hfilter
  · obtain ⟨x, hx, hrequest, hphase⟩ := (hv.running e.request b.epoch).mpr ⟨b, hb, hmem, rfl⟩
    obtain rfl : x = e := Keyed.eq_of_nodup hv.nodup hx he hrequest
    obtain ⟨b', hb', -, hplan⟩ := (hv.entries x hx).active _ (activeEpoch_eq_some.mpr hphase)
    rw [hplan, Option.some.inj (hb'.symm.trans hb)]
  · have hroster := hw.inStep.rosters before batch hmem
    unfold Registry.IsRoster at hroster
    cases hphase : before.draftCatchup with
    | none =>
      rw [hphase] at hroster
      exact .inl ⟨rfl, hroster.2, hroster.1⟩
    | some phase =>
      rw [hphase] at hroster
      exact .inr ⟨phase, rfl, hroster⟩
  · have hlive : ¬ e.Live := by
      intro hlive
      rw [hw.inStep.live e he hlive] at hwithdrawn
      cases hwithdrawn
    cases hphase : e.phase with
    | ready => exact absurd (.inl hphase) hlive
    | inFlight epoch => exact absurd (.inr ⟨epoch, hphase⟩) hlive
    | cancellationPending epoch => exact .inl ⟨epoch, rfl⟩
    | retired q => exact .inr ⟨q, rfl⟩

/-! ### A run -/

/-- Calls in a row. -/
def World.calls (w : World C) (ops : List Op) : Outcome RegistryError (World C) :=
  ops.foldlM World.call w

/-- Calls that need no window reach what they leave. -/
theorem reachable_of_calls {w w' : World C} {ops : List Op} (h : (serving C).Reachable w)
    (hops : ∀ op ∈ ops, ∀ v : World C, v.Permits op) (hcalls : w.calls ops = .ok w') :
    (serving C).Reachable w' := by
  induction ops generalizing w with
  | nil =>
    obtain rfl : w = w' := Except.ok.inj hcalls
    exact h
  | cons op ops ih =>
    rw [World.calls, List.foldlM_cons, bind_eq_ok] at hcalls
    obtain ⟨v, hv, hcalls⟩ := hcalls
    exact ih (h.step ⟨hops op List.mem_cons_self w, hv⟩) (fun o ho => hops o (.tail _ ho)) hcalls

/-- A fresh registry. -/
def World.start (C : ℕ) : World C := ⟨⟨1, [], none, none, none, none, 1, 0, 0⟩, [], []⟩

theorem prefillS8_checked :
    checkPair ⟨.target8B, .prefill, .prefillS8T128⟩ ⟨.draft06B, .prefill, .prefillS8T128⟩ =
      .ok (.pairedPrefill, 8) := rfl

/-- Paired prefill of eight sequences. -/
def prefillS8 : ServingPlan := ⟨_, _, _, _, prefillS8_checked⟩

/-- Two requests enter and are published together, one of them is cancelled, and both retire. -/
def bothRetire : List Op :=
  [.admitRequest ⟨0, 1⟩ prefillS8, .admitRequest ⟨0, 2⟩ prefillS8,
    .reserve ⟨prefillS8, [⟨0, 1⟩, ⟨0, 2⟩], 1, .freshLaunch⟩,
    .record ⟨1, 1, ⟨prefillS8, [⟨0, 1⟩, ⟨0, 2⟩], 1, .freshLaunch⟩⟩,
    .cancel ⟨0, 2⟩, .complete 1 1 [.retire, .retire]]

theorem reachable_bothRetire {w : World 8} (h : (World.start 8).calls bothRetire = .ok w) :
    (serving 8).Reachable w := by
  refine reachable_of_calls (.init ⟨⟨1, rfl⟩, rfl, rfl⟩) ?_ h
  intro op hop v
  simp only [bothRetire, List.mem_cons, List.not_mem_nil, or_false] at hop
  rcases hop with rfl | rfl | rfl | rfl | rfl | rfl <;> trivial

theorem run_orderly_bothRetire :
    ∃ w : World 8, (World.start 8).calls bothRetire = .ok w ∧ w.Orderly := by
  obtain ⟨w, hw⟩ : ∃ w, (World.start 8).calls bothRetire = .ok w := ⟨_, rfl⟩
  exact ⟨w, hw, run_orderly (reachable_bothRetire hw)⟩

end ServingRegistry

end Ferric
