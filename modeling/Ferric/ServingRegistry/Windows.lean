import Ferric.ServingRegistry.Calls

/-!
# The replacement of a window

A window whose members all retired is replaced as a whole: every lane keeps its slot and moves on by
one generation. The reservation takes the old entries along, so it can be undone, and recording it
puts the fresh roster in flight.

## Main definitions

* `Replaceable` — what `reserve_completed_window_replacement` asks of the registry and the roster
* `Replaces` — what a reservation has to be when it is restored or recorded

## Main results

* `reserveCompletedWindowReplacement_eq_ok`, `validateNewWindowReservation_eq_ok`
* `Replaceable.replaces` — a reservation may be restored or recorded at once
* `Replaceable.nodup`, `Replaceable.exists_mem_iff` — which identities a window installs
-/

namespace Ferric

namespace ServingRegistry

open Spec

/-- A member of the window that ends. -/
def Entry.CompletedUnder (entry : Entry) (prior : ServingPlan) (completedEpoch : ℕ) : Prop :=
  entry.plan = prior ∧ ∃ epoch, entry.phase = .retired (.completed epoch) ∧ epoch ≠ 0 ∧
    epoch ≤ completedEpoch ∧ entry.lastQuiescence = some epoch

theorem validateCompletedWindowPredecessor_eq_ok {entry : Entry} {prior : ServingPlan}
    {completedEpoch index : ℕ} {u : Unit} :
    validateCompletedWindowPredecessor entry prior completedEpoch index = .ok u ↔
      entry.CompletedUnder prior completedEpoch := by
  simp only [validateCompletedWindowPredecessor, Entry.CompletedUnder, bind_eq_ok, failIf_eq_ok,
    exists_const, not_not]
  refine and_congr_right fun _ => ?_
  cases entry.phase with
  | retired quiescence =>
    cases quiescence with
    | completed epoch => simp
    | neverSubmitted => simp
  | _ => simp

/-- The next generation of a slot. -/
def Succeeds (request predecessor : RequestId) : Prop :=
  request.generation ≠ 0 ∧ request.slot = predecessor.slot ∧
    checkedAdd 32 predecessor.generation 1 = some request.generation

theorem validateSuccessor_eq_ok {request : RequestId} {predecessor : Entry} {index : ℕ}
    {u : Unit} :
    validateSuccessor request predecessor index = .ok u ↔ Succeeds request predecessor.request := by
  simp only [validateSuccessor, Succeeds, bind_eq_ok, failIf_eq_ok, exists_const, not_not]

theorem Succeeds.eq {request predecessor : RequestId} (h : Succeeds request predecessor) :
    request = ⟨predecessor.slot, predecessor.generation + 1⟩ := by
  obtain ⟨-, hslot, hgeneration⟩ := h
  obtain ⟨-, hgeneration⟩ := checkedAdd_eq_some.mp hgeneration
  cases request
  simp_all

/-- The entry of a fresh request. -/
def freshEntry (plan : ServingPlan) (request : RequestId) : Entry := ⟨request, plan, .ready, none⟩

namespace Registry

variable {C : ℕ} {r r' : Registry C}

/-- What `reserve_completed_window_replacement` asks for. -/
structure Replaceable (r : Registry C) (prior plan : ServingPlan) (requests : List RequestId) :
    Prop where
  unreserved : r.reservation = none
  quiescent : r.inFlight = none
  maintained : r.draftCatchup = none
  bound : r.boundPlan = some prior
  nonempty : r.entries ≠ []
  predecessors : ∀ e ∈ r.entries, e.CompletedUnder prior r.completedEpoch
  prefill : plan.mode = .prefill
  length_le : requests.length ≤ C
  capacity : requests.length ≤ plan.sequenceCapacity
  successors : List.Forall₂ (fun request (e : Entry) => Succeeds request e.request) requests
    r.entries
  epochs : r.submittedEpoch = r.completedEpoch
  epoch : r.submittedEpoch + 1 < 2 ^ 64
  id : r.nextReservationId + 1 < 2 ^ 64

/-- The batch of a fresh window. -/
def windowBatch (r : Registry C) (prior plan : ServingPlan) (requests : List RequestId) :
    BatchPlan :=
  ⟨plan, requests, r.submittedEpoch + 1, .quiescentNewWindow prior plan⟩

/-- The authority over the replacement of the window. -/
def windowToken (r : Registry C) (prior plan : ServingPlan) (requests : List RequestId) :
    NewWindowReservation :=
  ⟨prior, r.entries, requests,
    ⟨r.identity, r.nextReservationId, r.windowBatch prior plan requests⟩⟩

/-- The registry with the fresh roster in the place of the window. -/
def windowed (r : Registry C) (prior plan : ServingPlan) (requests : List RequestId) :
    Registry C :=
  { r.reserved (r.windowBatch prior plan requests) none with
    entries := requests.map (freshEntry plan) }

theorem predecessor_checks_eq_ok {entries : List Entry} {prior : ServingPlan} {completed : ℕ}
    {u : Unit} :
    entries.zipIdx.foldlM
        (fun _ p => validateCompletedWindowPredecessor p.1 prior completed p.2) () = .ok u ↔
      ∀ e ∈ entries, e.CompletedUnder prior completed := by
  refine foldlM_checks_eq_ok.trans ?_
  simp only [validateCompletedWindowPredecessor_eq_ok]
  constructor
  · intro h e he
    obtain ⟨i, hi⟩ := List.getElem?_of_mem he
    exact h (e, i) (List.mem_zipIdx_iff_getElem?.mpr hi)
  · intro h p hp
    exact h p.1 (List.mem_of_getElem? (List.mem_zipIdx_iff_getElem?.mp hp))

theorem successor_checks_eq_ok {requests : List RequestId} {entries : List Entry}
    (hlength : requests.length = entries.length) {u : Unit} :
    (requests.zip entries).zipIdx.foldlM (fun _ p => validateSuccessor p.1.1 p.1.2 p.2) () =
        .ok u ↔
      List.Forall₂ (fun request (e : Entry) => Succeeds request e.request) requests entries := by
  refine foldlM_checks_eq_ok.trans ?_
  simp only [validateSuccessor_eq_ok]
  rw [List.forall₂_iff_zip]
  constructor
  · intro h
    refine ⟨hlength, fun {a b} hab => ?_⟩
    obtain ⟨i, hi⟩ := List.getElem?_of_mem hab
    exact h ((a, b), i) (List.mem_zipIdx_iff_getElem?.mpr hi)
  · rintro ⟨-, h⟩ p hp
    exact h (List.mem_of_getElem? (List.mem_zipIdx_iff_getElem?.mp hp))

/-- **When a window is replaced, and by what.** -/
theorem reserveCompletedWindowReplacement_eq_ok {plan : ServingPlan} {requests : List RequestId}
    {token : NewWindowReservation} :
    r.reserveCompletedWindowReplacement plan requests = .ok (token, r') ↔
      ∃ prior, r.Replaceable prior plan requests ∧ token = r.windowToken prior plan requests ∧
        r' = r.windowed prior plan requests := by
  simp only [reserveCompletedWindowReplacement, reserveCompletedWindowReplacementWithStorage,
    bind_eq_ok, rejectLiveReservation_eq_ok, failIf_eq_ok, exists_const,
    Option.not_isSome_iff_eq_none, orErr_eq_ok, not_or, not_not, checkedAdd_eq_some,
    predecessor_checks_eq_ok]
  constructor
  · rintro ⟨hlive, hquiescent, hphase, prior, hbound, hne, hpred, hmode, -, ⟨hC, hcap⟩, hlength,
      _, hsucc, hepochs, _, ⟨hepoch, rfl⟩, _, ⟨hid, rfl⟩, -, -, h⟩
    obtain ⟨rfl, rfl⟩ := Prod.mk.inj (Except.ok.inj h)
    refine ⟨prior, ⟨hlive, hquiescent, hphase, hbound, hne, hpred, hmode, by omega, by omega, ?_,
      hepochs, hepoch, hid⟩, rfl, rfl⟩
    exact (successor_checks_eq_ok hlength).mp hsucc
  · rintro ⟨prior, h, rfl, rfl⟩
    have hlength := h.successors.length_eq
    have hcapacity := (capacity_of_plan plan).2
    have hle := h.capacity
    have hne : requests ≠ [] := by
      intro hnil
      rw [hnil, List.length_nil] at hlength
      exact h.nonempty (List.length_eq_zero_iff.mp hlength.symm)
    refine ⟨h.unreserved, h.quiescent, h.maintained, prior, h.bound, h.nonempty,
      h.predecessors, h.prefill, hne, ⟨?_, ?_⟩, hlength, (),
      (successor_checks_eq_ok hlength).mpr h.successors, h.epochs, _, ⟨h.epoch, rfl⟩, _,
      ⟨h.id, rfl⟩,
      ?_, ?_, rfl⟩
    · exact not_lt.mpr h.length_le
    · exact not_lt.mpr h.capacity
    · exact lt_irrefl _
    · omega

/-- What a reservation of a window has to be when it is restored or recorded. -/
structure Replaces (r : Registry C) (token : NewWindowReservation) (live : ReservedBatch) :
    Prop where
  reserved : r.Reserved token.publication live
  bound : r.boundPlan = some token.prior
  action : token.publication.batch.action =
    .quiescentNewWindow token.prior token.publication.batch.plan
  requests : token.requests = token.publication.batch.requests
  nonempty : token.predecessors ≠ []
  length_le : token.predecessors.length ≤ C
  capacity : token.predecessors.length ≤ token.publication.batch.plan.sequenceCapacity
  prefill : token.publication.batch.plan.mode = .prefill
  predecessors : ∀ e ∈ token.predecessors, e.CompletedUnder token.prior r.completedEpoch
  entries : r.entries =
    token.publication.batch.requests.map (freshEntry token.publication.batch.plan)
  successors : List.Forall₂ (fun request (e : Entry) => Succeeds request e.request)
    token.publication.batch.requests token.predecessors

theorem validateWindowLane_eq_ok {token : NewWindowReservation} {entry : Entry}
    {request : RequestId} {lane : ℕ} {u : Unit} :
    validateWindowLane token entry request lane = .ok u ↔
      entry = freshEntry token.publication.batch.plan request ∧
        ∃ predecessor, token.predecessors[lane]? = some predecessor ∧
          Succeeds request predecessor.request := by
  simp only [validateWindowLane, Succeeds, bind_eq_ok, failIf_eq_ok, orPanic_eq_ok, exists_const,
    not_or, not_not, Option.not_isSome_iff_eq_none]
  constructor
  · rintro ⟨⟨hrequest, hplan, hphase, hquiet⟩, hgeneration, predecessor, hpred, hslot, hnext⟩
    refine ⟨?_, predecessor, hpred, hgeneration, hslot, hnext⟩
    cases entry
    simp_all [freshEntry]
  · rintro ⟨rfl, predecessor, hpred, hgeneration, hslot, hnext⟩
    exact ⟨⟨rfl, rfl, rfl, rfl⟩, hgeneration, predecessor, hpred, hslot, hnext⟩

/-- The lanes of a window are its fresh entries and their predecessors. -/
theorem window_lanes_eq_ok {token : NewWindowReservation} {requests : List RequestId}
    (hentries : r.entries.length = requests.length)
    (hpredecessors : token.predecessors.length = requests.length) {u : Unit} :
    (r.entries.zip requests).zipIdx.foldlM
        (fun _ p => validateWindowLane token p.1.1 p.1.2 p.2) () = .ok u ↔
      r.entries = requests.map (freshEntry token.publication.batch.plan) ∧
        List.Forall₂ (fun request (e : Entry) => Succeeds request e.request) requests
          token.predecessors := by
  refine foldlM_checks_eq_ok.trans ?_
  simp only [validateWindowLane_eq_ok]
  constructor
  · intro h
    have hlane : ∀ i (he : i < r.entries.length) (hq : i < requests.length),
        r.entries[i] = freshEntry token.publication.batch.plan requests[i] ∧
          ∃ predecessor, token.predecessors[i]? = some predecessor ∧
            Succeeds requests[i] predecessor.request := by
      intro i he hq
      refine h ((r.entries[i], requests[i]), i) (List.mem_zipIdx_iff_getElem?.mpr ?_)
      rw [List.getElem?_eq_getElem (by simp; omega), List.getElem_zip]
    constructor
    · refine List.ext_getElem (by simpa using hentries) fun i he hq => ?_
      rw [List.length_map] at hq
      rw [List.getElem_map, (hlane i he hq).1]
    · refine List.forall₂_iff_get.mpr ⟨hpredecessors.symm, fun i hq hp => ?_⟩
      obtain ⟨-, predecessor, hpred, hsucc⟩ := hlane i (by omega) hq
      obtain rfl := Option.some.inj ((List.getElem?_eq_getElem hp).symm.trans hpred)
      exact hsucc
  · rintro ⟨hmap, hsucc⟩ p hp
    have hzip := List.mem_zipIdx_iff_getElem?.mp hp
    rw [hmap, List.zip_map_left, List.getElem?_map, Option.map_eq_some_iff] at hzip
    obtain ⟨q, hq, hqp⟩ := hzip
    obtain ⟨hi, hqi⟩ := List.getElem?_eq_some_iff.mp hq
    rw [List.length_zip, min_self] at hi
    rw [List.getElem_zip] at hqi
    obtain ⟨predecessor, hpred, hs⟩ := getElem?_of_forall₂ hsucc (List.getElem?_eq_getElem hi)
    subst hqi
    rw [← hqp]
    exact ⟨rfl, predecessor, hpred, hs⟩

theorem validateNewWindowReservation_eq_ok {token : NewWindowReservation} {u : Unit} :
    r.validateNewWindowReservation token = .ok u ↔ ∃ live, r.Replaces token live := by
  simp only [validateNewWindowReservation, bind_eq_ok, validateReservation_eq_ok, failIf_eq_ok,
    exists_const, not_or, not_not, predecessor_checks_eq_ok]
  constructor
  · rintro ⟨⟨live, hreserved⟩, ⟨hbound, haction, hne, hpredecessors, hentries, hrequests, -, hC,
      hcap, hmode⟩, hpred, hlanes⟩
    obtain ⟨hmap, hsucc⟩ := (window_lanes_eq_ok hentries (hpredecessors.trans hentries)).mp hlanes
    exact ⟨live, hreserved, hbound, haction, hrequests, hne, by omega, by omega, hmode, hpred, hmap,
      hsucc⟩
  · rintro ⟨live, h⟩
    have hpredecessors : token.predecessors.length = token.publication.batch.requests.length :=
      h.successors.length_eq.symm
    have hentries : r.entries.length = token.publication.batch.requests.length := by
      rw [h.entries, List.length_map]
    have hlength := h.length_le
    have hcapacity := h.capacity
    have hpos := List.length_pos_iff.mpr h.nonempty
    have hne : r.entries ≠ [] := List.length_pos_iff.mp (by omega)
    refine ⟨⟨live, h.reserved⟩, ⟨h.bound, h.action, h.nonempty, ?_, hentries, h.requests, hne, ?_,
      ?_, h.prefill⟩, h.predecessors,
      (window_lanes_eq_ok hentries hpredecessors).mpr ⟨h.entries, h.successors⟩⟩
    · rw [hpredecessors, hentries]
    · omega
    · omega

theorem restoreCompletedWindowReplacement_eq_ok {token : NewWindowReservation}
    {back : ServingPlan × List RequestId} :
    r.restoreCompletedWindowReplacement token = .ok (back, r') ↔
      (∃ live, r.Replaces token live) ∧
        back = (token.publication.batch.plan, token.requests) ∧
        r' = { r with reservation := none, entries := token.predecessors } := by
  simp only [restoreCompletedWindowReplacement, bind_eq_ok, validateNewWindowReservation_eq_ok,
    exists_const]
  refine and_congr_right fun _ => ?_
  constructor
  · intro h
    obtain ⟨rfl, rfl⟩ := Prod.mk.inj (Except.ok.inj h)
    exact ⟨rfl, rfl⟩
  · rintro ⟨rfl, rfl⟩
    rfl

/-- Every member of a window is on its roster, so a window goes into flight as a batch does. -/
theorem recordNewWindowPublication_eq_ok {token : NewWindowReservation} :
    r.recordNewWindowPublication token = .ok r' ↔
      ∃ live, r.Replaces token live ∧ r' = r.recorded live token.publication.batch := by
  have hrecorded : ∀ live, r.Replaces token live →
      r.launch token.publication.batch (r.entries.map fun entry =>
        { entry with phase := .inFlight token.publication.batch.epoch }) =
        r.recorded live token.publication.batch := by
    intro live h
    have hentries : (r.entries.map fun entry : Entry =>
        { entry with phase := .inFlight token.publication.batch.epoch }) =
        r.entries.map (publishEntry token.publication.batch.requests
          token.publication.batch.epoch) := by
      refine List.map_congr_left fun e he => ?_
      rw [h.entries] at he
      obtain ⟨request, hrequest, rfl⟩ := List.mem_map.mp he
      exact (if_pos hrequest).symm
    have hphase : r.phaseAfter live token.publication.batch.action = r.draftCatchup := by
      rw [h.action]
      rfl
    rw [recorded, hphase, hentries]
  simp only [recordNewWindowPublication, bind_eq_ok, validateNewWindowReservation_eq_ok]
  constructor
  · rintro ⟨_, ⟨live, h⟩, hok⟩
    exact ⟨live, h, (Except.ok.inj hok).symm.trans (hrecorded live h)⟩
  · rintro ⟨live, h, rfl⟩
    exact ⟨(), ⟨live, h⟩, congrArg Except.ok (hrecorded live h)⟩

namespace Replaceable

variable {prior plan : ServingPlan} {requests : List RequestId}

/-- **A reservation may be restored or recorded at once.** -/
theorem replaces (h : r.Replaceable prior plan requests) :
    ∃ live, (r.windowed prior plan requests).Replaces (r.windowToken prior plan requests) live := by
  have hlength := h.successors.length_eq
  have hroster : (r.windowed prior plan requests).IsRoster (r.windowBatch prior plan requests) := by
    rw [IsRoster, show (r.windowed prior plan requests).draftCatchup = none from h.maintained]
    have hfilter : (requests.map (freshEntry plan)).filter
        (fun entry => entry.phase = .ready ∧ entry.plan = plan) =
        requests.map (freshEntry plan) := by
      refine List.filter_eq_self.mpr fun e he => ?_
      obtain ⟨request, -, rfl⟩ := List.mem_map.mp he
      simp [freshEntry]
    refine ⟨?_, ?_⟩
    · show requests = (((requests.map (freshEntry plan)).filter
        (fun entry => entry.phase = .ready ∧ entry.plan = plan)).take
          (min C plan.sequenceCapacity)).map (·.request)
      rw [hfilter, List.take_of_length_le, List.map_map]
      · exact (List.map_id' requests).symm
      · rw [List.length_map]
        exact le_min h.length_le h.capacity
    · show requests ≠ []
      intro hnil
      rw [hnil, List.length_nil] at hlength
      exact h.nonempty (List.length_eq_zero_iff.mp hlength.symm)
  refine ⟨_, ⟨rfl, h.quiescent, rfl, rfl, rfl, rfl, rfl, ?_, ⟨rfl, h.maintained⟩, hroster⟩, h.bound,
    rfl, rfl, h.nonempty, hlength ▸ h.length_le, hlength ▸ h.capacity, h.prefill, h.predecessors,
    rfl, h.successors⟩
  show r.submittedEpoch + 1 = saturatingAdd 64 r.submittedEpoch 1
  have hepoch := h.epoch
  rw [saturatingAdd, min_eq_left (by omega)]

/-- The roster moves every predecessor on by one generation. -/
theorem requests_eq (h : r.Replaceable prior plan requests) :
    requests = r.entries.map fun e => ⟨e.request.slot, e.request.generation + 1⟩ := by
  have hmap : List.Forall₂ (fun request e => request = e) requests
      (r.entries.map fun e => ⟨e.request.slot, e.request.generation + 1⟩) := by
    rw [List.forall₂_map_right_iff]
    exact h.successors.imp fun _ _ hs => hs.eq
  exact List.forall₂_eq_eq_eq ▸ hmap

/-- Distinct requests move on to distinct requests. -/
theorem nodup (h : r.Replaceable prior plan requests) (hnd : (r.entries.map (·.request)).Nodup) :
    requests.Nodup := by
  have hinj : Function.Injective fun request : RequestId =>
      (⟨request.slot, request.generation + 1⟩ : RequestId) := by
    intro a b hab
    obtain ⟨hslot, hgeneration⟩ := RequestId.mk.inj hab
    cases a
    cases b
    simp_all
  have heq : requests = (r.entries.map (·.request)).map fun request =>
      ⟨request.slot, request.generation + 1⟩ := by
    rw [h.requests_eq, List.map_map]
    rfl
  rw [heq]
  exact hnd.map hinj

/-- **A fresh identity is one of a predecessor exactly when two predecessors share a slot and have
consecutive generations.** -/
theorem exists_mem_iff (h : r.Replaceable prior plan requests) :
    (∃ request ∈ requests, ∃ e ∈ r.entries, e.request = request) ↔
      ∃ d ∈ r.entries, ∃ e ∈ r.entries, e.request.slot = d.request.slot ∧
        e.request.generation = d.request.generation + 1 := by
  rw [h.requests_eq]
  constructor
  · rintro ⟨request, hrequest, e, he, rfl⟩
    obtain ⟨d, hd, hde⟩ := List.mem_map.mp hrequest
    exact ⟨d, hd, e, he, by rw [← hde], by rw [← hde]⟩
  · rintro ⟨d, hd, e, he, hslot, hgeneration⟩
    refine ⟨e.request, List.mem_map.mpr ⟨d, hd, ?_⟩, e, he, rfl⟩
    rw [← hslot, ← hgeneration]

end Replaceable

end Registry

end ServingRegistry

end Ferric
