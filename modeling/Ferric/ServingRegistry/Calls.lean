import Ferric.Lib.Keyed
import Ferric.Lib.Lists
import Ferric.ServingRegistry.Model

/-!
# What the calls of the registry do

Every call is inverted once: what it checked, and the registry it leaves. A batch is *the next
batch* of a registry when planning selects it and every reservation accepts it, and a roster is what
the entries or the maintenance step say at that moment.

## Main definitions

* `Registry.IsRoster`, `Registry.IsNext` — what may run, and what runs next
* `Registry.Reserved` — what a reserved batch has to be when it is recorded

## Main results

* `planNext_eq_some` — planning gives the next batch
* `validateReservation_eq_ok`, `recordPublication_eq_ok` — what is recorded
* `applyDispositions_eq` — a completion, as one update of every entry
-/

namespace Ferric

namespace ServingRegistry

open Spec

/-! ### Entries -/

/-- An entry is written over the only one of its request. -/
theorem setEntry_eq_map {entries : List Entry} (hnd : (entries.map (·.request)).Nodup)
    (entry : Entry) :
    setEntry entry entries =
      entries.map fun e => if e.request = entry.request then entry else e := by
  induction entries with
  | nil => rfl
  | cons e rest ih =>
    rw [List.map_cons, List.nodup_cons] at hnd
    rw [setEntry, List.map_cons]
    by_cases he : e.request = entry.request
    · rw [if_pos he, if_pos he]
      congr 1
      -- the rest has no other entry of the request
      refine (List.map_id' rest).symm.trans (List.map_congr_left fun x hx => ?_)
      have hne : x.request ≠ entry.request := by
        intro hxe
        exact hnd.1 (List.mem_map.mpr ⟨x, hx, hxe.trans he.symm⟩)
      rw [if_neg hne]
    · rw [if_neg he, if_neg he, ih hnd.2]

/-- The update of the entry of one request. -/
def onEntry (request : RequestId) (g : Entry → Entry) (entry : Entry) : Entry :=
  if entry.request = request then g entry else entry

theorem onEntry_request {request : RequestId} {g : Entry → Entry}
    (hg : ∀ e, (g e).request = e.request)
    (entry : Entry) : (onEntry request g entry).request = entry.request := by
  rw [onEntry]
  split
  · exact hg entry
  · rfl

/-- Writing back what was found and changed. -/
theorem setEntry_eq_map_onEntry {entries : List Entry} (hnd : (entries.map (·.request)).Nodup)
    {request : RequestId} {entry : Entry} (hfind : entries.find? (·.request = request) = some entry)
    {g : Entry → Entry} (hg : (g entry).request = entry.request) :
    setEntry (g entry) entries = entries.map (onEntry request g) := by
  have hrequest : entry.request = request := by simpa using List.find?_some hfind
  rw [setEntry_eq_map hnd]
  refine List.map_congr_left fun e he => ?_
  rw [onEntry, hg, hrequest]
  by_cases heq : e.request = request
  · have : e = entry := Keyed.eq_of_nodup hnd he (List.mem_of_find?_eq_some hfind)
      (heq.trans hrequest.symm)
    rw [if_pos heq, if_pos heq, this]
  · rw [if_neg heq, if_neg heq]

/-- The entry at the first index of a request is the only one that goes. -/
theorem eraseIdx_eq_filter {entries : List Entry} (hnd : (entries.map (·.request)).Nodup)
    {index : ℕ} {entry : Entry} (h : entries[index]? = some entry) :
    entries.eraseIdx index = entries.filter (·.request ≠ entry.request) := by
  induction entries generalizing index with
  | nil => simp at h
  | cons e rest ih =>
    rw [List.map_cons, List.nodup_cons] at hnd
    cases index with
    | zero =>
      obtain rfl : e = entry := by simpa using h
      have hrest : rest.filter (·.request ≠ e.request) = rest := by
        refine List.filter_eq_self.mpr fun x hx => ?_
        have hne : x.request ≠ e.request := fun hxe => hnd.1 (List.mem_map.mpr ⟨x, hx, hxe⟩)
        simpa using hne
      rw [List.eraseIdx_cons_zero, List.filter_cons, hrest]
      simp
    | succ index =>
      have hentry : entry ∈ rest := List.mem_of_getElem? (by simpa using h)
      have hne : e.request ≠ entry.request :=
        fun hee => hnd.1 (List.mem_map.mpr ⟨entry, hentry, hee.symm⟩)
      rw [List.eraseIdx_cons_succ, List.filter_cons, ih hnd.2 (by simpa using h)]
      simp [hne]

theorem completeEntry_request (epoch : ℕ) (disposition : CompletionDisposition) (entry : Entry) :
    (completeEntry epoch disposition entry).request = entry.request := by
  cases disposition <;> rfl

/-- **A completion, as one update of every entry.** -/
theorem applyDispositions_eq {epoch : ℕ} {lanes : List (RequestId × CompletionDisposition)}
    {entries : List Entry} (hlanes : (lanes.map Prod.fst).Nodup)
    (hnd : (entries.map (·.request)).Nodup)
    (hmem : ∀ lane ∈ lanes, ∃ e ∈ entries, e.request = lane.1) :
    applyDispositions epoch lanes entries = .ok (entries.map
      (Keyed.take (·.request) Prod.fst (fun e lane => completeEntry epoch lane.2 e) lanes)) := by
  induction lanes generalizing entries with
  | nil =>
    show (.ok entries : Outcome RegistryError _) = _
    congr 1
    exact (List.map_id' entries).symm
  | cons lane rest ih =>
    obtain ⟨e, he, hrequest⟩ := hmem lane List.mem_cons_self
    obtain ⟨found, hfound⟩ : ∃ found, entries.find? (·.request = lane.1) = some found := by
      rw [← Option.isSome_iff_exists, List.find?_isSome]
      exact ⟨e, he, by simpa using hrequest⟩
    have hset : setEntry (completeEntry epoch lane.2 found) entries = entries.map
        (Keyed.take (·.request) Prod.fst (fun e lane => completeEntry epoch lane.2 e) [lane]) := by
      rw [setEntry_eq_map_onEntry hnd hfound (completeEntry_request _ _ _)]
      refine List.map_congr_left fun x _ => ?_
      rw [Keyed.take_cons, Keyed.take_nil, onEntry]
      simp only [eq_comm]
    rw [applyDispositions, hfound]
    show applyDispositions epoch rest _ = _
    rw [hset, ih (List.nodup_cons.mp hlanes).2,
      Keyed.map_take_cons hlanes (completeEntry_request _ _)]
    · rwa [Keyed.map_key_take fun a u _ => completeEntry_request epoch u.2 a]
    · intro other hother
      obtain ⟨x, hx, hxr⟩ := hmem other (.tail _ hother)
      refine ⟨_, List.mem_map_of_mem hx, ?_⟩
      rw [← hxr, Keyed.take_cons, Keyed.take_nil]
      split
      · exact completeEntry_request _ _ x
      · rfl

namespace Registry

variable {C : ℕ} {r r' : Registry C}

@[simp] theorem rejectLiveReservation_eq_ok {u : Unit} :
    r.rejectLiveReservation = .ok u ↔ r.reservation = none := by
  simp [rejectLiveReservation]

/-- The first entry of a request is an entry, and of the request. -/
theorem entry_some {request : RequestId} {entry : Entry} (h : r.entry request = some entry) :
    entry ∈ r.entries ∧ entry.request = request :=
  ⟨List.mem_of_find?_eq_some h, by simpa using List.find?_some h⟩

/-- Requests are distinct, so an entry is the first of its request. -/
theorem entry_of_mem (hnd : (r.entries.map (·.request)).Nodup) {entry : Entry}
    (h : entry ∈ r.entries) : r.entry entry.request = some entry := by
  obtain ⟨found, hfound⟩ : ∃ found, r.entry entry.request = some found := by
    rw [Registry.entry, ← Option.isSome_iff_exists, List.find?_isSome]
    exact ⟨entry, h, by simp⟩
  obtain ⟨hmem, hrequest⟩ := entry_some hfound
  rw [hfound, Keyed.eq_of_nodup hnd hmem h hrequest]

/-! ### Members -/

theorem admit_ok {request : RequestId} {prefill : ServingPlan}
    (h : r.admitRequest request prefill = .ok r') :
    r.reservation = none ∧ request.generation ≠ 0 ∧ prefill.mode = .prefill ∧
      (∀ e ∈ r.entries, e.request ≠ request) ∧ r.entries.length ≠ C ∧
      r' = { r with entries := r.entries ++ [⟨request, prefill, .ready, none⟩] } := by
  simp only [admitRequest, bind_eq_ok, failIf_eq_ok, rejectLiveReservation_eq_ok, not_not] at h
  obtain ⟨_, hlive, _, hgeneration, _, hmode, _, hfresh, _, hlength, h⟩ := h
  refine ⟨hlive, hgeneration, hmode, ?_, hlength, (Except.ok.inj h).symm⟩
  exact fun e he heq => hfresh ⟨e, he, heq⟩

theorem transition_ok (hnd : (r.entries.map (·.request)).Nodup) {request : RequestId}
    {next : ServingPlan} (h : r.transition request next = .ok r') :
    r.reservation = none ∧ r.draftCatchup = none ∧ ∃ entry, r.entry request = some entry ∧
      entry.phase = .ready ∧ entry.lastQuiescence ≠ none ∧
      r' = { r with
        entries := r.entries.map (onEntry request fun e => { e with plan := next }) } := by
  simp only [transition, bind_eq_ok, failIf_eq_ok, rejectLiveReservation_eq_ok, orErr_eq_ok,
    Option.not_isSome_iff_eq_none, not_or, not_not] at h
  obtain ⟨_, hlive, _, hcatchup, entry, hentry, _, ⟨hready, hquiet⟩, _, -, h⟩ := h
  refine ⟨hlive, hcatchup, entry, hentry, hready, hquiet, (Except.ok.inj h).symm.trans ?_⟩
  rw [setEntry_eq_map_onEntry hnd hentry (g := fun e => { e with plan := next }) rfl]

/-- The phase of a member whose cancellation is accepted. -/
def cancelPhase (entry : Entry) : RequestPhase := match entry.phase with
  | .ready => .retired (entry.lastQuiescence.elim .neverSubmitted .completed)
  | .inFlight epoch => .cancellationPending epoch
  | phase => phase

theorem cancel_ok (hnd : (r.entries.map (·.request)).Nodup) {request : RequestId}
    {phase : RequestPhase} (h : r.cancel request = .ok (phase, r')) :
    r.reservation = none ∧ ∃ entry, r.entry request = some entry ∧
      (entry.phase = .ready ∨ ∃ epoch, entry.phase = .inFlight epoch) ∧ phase = cancelPhase entry ∧
      r' = { r with entries :=
        r.entries.map (onEntry request fun e => { e with phase := cancelPhase e }) } := by
  simp only [cancel, bind_eq_ok, rejectLiveReservation_eq_ok, orErr_eq_ok] at h
  obtain ⟨_, hlive, entry, hentry, found, hphase, h⟩ := h
  obtain ⟨rfl, rfl⟩ := Prod.mk.inj (Except.ok.inj h)
  have hcases : (entry.phase = .ready ∨ ∃ epoch, entry.phase = .inFlight epoch) ∧
      found = cancelPhase entry := by
    rw [cancelledPhase] at hphase
    rw [cancelPhase]
    split at hphase <;> simp_all
  refine ⟨hlive, entry, hentry, hcases.1, hcases.2, ?_⟩
  rw [hcases.2, setEntry_eq_map_onEntry hnd hentry
    (g := fun e => { e with phase := cancelPhase e }) rfl]

theorem removeRetired_ok (hnd : (r.entries.map (·.request)).Nodup) {request : RequestId}
    {quiescence : Quiescence} (h : r.removeRetired request = .ok (quiescence, r')) :
    r.reservation = none ∧ ∃ entry, r.entry request = some entry ∧
      entry.phase = .retired quiescence ∧
      r' = { r with entries := r.entries.filter (·.request ≠ request) } := by
  simp only [removeRetired, bind_eq_ok, rejectLiveReservation_eq_ok, orErr_eq_ok,
    orPanic_eq_ok] at h
  obtain ⟨_, hlive, index, hindex, entry, hentry, h⟩ := h
  obtain ⟨hi, hrequest, -⟩ := List.findIdx?_eq_some_iff_getElem.mp hindex
  obtain rfl : r.entries[index] = entry :=
    Option.some.inj ((List.getElem?_eq_getElem hi).symm.trans hentry)
  have hrequest : r.entries[index].request = request := by simpa using hrequest
  cases hphase : r.entries[index].phase with
  | retired q =>
    rw [hphase] at h
    obtain ⟨rfl, rfl⟩ := Prod.mk.inj (Except.ok.inj h)
    refine ⟨hlive, r.entries[index], ?_, hphase, ?_⟩
    · rw [← hrequest]
      exact entry_of_mem hnd (List.getElem_mem hi)
    · rw [eraseIdx_eq_filter hnd hentry, hrequest]
  | _ =>
    rw [hphase] at h
    cases h

/-! ### Rosters and the next batch -/

/-- What may run: the ready entries of one plan that fit, or the request of the maintenance step. -/
def IsRoster (r : Registry C) (batch : BatchPlan) : Prop := match r.draftCatchup with
  | some phase =>
    batch.requests = [phase.key.request] ∧ r.ReadyUnder phase.key.request batch.plan
  | none => batch.requests = r.readyRoster batch.plan ∧ batch.requests ≠ []

theorem validateReadyRoster_eq_ok {batch : BatchPlan} {u : Unit} :
    r.validateReadyRoster batch = .ok u ↔ r.IsRoster batch := by
  rw [validateReadyRoster, IsRoster]
  cases r.draftCatchup with
  | some phase => simp
  | none =>
    simp only [bind_eq_ok, failIf_eq_ok, exists_const, not_not]
    constructor
    · rintro ⟨hpre, hne, hlength⟩
      have heq := hpre.eq_of_length hlength.symm
      exact ⟨heq.symm, heq ▸ hne⟩
    · rintro ⟨heq, hne⟩
      rw [← heq]
      exact ⟨List.prefix_rfl, hne, rfl⟩

/-- What runs next. -/
structure IsNext (r : Registry C) (batch : BatchPlan) : Prop where
  selected : r.nextReadyPlan = some batch.plan
  epoch : checkedAdd 64 r.submittedEpoch 1 = some batch.epoch
  action : r.classifyNextQueueAction batch.plan = .ok batch.action
  roster : r.IsRoster batch

theorem validateNextBatch_eq_ok {batch : BatchPlan} {u : Unit} :
    r.validateNextBatch batch = .ok u ↔ r.IsNext batch := by
  simp only [validateNextBatch, bind_eq_ok, orErr_eq_ok, failIf_eq_ok, not_or, not_not,
    validateReadyRoster_eq_ok]
  constructor
  · rintro ⟨selected, hselected, epoch, hepoch, action, haction, _, ⟨rfl, rfl, rfl⟩, hroster⟩
    exact ⟨hselected, hepoch, haction, hroster⟩
  · intro h
    exact ⟨_, h.selected, _, h.epoch, _, h.action, (), ⟨rfl, rfl, rfl⟩, h.roster⟩

/-- A plan admits at least one sequence and at most 32. -/
theorem capacity_of_plan (plan : ServingPlan) :
    0 < plan.sequenceCapacity ∧ plan.sequenceCapacity ≤ maxActiveSequences := by
  have h := plan.checked
  simp only [checkPair, bind_eq_ok, failIf_eq_ok, orErr_eq_ok, not_or] at h
  obtain ⟨_, -, _, -, _, -, dimensions, -, _, ⟨hpos, hle⟩, h⟩ := h
  obtain ⟨-, hcapacity⟩ := Prod.mk.inj (Except.ok.inj h)
  rw [← hcapacity]
  exact ⟨by omega, by omega⟩

/-- The plan that planning falls back to is that of a ready entry. -/
theorem exists_ready_of_nextReadyPlan {plan : ServingPlan} (h : r.nextReadyPlan = some plan) :
    ∃ e ∈ r.entries, e.phase = .ready ∧ e.plan = plan := by
  have hfallback : ∀ {plan : ServingPlan},
      ((r.entries.filter (·.phase = .ready)).argmin (·.plan.priority)).map (·.plan) = some plan →
        ∃ e ∈ r.entries, e.phase = .ready ∧ e.plan = plan := by
    intro plan h
    obtain ⟨e, he, rfl⟩ := Option.map_eq_some_iff.mp h
    have hmem := List.argmin_mem he
    rw [List.mem_filter, decide_eq_true_eq] at hmem
    exact ⟨e, hmem.1, hmem.2, rfl⟩
  rw [nextReadyPlan] at h
  cases hphase : r.draftCatchup with
  | none =>
    rw [hphase] at h
    exact hfallback h
  | some phase =>
    rw [hphase] at h
    dsimp only at h
    split at h
    · next entry hentry =>
      obtain ⟨hentry, hready⟩ := Option.filter_eq_some_iff.mp hentry
      rw [decide_eq_true_eq] at hready
      exact ⟨entry, (entry_some hentry).1, hready.1, Option.some.inj h⟩
    · exact hfallback h

/-- Something is ready, so a plan is selected. -/
theorem nextReadyPlan_ne_none {e : Entry} (he : e ∈ r.entries) (hready : e.phase = .ready) :
    r.nextReadyPlan ≠ none := by
  have hfallback :
      ((r.entries.filter (·.phase = .ready)).argmin (·.plan.priority)).map (·.plan) ≠ none := by
    rw [Ne, Option.map_eq_none_iff, List.argmin_eq_none, List.filter_eq_nil_iff]
    intro hnone
    exact hnone e he (by simpa using hready)
  rw [nextReadyPlan]
  cases r.draftCatchup with
  | none => exact hfallback
  | some phase =>
    dsimp only
    split
    · exact Option.some_ne_none _
    · exact hfallback

/-- The ready roster of a plan that some ready entry has. -/
theorem readyRoster_ne_nil (hC : 0 < C) {plan : ServingPlan} {e : Entry} (he : e ∈ r.entries)
    (hready : e.phase = .ready) (hplan : e.plan = plan) : r.readyRoster plan ≠ [] := by
  have hmem : e ∈ r.entries.filter fun entry => entry.phase = .ready ∧ entry.plan = plan := by
    simp [he, hready, hplan]
  have hpos := List.length_pos_of_mem hmem
  have hcapacity := (capacity_of_plan plan).1
  rw [← List.length_pos_iff, readyRoster, List.length_map, List.length_take]
  omega

theorem length_readyRoster_le (plan : ServingPlan) :
    (r.readyRoster plan).length ≤ plan.sequenceCapacity := by
  rw [readyRoster, List.length_map, List.length_take]
  omega

/-- The roster that planning takes. -/
theorem nextRoster_eq_ok (hC : 0 < C) {selected : ServingPlan}
    (hselected : r.nextReadyPlan = some selected) {requests : List RequestId} :
    r.nextRoster selected = .ok requests ↔
      ∀ epoch action, r.IsRoster ⟨selected, requests, epoch, action⟩ := by
  have hcapacity := capacity_of_plan selected
  rw [nextRoster]
  unfold IsRoster
  cases r.draftCatchup with
  | some phase =>
    simp only [bind_eq_ok, failIf_eq_ok, not_not]
    constructor
    · rintro ⟨_, hready, _, h, _, -, hrequests⟩ _ _
      obtain rfl := Except.ok.inj h
      exact ⟨(Except.ok.inj hrequests).symm, hready⟩
    · intro h
      obtain ⟨hrequests, hready⟩ := h 0 .freshLaunch
      exact ⟨(), hready, _, rfl, (), by simp [maxActiveSequences], congrArg _ hrequests.symm⟩
  | none =>
    have hlength := length_readyRoster_le (r := r) selected
    have hne : r.readyRoster selected ≠ [] := by
      obtain ⟨e, he, hready, hplan⟩ := exists_ready_of_nextReadyPlan hselected
      exact readyRoster_ne_nil hC he hready hplan
    simp only [bind_eq_ok, failIf_eq_ok]
    constructor
    · rintro ⟨_, h, _, -, hrequests⟩ _ _
      obtain rfl := Except.ok.inj h
      obtain rfl := Except.ok.inj hrequests
      exact ⟨rfl, hne⟩
    · intro h
      obtain ⟨rfl, -⟩ := h 0 .freshLaunch
      exact ⟨_, rfl, (), by omega, rfl⟩

/-- **Planning gives the next batch**, of which there is at most one. -/
theorem planNext_eq_some (hC : 0 < C) {batch : BatchPlan} :
    r.planNext = .ok (some batch) ↔
      r.reservation = none ∧ r.inFlight = none ∧ r.IsNext batch := by
  simp only [planNext, bind_eq_ok, rejectLiveReservation_eq_ok, failIf_eq_ok, exists_const,
    Option.not_isSome_iff_eq_none]
  refine and_congr_right fun _ => and_congr_right fun _ => ?_
  cases hselected : r.nextReadyPlan with
  | none =>
    constructor
    · intro h
      cases h
    · intro h
      cases hselected.symm.trans h.selected
  | some selected =>
    simp only [bind_eq_ok, orErr_eq_ok, nextRoster_eq_ok hC hselected]
    constructor
    · rintro ⟨requests, hroster, epoch, hepoch, action, haction, h⟩
      obtain rfl := Option.some.inj (Except.ok.inj h)
      exact ⟨hselected, hepoch, haction, hroster _ _⟩
    · intro h
      obtain rfl : selected = batch.plan := Option.some.inj (hselected.symm.trans h.selected)
      exact ⟨_, fun _ _ => h.roster, _, h.epoch, _, h.action, rfl⟩

/-- The batch that planning gives is the only one. -/
theorem IsNext.eq {batch other : BatchPlan} (h : r.IsNext batch) (ho : r.IsNext other) :
    batch = other := by
  have hplan : batch.plan = other.plan := Option.some.inj (h.selected.symm.trans ho.selected)
  have hepoch : batch.epoch = other.epoch := Option.some.inj (h.epoch.symm.trans ho.epoch)
  have haction : batch.action = other.action :=
    Except.ok.inj (h.action.symm.trans (hplan ▸ ho.action))
  have hrequests : batch.requests = other.requests := by
    have hroster := h.roster
    have horoster := ho.roster
    unfold IsRoster at hroster horoster
    cases hphase : r.draftCatchup with
    | some phase =>
      rw [hphase] at hroster horoster
      exact hroster.1.trans horoster.1.symm
    | none =>
      rw [hphase] at hroster horoster
      rw [hroster.1, horoster.1, hplan]
  cases batch
  cases other
  simp_all

/-! ### Reservations -/

/-- The registry that holds a reservation. -/
def reserved (r : Registry C) (batch : BatchPlan) (draftCatchup : Option DraftCatchupKey) :
    Registry C :=
  { r with
    reservation := some ⟨r.nextReservationId, batch.plan, batch.epoch, batch.action, draftCatchup⟩
    nextReservationId := r.nextReservationId + 1 }

theorem reserveValidatedBatch_eq_ok {batch : BatchPlan} {key : Option DraftCatchupKey}
    {token : PublicationReservation} :
    r.reserveValidatedBatch batch key = .ok (token, r') ↔
      r.nextReservationId + 1 < 2 ^ 64 ∧ token = ⟨r.identity, r.nextReservationId, batch⟩ ∧
        r' = r.reserved batch key := by
  simp only [reserveValidatedBatch, bind_eq_ok, orErr_eq_ok, checkedAdd_eq_some]
  constructor
  · rintro ⟨_, ⟨hid, rfl⟩, h⟩
    obtain ⟨rfl, rfl⟩ := Prod.mk.inj (Except.ok.inj h)
    exact ⟨hid, rfl, rfl⟩
  · rintro ⟨hid, rfl, rfl⟩
    exact ⟨_, ⟨hid, rfl⟩, rfl⟩

theorem reservePublication_eq_ok {batch : BatchPlan} {token : PublicationReservation} :
    r.reservePublication batch = .ok (token, r') ↔
      r.reservation = none ∧ r.inFlight = none ∧ batch.action.isDraftCatchup = false ∧
        r.IsNext batch ∧ r.nextReservationId + 1 < 2 ^ 64 ∧
        token = ⟨r.identity, r.nextReservationId, batch⟩ ∧ r' = r.reserved batch none := by
  simp only [reservePublication, bind_eq_ok, rejectLiveReservation_eq_ok, failIf_eq_ok,
    exists_const, validateNextBatch_eq_ok, reserveValidatedBatch_eq_ok, Bool.not_eq_true,
    Option.isSome_eq_false_iff, Option.isNone_iff_eq_none]

/-- What the key of a maintenance step has to be for the entry and the epochs. -/
structure KeyReady (r : Registry C) (parent : ServingPlan) (key : DraftCatchupKey) : Prop where
  valid : key.ValidFor parent
  bound : r.boundPlan = some parent
  submitted : r.submittedEpoch = key.priorEpoch
  completed : r.completedEpoch = key.priorEpoch
  ready : r.ReadyUnder key.request parent
  quiet : (r.entry key.request).bind (·.lastQuiescence) = some key.priorEpoch

theorem validateDraftCatchupReadyKey_eq_ok {parent : ServingPlan} {key : DraftCatchupKey}
    {u : Unit} : r.validateDraftCatchupReadyKey parent key = .ok u ↔ r.KeyReady parent key := by
  simp only [validateDraftCatchupReadyKey, failIf_eq_ok, not_or, not_not]
  constructor
  · rintro ⟨hvalid, hbound, hsubmitted, hcompleted, hready, hquiet⟩
    exact ⟨hvalid, hbound, hsubmitted, hcompleted, hready, hquiet⟩
  · intro h
    exact ⟨h.valid, h.bound, h.submitted, h.completed, h.ready, h.quiet⟩

/-- What the batch of a maintenance step has to be. -/
structure Starts (r : Registry C) (batch : BatchPlan) (key : DraftCatchupKey) : Prop where
  pending : r.draftCatchup = some (.pending key)
  action : batch.action = .quiescentDraftCatchup batch.plan
  requests : batch.requests = [key.request]
  epoch : batch.epoch = key.epoch
  key : r.KeyReady batch.plan key

theorem validateDraftCatchupStart_eq_ok {batch : BatchPlan} {key : DraftCatchupKey} {u : Unit} :
    r.validateDraftCatchupStart batch key = .ok u ↔ r.Starts batch key := by
  simp only [validateDraftCatchupStart, bind_eq_ok, failIf_eq_ok, not_or, not_not, exists_const,
    validateDraftCatchupReadyKey_eq_ok]
  constructor
  · rintro ⟨⟨hpending, haction, hrequests, hepoch⟩, hkey⟩
    exact ⟨hpending, haction, hrequests, hepoch, hkey⟩
  · intro h
    exact ⟨⟨h.pending, h.action, h.requests, h.epoch⟩, h.key⟩

theorem registerDraftCatchupKey_eq_ok {key : DraftCatchupKey} :
    r.registerDraftCatchupKey key = .ok r' ↔
      r.reservation = none ∧ r.inFlight = none ∧ r.draftCatchup = none ∧
        (∃ parent, r.KeyReady parent key) ∧
          r' = { r with draftCatchup := some (.pending key) } := by
  simp only [registerDraftCatchupKey, bind_eq_ok, rejectLiveReservation_eq_ok, failIf_eq_ok,
    exists_const, Option.not_isSome_iff_eq_none, orErr_eq_ok, validateDraftCatchupReadyKey_eq_ok]
  refine and_congr_right fun _ => and_congr_right fun _ => and_congr_right fun _ => ?_
  constructor
  · rintro ⟨parent, -, hkey, h⟩
    exact ⟨⟨parent, hkey⟩, (Except.ok.inj h).symm⟩
  · rintro ⟨⟨parent, hkey⟩, rfl⟩
    exact ⟨parent, hkey.bound, hkey, rfl⟩

theorem reserveDraftCatchupKey_eq_ok {batch : BatchPlan} {key : DraftCatchupKey}
    {token : PublicationReservation} :
    r.reserveDraftCatchupKey batch key = .ok (token, r') ↔
      r.reservation = none ∧ r.inFlight = none ∧ r.IsNext batch ∧ r.Starts batch key ∧
        r.nextReservationId + 1 < 2 ^ 64 ∧
        token = ⟨r.identity, r.nextReservationId, batch⟩ ∧ r' = r.reserved batch (some key) := by
  simp only [reserveDraftCatchupKey, bind_eq_ok, rejectLiveReservation_eq_ok, failIf_eq_ok,
    exists_const, Option.not_isSome_iff_eq_none, validateNextBatch_eq_ok,
    validateDraftCatchupStart_eq_ok, reserveValidatedBatch_eq_ok]

theorem reserveDraftCatchupRestoreKey_eq_ok {batch : BatchPlan} {key : DraftCatchupKey}
    {dispatchGeneration : ℕ} {token : PublicationReservation} :
    r.reserveDraftCatchupRestoreKey batch key dispatchGeneration = .ok (token, r') ↔
      r.reservation = none ∧ r.inFlight = none ∧
        (r.draftCatchup = some (.completed key dispatchGeneration) ∧
          batch.requests = [key.request] ∧ batch.plan.target = key.parent) ∧
        r.IsNext batch ∧ r.nextReservationId + 1 < 2 ^ 64 ∧
        token = ⟨r.identity, r.nextReservationId, batch⟩ ∧ r' = r.reserved batch none := by
  simp only [reserveDraftCatchupRestoreKey, bind_eq_ok, rejectLiveReservation_eq_ok, failIf_eq_ok,
    exists_const, Option.not_isSome_iff_eq_none, validateNextBatch_eq_ok,
    reserveValidatedBatch_eq_ok, not_or, not_not]

/-- What the phase of the maintenance step has to be for a reserved batch. -/
def Agrees (r : Registry C) (live : ReservedBatch) (batch : BatchPlan) : Prop :=
  match batch.action with
  | .quiescentDraftCatchup _ => ∃ key, live.draftCatchup = some key ∧ r.Starts batch key
  | .quiescentDraftCatchupRestore parent =>
    ∃ key dispatchGeneration, r.draftCatchup = some (.completed key dispatchGeneration) ∧
      live.draftCatchup = none ∧ parent = batch.plan ∧ batch.requests = [key.request] ∧
      r.IsNext batch
  | _ => live.draftCatchup = none ∧ r.draftCatchup = none

/-- What a reserved batch has to be when it is recorded. -/
structure Reserved (r : Registry C) (token : PublicationReservation) (live : ReservedBatch) :
    Prop where
  identity : token.registryIdentity = r.identity
  quiescent : r.inFlight = none
  reservation : r.reservation = some live
  id : live.id = token.id
  plan : live.plan = token.batch.plan
  epoch : live.epoch = token.batch.epoch
  action : live.action = token.batch.action
  next : token.batch.epoch = saturatingAdd 64 r.submittedEpoch 1
  agrees : r.Agrees live token.batch
  roster : r.IsRoster token.batch

theorem validateReservedAction_eq_ok {live : ReservedBatch} {batch : BatchPlan} {u : Unit} :
    r.validateReservedAction live batch = .ok u ↔ r.Agrees live batch := by
  rw [validateReservedAction, Agrees]
  cases haction : batch.action with
  | quiescentDraftCatchup parent =>
    simp only [bind_eq_ok, orErr_eq_ok, failIf_eq_ok, not_not, exists_const,
      validateDraftCatchupStart_eq_ok]
    constructor
    · rintro ⟨key, hkey, -, hstarts⟩
      exact ⟨key, hkey, hstarts⟩
    · rintro ⟨key, hkey, hstarts⟩
      have hparent := haction.symm.trans hstarts.action
      exact ⟨key, hkey, QueueAction.quiescentDraftCatchup.inj hparent, hstarts⟩
  | quiescentDraftCatchupRestore parent =>
    cases hphase : r.draftCatchup with
    | none => simp
    | some phase =>
      cases phase with
      | completed key generation => simp [bind_eq_ok, validateNextBatch_eq_ok, and_assoc]
      | _ => simp
  | _ => simp

theorem validateReservation_eq_ok {token : PublicationReservation} {u : Unit} :
    r.validateReservation token = .ok u ↔ ∃ live, r.Reserved token live := by
  simp only [validateReservation, bind_eq_ok, failIf_eq_ok, not_or, not_not, exists_const,
    Option.not_isSome_iff_eq_none, orErr_eq_ok, validateReservedAction_eq_ok,
    validateReadyRoster_eq_ok]
  constructor
  · rintro ⟨hidentity, hquiescent, live, hlive, ⟨hid, hplan, hepoch, haction⟩, hnext, hagrees,
      hroster⟩
    exact ⟨live, hidentity, hquiescent, hlive, hid, hplan, hepoch, haction, hnext, hagrees, hroster⟩
  · rintro ⟨live, h⟩
    exact ⟨h.identity, h.quiescent, live, h.reservation, ⟨h.id, h.plan, h.epoch, h.action⟩, h.next,
      h.agrees, h.roster⟩

theorem abortPublication_eq_ok {token : PublicationReservation} :
    r.abortPublication token = .ok r' ↔
      (∃ live, r.Reserved token live) ∧ r' = { r with reservation := none } := by
  simp only [abortPublication, bind_eq_ok, validateReservation_eq_ok, exists_const]
  exact and_congr_right fun _ => ⟨fun h => (Except.ok.inj h).symm, fun h => h ▸ rfl⟩

/-- The phase of the maintenance step after a batch is recorded. -/
def phaseAfter (r : Registry C) (live : ReservedBatch) (action : QueueAction) :
    Option DraftCatchupPhase := match action with
  | .quiescentDraftCatchup _ => live.draftCatchup.map .inFlight
  | .quiescentDraftCatchupRestore _ => none
  | _ => r.draftCatchup

/-- The registry after a batch is recorded. -/
def recorded (r : Registry C) (live : ReservedBatch) (batch : BatchPlan) : Registry C :=
  { r with draftCatchup := r.phaseAfter live batch.action }.launch batch
    (r.entries.map (publishEntry batch.requests batch.epoch))

theorem Reserved.recordedPhase_eq {token : PublicationReservation} {live : ReservedBatch}
    (h : r.Reserved token live) :
    r.recordedPhase token.batch.action (r.reservation.bind (·.draftCatchup)) =
      .ok (r.phaseAfter live token.batch.action) := by
  have hagrees := h.agrees
  unfold Agrees at hagrees
  unfold recordedPhase phaseAfter
  cases haction : token.batch.action with
  | quiescentDraftCatchup parent =>
    rw [haction] at hagrees
    obtain ⟨key, hkey, -⟩ := hagrees
    show (orPanic (r.reservation.bind (·.draftCatchup)) >>= fun key =>
      (.ok (some (DraftCatchupPhase.inFlight key)) : Outcome RegistryError _)) = _
    rw [h.reservation, Option.bind_some, hkey]
    rfl
  | _ => rfl

/-- **What `record_publication` records.** Its `expect` never fails. -/
theorem recordPublication_eq_ok {token : PublicationReservation} :
    r.recordPublication token = .ok r' ↔
      ∃ live, r.Reserved token live ∧ r' = r.recorded live token.batch := by
  simp only [recordPublication, bind_eq_ok, validateReservation_eq_ok]
  constructor
  · rintro ⟨_, ⟨live, h⟩, phase, hphase, hrecorded⟩
    obtain rfl := Except.ok.inj (h.recordedPhase_eq.symm.trans hphase)
    exact ⟨live, h, (Except.ok.inj hrecorded).symm⟩
  · rintro ⟨live, h, rfl⟩
    exact ⟨(), ⟨live, h⟩, _, h.recordedPhase_eq, rfl⟩

/-! ### Completion -/

theorem validateCompletionExact_ok {epoch : ℕ} {dispositions : List CompletionDisposition}
    (h : r.validateCompletionExact epoch dispositions = .ok ()) :
    r.reservation = none ∧ r.draftCatchup = none ∧ ∃ batch, r.inFlight = some batch ∧
      batch.epoch = epoch ∧ epoch = r.submittedEpoch ∧
      dispositions.length = batch.requests.length ∧
      ∀ lane ∈ batch.requests.zip dispositions, ∃ entry, r.entry lane.1 = some entry ∧
        (lane.2 ≠ .retire → entry.phase = .inFlight epoch) := by
  simp only [validateCompletionExact, bind_eq_ok, rejectLiveReservation_eq_ok, failIf_eq_ok,
    exists_const, Option.not_isSome_iff_eq_none, orErr_eq_ok, not_or, not_not] at h
  obtain ⟨hlive, hphase, batch, hbatch, ⟨hepoch, -, hsubmitted⟩, hlength, hlanes⟩ := h
  refine ⟨hlive, hphase, batch, hbatch, hepoch, hsubmitted, hlength, fun lane hlane => ?_⟩
  obtain ⟨i, hi⟩ := List.getElem?_of_mem hlane
  have hmem : (lane, i) ∈ (batch.requests.zip dispositions).zipIdx :=
    List.mem_zipIdx_iff_getElem?.mpr hi
  have hcheck := foldlM_checks_eq_ok.mp hlanes _ hmem
  simp only [validateLane, bind_eq_ok, orErr_eq_ok, failIf_eq_ok, exists_const, not_or,
    not_and, not_not] at hcheck
  obtain ⟨entry, hentry, ⟨hactive, -⟩, hcheck⟩ := hcheck
  refine ⟨entry, hentry, fun hne => ?_⟩
  cases hdisposition : lane.2 with
  | retire => exact absurd hdisposition hne
  | continue_ next =>
    rw [hdisposition] at hcheck
    simp only [bind_eq_ok, failIf_eq_ok] at hcheck
    obtain ⟨_, hpending, -⟩ := hcheck
    by_contra hflight
    exact hpending (hactive hflight)

theorem completeExact_ok {identity epoch : ℕ} {dispositions : List CompletionDisposition}
    (h : r.completeExact identity epoch dispositions = .ok r') :
    r.validateCompletionExact epoch dispositions = .ok () ∧
      r.applyValidatedCompletion epoch dispositions = .ok r' := by
  simp only [completeExact, preflightCompletionExactFor, bind_eq_ok, failIf_eq_ok,
    exists_const] at h
  obtain ⟨_, ⟨-, hvalid⟩, happly⟩ := h
  exact ⟨hvalid, happly⟩

theorem validateDraftCatchupCompletion_ok {key : DraftCatchupKey} {dispatchGeneration : ℕ}
    {disposition : CompletionDisposition}
    (h : r.validateDraftCatchupCompletion key dispatchGeneration = .ok disposition) :
    r.reservation = none ∧ r.draftCatchup = some (.inFlight key) ∧ r.submittedEpoch = key.epoch ∧
      r.completedEpoch = key.priorEpoch ∧
      ∃ batch entry, r.inFlight = some batch ∧ key.ValidFor batch.plan ∧
        batch.requests = [key.request] ∧ batch.epoch = key.epoch ∧ r.boundPlan = some batch.plan ∧
        r.entry key.request = some entry ∧ entry.plan = batch.plan ∧
        (disposition ≠ .retire → entry.phase = .inFlight key.epoch ∧
          disposition = .continue_ entry.plan) := by
  simp only [validateDraftCatchupCompletion, bind_eq_ok, rejectLiveReservation_eq_ok, failIf_eq_ok,
    exists_const, orErr_eq_ok, not_or, not_not] at h
  obtain ⟨hlive, batch, hbatch, ⟨hphase, hvalid, -, hrequests, hepoch, hbound, hsubmitted,
    hcompleted⟩, entry, hentry, ⟨hplan, -⟩, h⟩ := h
  refine ⟨hlive, hphase, hsubmitted, hcompleted, batch, entry, hbatch, hvalid, hrequests, hepoch,
    hbound, hentry, hplan, fun hne => ?_⟩
  split at h
  · next hflight => exact ⟨hflight, (Except.ok.inj h).symm⟩
  · split at h
    · exact absurd (Except.ok.inj h).symm hne
    · cases h

theorem completeDraftCatchupKey_ok {key : DraftCatchupKey} {dispatchGeneration : ℕ}
    (h : r.completeDraftCatchupKey key dispatchGeneration = .ok r') :
    ∃ disposition applied,
      r.validateDraftCatchupCompletion key dispatchGeneration = .ok disposition ∧
        r.applyValidatedCompletion key.epoch [disposition] = .ok applied ∧
        r' = { applied with draftCatchup := some (.completed key dispatchGeneration) } := by
  simp only [completeDraftCatchupKey, bind_eq_ok] at h
  obtain ⟨disposition, hvalid, applied, happly, h⟩ := h
  exact ⟨disposition, applied, hvalid, happly, (Except.ok.inj h).symm⟩

/-! ### The queue between two batches -/

theorem recordQuiescentQueueRetirement_eq_ok {bound : ServingPlan} :
    r.recordQuiescentQueueRetirement bound = .ok r' ↔
      r.reservation = none ∧ r.inFlight = none ∧ r.boundPlan = some bound ∧
        r.readyWorkNeedsBoundQueue bound = false ∧
        r' = { r with boundPlan := none, draftCatchup := none } := by
  simp only [recordQuiescentQueueRetirement, bind_eq_ok, rejectLiveReservation_eq_ok,
    failIf_eq_ok, exists_const, Option.isSome_eq_false_iff, Option.isNone_iff_eq_none, not_not,
    Bool.not_eq_true]
  refine and_congr_right fun _ => and_congr_right fun _ => and_congr_right fun _ =>
    and_congr_right fun _ => ?_
  exact ⟨fun h => (Except.ok.inj h).symm, fun h => h ▸ rfl⟩

end Registry

end ServingRegistry

end Ferric
