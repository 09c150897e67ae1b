import Ferric.ServingRegistry.Windows

/-!
# What every call keeps

A registry in good order has one entry for each request, and the members that run are exactly those
of the batch in flight, which has the last submitted epoch and the bound plan. The phase of a
maintenance step says where the epochs are. Every call that succeeds keeps this, and so what a
completion has to find is there: neither `expect` of the source can fail.

## Main definitions

* `Registry.Valid` — a registry in good order
* `Registry.PhaseValid` — what the phase of a maintenance step says

## Main results

* `Valid.recorded`, `Valid.applied` — a batch goes into flight, and completes
* `Valid.windowed`, `Valid.restored` — a window is replaced, and comes back
-/

namespace Ferric

namespace ServingRegistry

open Spec

/-- The epoch a member runs in. -/
def RequestPhase.activeEpoch : RequestPhase → Option ℕ
  | .inFlight epoch => some epoch
  | .cancellationPending epoch => some epoch
  | _ => none

/-- The members that run. -/
def active (entries : List Entry) : List Entry := entries.filter (·.phase.activeEpoch.isSome)

/-- An entry in good order, with the batch in flight and the last completed epoch. -/
structure EntryValid (inFlight : Option InFlightBatch) (completedEpoch : ℕ) (e : Entry) : Prop where
  generation : e.request.generation ≠ 0
  active : ∀ n, e.phase.activeEpoch = some n →
    ∃ b, inFlight = some b ∧ n = b.epoch ∧ e.plan = b.plan
  quiet : ∀ n, e.lastQuiescence = some n → 0 < n ∧ n ≤ completedEpoch
  retired : ∀ q, e.phase = .retired q → q = e.lastQuiescence.elim .neverSubmitted .completed

namespace EntryValid

variable {inFlight : Option InFlightBatch} {completedEpoch : ℕ} {e : Entry}

/-- Without a batch in flight no member runs. -/
theorem activeEpoch_eq_none (h : EntryValid none completedEpoch e) :
    e.phase.activeEpoch = none := by
  cases hactive : e.phase.activeEpoch with
  | none => rfl
  | some n =>
    obtain ⟨b, hb, -⟩ := h.active n hactive
    cases hb

/-- A member that is waiting. -/
theorem ready (hgeneration : e.request.generation ≠ 0) (hready : e.phase = .ready)
    (hquiet : ∀ n, e.lastQuiescence = some n → 0 < n ∧ n ≤ completedEpoch) :
    EntryValid inFlight completedEpoch e := by
  refine ⟨hgeneration, ?_, hquiet, ?_⟩
  · rw [hready]
    intro n hn
    cases hn
  · rw [hready]
    intro q hq
    cases hq

/-- A member that retired where it came to rest. -/
theorem retire (hgeneration : e.request.generation ≠ 0)
    (hphase : e.phase = .retired (e.lastQuiescence.elim .neverSubmitted .completed))
    (hquiet : ∀ n, e.lastQuiescence = some n → 0 < n ∧ n ≤ completedEpoch) :
    EntryValid inFlight completedEpoch e := by
  refine ⟨hgeneration, ?_, hquiet, ?_⟩
  · rw [hphase]
    intro n hn
    cases hn
  · rw [hphase]
    intro q hq
    exact (RequestPhase.retired.inj hq).symm

/-- A member that completed waits or retired. -/
theorem complete {inFlight' : Option InFlightBatch} {epoch : ℕ}
    (h : EntryValid inFlight completedEpoch e) (hpos : 0 < epoch)
    (disposition : CompletionDisposition) :
    EntryValid inFlight' epoch (completeEntry epoch disposition e) := by
  have hquiet : ∀ n, some epoch = some n → 0 < n ∧ n ≤ epoch := by
    intro n hn
    obtain rfl := Option.some.inj hn
    exact ⟨hpos, le_rfl⟩
  cases disposition with
  | continue_ next => exact .ready h.generation rfl hquiet
  | retire => exact .retire h.generation rfl hquiet

end EntryValid

namespace Registry

variable {C : ℕ} {r r' : Registry C}

/-- The members of the batch in flight. -/
def roster (r : Registry C) : List RequestId := r.inFlight.elim [] (·.requests)

/-- What the phase of a maintenance step says. -/
def PhaseValid (r : Registry C) (phase : DraftCatchupPhase) : Prop :=
  (∃ plan, r.boundPlan = some plan ∧ phase.key.ValidFor plan) ∧ match phase with
  | .pending key => r.inFlight = none ∧ r.completedEpoch = key.priorEpoch
  | .inFlight key =>
    (∃ plan, r.inFlight = some ⟨plan, [key.request], key.epoch⟩) ∧
      r.completedEpoch = key.priorEpoch
  | .completed key _ => r.inFlight = none ∧ r.completedEpoch = key.epoch

/-- A registry in good order. -/
structure Valid (r : Registry C) : Prop where
  nodup : (r.entries.map (·.request)).Nodup
  length_le : r.entries.length ≤ C
  entries : ∀ e ∈ r.entries, EntryValid r.inFlight r.completedEpoch e
  roster : (active r.entries).map (·.request) = r.roster
  epochs : r.submittedEpoch = r.completedEpoch + r.inFlight.elim 0 fun _ => 1
  submitted_lt : r.submittedEpoch < 2 ^ 64
  flight : ∀ b, r.inFlight = some b → r.reservation = none ∧ r.boundPlan = some b.plan ∧
    b.epoch = r.submittedEpoch ∧ b.requests ≠ []
  reserved : ∀ live, r.reservation = some live →
    live.epoch = r.submittedEpoch + 1 ∧ live.epoch < 2 ^ 64
  catchup : ∀ phase, r.draftCatchup = some phase → r.PhaseValid phase

namespace Valid

/-- A fresh registry. -/
theorem new {counter : ℕ} (h : Registry.new C counter = .ok r) : r.Valid ∧ 0 < C := by
  simp only [Registry.new, bind_eq_ok, failIf_eq_ok, exists_const] at h
  obtain ⟨hC, -, -, h⟩ := h
  obtain rfl := Except.ok.inj h
  refine ⟨⟨List.nodup_nil, Nat.zero_le C, by simp, rfl, rfl, Nat.two_pow_pos 64, by simp, by simp,
    by simp⟩, Nat.pos_of_ne_zero hC⟩

/-- The members that run have distinct requests. -/
theorem nodup_roster (hv : r.Valid) : r.roster.Nodup :=
  hv.roster ▸ hv.nodup.sublist (List.filter_sublist.map _)

/-- A member of the batch in flight has an entry. -/
theorem exists_of_mem_roster (hv : r.Valid) {request : RequestId} (h : request ∈ r.roster) :
    ∃ e ∈ r.entries, e.request = request ∧ e.phase.activeEpoch.isSome = true := by
  rw [← hv.roster] at h
  obtain ⟨e, he, rfl⟩ := List.mem_map.mp h
  obtain ⟨he, hactive⟩ := List.mem_filter.mp he
  exact ⟨e, he, rfl, hactive⟩

/-- A member that runs is one of the batch in flight. -/
theorem mem_roster (hv : r.Valid) {e : Entry} (he : e ∈ r.entries)
    (hactive : e.phase.activeEpoch.isSome = true) : e.request ∈ r.roster := by
  rw [← hv.roster]
  exact List.mem_map_of_mem (List.mem_filter.mpr ⟨he, hactive⟩)

/-- Without a batch in flight no member runs. -/
theorem activeEpoch_eq_none (hv : r.Valid) (hquiescent : r.inFlight = none) {e : Entry}
    (he : e ∈ r.entries) : e.phase.activeEpoch = none := by
  have h := hv.entries e he
  rw [hquiescent] at h
  exact h.activeEpoch_eq_none

/-! ### Members -/

/-- Other entries with the same members running. -/
theorem withEntries (hv : r.Valid) {entries : List Entry}
    (hnd : (entries.map (·.request)).Nodup) (hlength : entries.length ≤ C)
    (hentries : ∀ e ∈ entries, EntryValid r.inFlight r.completedEpoch e)
    (hactive : (active entries).map (·.request) = (active r.entries).map (·.request)) :
    ({ r with entries := entries } : Registry C).Valid :=
  ⟨hnd, hlength, hentries, hactive.trans hv.roster, hv.epochs, hv.submitted_lt, hv.flight,
    hv.reserved, hv.catchup⟩

/-- One entry changes, and runs if it did. -/
theorem onEntry (hv : r.Valid) {request : RequestId} {entry : Entry}
    (hentry : r.entry request = some entry) {g : Entry → Entry}
    (hg : ∀ e, (g e).request = e.request)
    (hvalid : EntryValid r.inFlight r.completedEpoch (g entry))
    (hactive : (g entry).phase.activeEpoch.isSome = entry.phase.activeEpoch.isSome) :
    ({ r with entries := r.entries.map (onEntry request g) } : Registry C).Valid := by
  obtain ⟨hmem, hrequest⟩ := entry_some hentry
  -- the entry of the request is the only one that changes
  have hcases : ∀ e ∈ r.entries, ServingRegistry.onEntry request g e = e ∨
      e = entry ∧ ServingRegistry.onEntry request g e = g entry := by
    intro e he
    rw [ServingRegistry.onEntry]
    by_cases heq : e.request = request
    · have : e = entry := Keyed.eq_of_nodup hv.nodup he hmem (heq.trans hrequest.symm)
      rw [if_pos heq, this]
      exact .inr ⟨rfl, rfl⟩
    · rw [if_neg heq]
      exact .inl rfl
  have hmap : (r.entries.map (ServingRegistry.onEntry request g)).map (·.request) =
      r.entries.map (·.request) := by
    rw [List.map_map]
    exact List.map_congr_left fun e _ => onEntry_request hg e
  refine hv.withEntries (hmap ▸ hv.nodup) (by simpa using hv.length_le) ?_ ?_
  · intro e he
    obtain ⟨x, hx, rfl⟩ := List.mem_map.mp he
    rcases hcases x hx with hsame | ⟨-, hchanged⟩
    · rw [hsame]
      exact hv.entries x hx
    · rw [hchanged]
      exact hvalid
  · have hfilter : active (r.entries.map (ServingRegistry.onEntry request g)) =
        (active r.entries).map (ServingRegistry.onEntry request g) := by
      rw [active, active, List.filter_map]
      congr 1
      refine List.filter_congr fun e he => ?_
      rcases hcases e he with hsame | ⟨rfl, hchanged⟩
      · rw [Function.comp_apply, hsame]
      · rw [Function.comp_apply, hchanged, hactive]
    rw [hfilter, List.map_map]
    exact List.map_congr_left fun e _ => onEntry_request hg e

theorem admitRequest (hv : r.Valid) {request : RequestId} {prefill : ServingPlan}
    (h : r.admitRequest request prefill = .ok r') : r'.Valid := by
  obtain ⟨-, hgeneration, -, hfresh, hlength, rfl⟩ := admit_ok h
  refine hv.withEntries ?_ ?_ ?_ ?_
  · rw [List.map_append, List.nodup_append]
    refine ⟨hv.nodup, List.nodup_singleton _, fun a ha b hb => ?_⟩
    obtain ⟨e, he, rfl⟩ := List.mem_map.mp ha
    obtain rfl : b = request := by simpa using hb
    exact hfresh e he
  · have hle := hv.length_le
    rw [List.length_append, List.length_singleton]
    omega
  · intro e he
    rcases List.mem_append.mp he with he | he
    · exact hv.entries e he
    · obtain rfl := List.mem_singleton.mp he
      exact .ready hgeneration rfl (by simp)
  · rw [active, List.filter_append]
    simp [active, RequestPhase.activeEpoch]

theorem transition (hv : r.Valid) {request : RequestId} {next : ServingPlan}
    (h : r.transition request next = .ok r') : r'.Valid := by
  obtain ⟨-, -, entry, hentry, hready, -, rfl⟩ := transition_ok hv.nodup h
  have hvalid := hv.entries entry (entry_some hentry).1
  refine hv.onEntry hentry (g := fun e => { e with plan := next }) (fun _ => rfl) ?_ rfl
  exact .ready hvalid.generation hready hvalid.quiet

theorem cancel (hv : r.Valid) {request : RequestId} {phase : RequestPhase}
    (h : r.cancel request = .ok (phase, r')) : r'.Valid := by
  obtain ⟨-, entry, hentry, hphase, -, rfl⟩ := cancel_ok hv.nodup h
  have hvalid := hv.entries entry (entry_some hentry).1
  rcases hphase with hready | ⟨epoch, hflight⟩
  · have hcancel : cancelPhase entry =
        .retired (entry.lastQuiescence.elim .neverSubmitted .completed) := by
      rw [cancelPhase, hready]
    refine hv.onEntry hentry (g := fun e => { e with phase := cancelPhase e }) (fun _ => rfl) ?_ ?_
    · exact .retire hvalid.generation hcancel hvalid.quiet
    · rw [hcancel, hready]
      rfl
  · have hcancel : cancelPhase entry = .cancellationPending epoch := by
      rw [cancelPhase, hflight]
    refine hv.onEntry hentry (g := fun e => { e with phase := cancelPhase e }) (fun _ => rfl) ?_ ?_
    · refine ⟨hvalid.generation, ?_, hvalid.quiet, ?_⟩
      · show ∀ n, (cancelPhase entry).activeEpoch = some n → _
        rw [hcancel]
        intro n hn
        refine hvalid.active n ?_
        rw [hflight]
        exact hn
      · show ∀ q, cancelPhase entry = .retired q → _
        rw [hcancel]
        intro q hq
        cases hq
    · rw [hcancel, hflight]
      rfl

theorem removeRetired (hv : r.Valid) {request : RequestId} {quiescence : Quiescence}
    (h : r.removeRetired request = .ok (quiescence, r')) : r'.Valid := by
  obtain ⟨-, entry, hentry, hretired, rfl⟩ := removeRetired_ok hv.nodup h
  obtain ⟨hmem, hrequest⟩ := entry_some hentry
  refine hv.withEntries (hv.nodup.sublist (List.filter_sublist.map _))
    ((List.length_filter_le _ _).trans hv.length_le) ?_ ?_
  · exact fun e he => hv.entries e (List.mem_of_mem_filter he)
  · congr 1
    rw [active, active, List.filter_filter]
    refine List.filter_congr fun e he => ?_
    -- the entry that goes does not run
    by_cases heq : e.request = request
    · have : e = entry := Keyed.eq_of_nodup hv.nodup he hmem (heq.trans hrequest.symm)
      rw [this, hretired]
      simp [RequestPhase.activeEpoch]
    · simp [heq]

/-! ### Reservations -/

theorem reserve (hv : r.Valid) {batch : BatchPlan} (hnext : r.IsNext batch)
    (hquiescent : r.inFlight = none) (key : Option DraftCatchupKey) :
    (r.reserved batch key).Valid := by
  obtain ⟨hlt, hepoch⟩ := checkedAdd_eq_some.mp hnext.epoch
  refine ⟨hv.nodup, hv.length_le, hv.entries, hv.roster, hv.epochs, hv.submitted_lt, ?_, ?_,
    hv.catchup⟩
  · intro b hb
    cases hquiescent.symm.trans hb
  · intro live hlive
    obtain rfl := Option.some.inj hlive
    exact ⟨hepoch.symm, hepoch ▸ hlt⟩

theorem abort (hv : r.Valid) : ({ r with reservation := none } : Registry C).Valid := by
  refine ⟨hv.nodup, hv.length_le, hv.entries, hv.roster, hv.epochs, hv.submitted_lt, ?_, ?_,
    hv.catchup⟩
  · intro b hb
    exact ⟨rfl, (hv.flight b hb).2⟩
  · intro live hlive
    cases hlive

theorem registerKey (hv : r.Valid) (hquiescent : r.inFlight = none) {parent : ServingPlan}
    {key : DraftCatchupKey} (hkey : r.KeyReady parent key) :
    ({ r with draftCatchup := some (.pending key) } : Registry C).Valid := by
  refine ⟨hv.nodup, hv.length_le, hv.entries, hv.roster, hv.epochs, hv.submitted_lt, hv.flight,
    hv.reserved, ?_⟩
  intro phase hphase
  obtain rfl := Option.some.inj hphase
  exact ⟨⟨parent, hkey.bound, hkey.valid⟩, hquiescent, hkey.completed⟩

theorem retireQueue (hv : r.Valid) (hquiescent : r.inFlight = none) :
    ({ r with boundPlan := none, draftCatchup := none } : Registry C).Valid := by
  refine ⟨hv.nodup, hv.length_le, hv.entries, hv.roster, hv.epochs, hv.submitted_lt, ?_,
    hv.reserved, ?_⟩
  · intro b hb
    cases hquiescent.symm.trans hb
  · intro phase hphase
    cases hphase

end Valid

/-! ### Publication -/

/-- The entries that run are ready entries of the plan of their batch, in entry order. -/
theorem IsRoster.chosen {batch : BatchPlan} (h : r.IsRoster batch) :
    ∃ chosen : List Entry, chosen.Sublist r.entries ∧ chosen.map (·.request) = batch.requests ∧
      (∀ e ∈ chosen, e.phase = .ready ∧ e.plan = batch.plan) ∧ batch.requests ≠ [] := by
  unfold IsRoster at h
  cases hphase : r.draftCatchup with
  | some phase =>
    rw [hphase] at h
    obtain ⟨hrequests, entry, hentry, hready, hplan⟩ := h
    obtain ⟨hmem, hrequest⟩ := entry_some hentry
    refine ⟨[entry], List.singleton_sublist.mpr hmem, ?_, ?_, ?_⟩
    · rw [hrequests, List.map_singleton, hrequest]
    · intro e he
      obtain rfl := List.mem_singleton.mp he
      exact ⟨hready, hplan⟩
    · rw [hrequests]
      exact List.cons_ne_nil _ _
  | none =>
    rw [hphase] at h
    obtain ⟨hrequests, hne⟩ := h
    refine ⟨_, (List.take_sublist _ _).trans List.filter_sublist, hrequests.symm, ?_, hne⟩
    intro e he
    have hmem := List.mem_filter.mp (List.mem_of_mem_take he)
    simpa using hmem.2

/-- A reserved batch has the next epoch. -/
theorem Reserved.epoch_eq {token : PublicationReservation} {live : ReservedBatch} (hv : r.Valid)
    (h : r.Reserved token live) :
    token.batch.epoch = r.submittedEpoch + 1 ∧ token.batch.epoch < 2 ^ 64 :=
  h.epoch ▸ hv.reserved live h.reservation

@[simp] theorem publishEntry_request (requests : List RequestId) (epoch : ℕ) (e : Entry) :
    (publishEntry requests epoch e).request = e.request := by
  rw [publishEntry]
  split <;> rfl

/-- After a batch is recorded the maintenance step is where the epochs say it is. -/
theorem Reserved.phaseValid {token : PublicationReservation} {live : ReservedBatch}
    (h : r.Reserved token live) {phase : DraftCatchupPhase}
    (hphase : r.phaseAfter live token.batch.action = some phase) :
    (r.recorded live token.batch).PhaseValid phase := by
  have hagrees := h.agrees
  unfold Agrees at hagrees
  unfold phaseAfter at hphase
  cases haction : token.batch.action with
  | quiescentDraftCatchup parent =>
    rw [haction] at hagrees hphase
    obtain ⟨key, hkey, hstarts⟩ := hagrees
    rw [hkey] at hphase
    obtain rfl := Option.some.inj hphase
    refine ⟨⟨token.batch.plan, rfl, hstarts.key.valid⟩, ⟨token.batch.plan, ?_⟩,
      hstarts.key.completed⟩
    show some (⟨_, token.batch.requests, token.batch.epoch⟩ : InFlightBatch) = _
    rw [hstarts.requests, hstarts.epoch]
  | quiescentDraftCatchupRestore parent =>
    rw [haction] at hphase
    cases hphase
  | _ =>
    rw [haction] at hagrees hphase
    cases hagrees.2.symm.trans hphase

/-- **A batch goes into flight.** -/
theorem Valid.recorded {token : PublicationReservation} {live : ReservedBatch} (hv : r.Valid)
    (h : r.Reserved token live) : (r.recorded live token.batch).Valid := by
  obtain ⟨chosen, hsub, hrequests, hready, hne⟩ := h.roster.chosen
  obtain ⟨hepoch, hlt⟩ := h.epoch_eq hv
  have hcompleted : r.completedEpoch = r.submittedEpoch := by
    have heq := hv.epochs
    rw [h.quiescent] at heq
    exact heq.symm
  have hmap : (r.entries.map (publishEntry token.batch.requests token.batch.epoch)).map
      (·.request) = r.entries.map (·.request) := by
    rw [List.map_map]
    exact List.map_congr_left fun e _ => publishEntry_request _ _ e
  -- an entry on the roster is one of the chosen
  have hchosen : ∀ e ∈ r.entries, e.request ∈ token.batch.requests → e ∈ chosen := by
    intro e he hmem
    rw [← hrequests] at hmem
    obtain ⟨x, hx, hxr⟩ := List.mem_map.mp hmem
    rwa [Keyed.eq_of_nodup hv.nodup he (hsub.subset hx) hxr.symm]
  refine ⟨hmap ▸ hv.nodup, by simpa [Registry.recorded, launch] using hv.length_le, ?_, ?_, ?_,
    hlt, ?_, ?_, fun phase hphase => h.phaseValid hphase⟩
  · intro e he
    obtain ⟨x, hx, rfl⟩ := List.mem_map.mp he
    have hx' := hv.entries x hx
    rw [h.quiescent] at hx'
    rw [publishEntry]
    split
    · next hmem =>
      refine ⟨hx'.generation, ?_, hx'.quiet, ?_⟩
      · intro n hn
        exact ⟨_, rfl, (Option.some.inj hn).symm, (hready x (hchosen x hx hmem)).2⟩
      · intro q hq
        cases hq
    · refine ⟨hx'.generation, fun n hn => ?_, hx'.quiet, hx'.retired⟩
      cases hx'.activeEpoch_eq_none.symm.trans hn
  · have hactive : active (r.entries.map (publishEntry token.batch.requests token.batch.epoch)) =
        (r.entries.filter (·.request ∈ token.batch.requests)).map
          (publishEntry token.batch.requests token.batch.epoch) := by
      rw [active, List.filter_map]
      congr 1
      refine List.filter_congr fun e he => ?_
      rw [Function.comp_apply, publishEntry]
      split
      · next hmem => simp [RequestPhase.activeEpoch, hmem]
      · next hmem => simp [hv.activeEpoch_eq_none h.quiescent he, hmem]
    show (active (r.entries.map _)).map _ = token.batch.requests
    rw [hactive, List.map_map]
    calc (r.entries.filter (·.request ∈ token.batch.requests)).map
          ((·.request) ∘ publishEntry token.batch.requests token.batch.epoch)
        = (r.entries.filter (·.request ∈ token.batch.requests)).map (·.request) :=
          List.map_congr_left fun e _ => publishEntry_request _ _ e
      _ = (r.entries.map (·.request)).filter (· ∈ token.batch.requests) := by
          rw [List.filter_map]
          rfl
      _ = token.batch.requests :=
          filter_mem_of_sublist (hrequests ▸ hsub.map _) hv.nodup
  · show token.batch.epoch = r.completedEpoch + 1
    rw [hepoch, hcompleted]
  · intro b hb
    obtain rfl := Option.some.inj hb
    exact ⟨rfl, rfl, rfl, hne⟩
  · intro other hother
    cases hother

/-! ### Completion -/

/-- The entries after a completion. -/
def completedEntries (r : Registry C) (epoch : ℕ)
    (lanes : List (RequestId × CompletionDisposition)) :
    List Entry :=
  r.entries.map (Keyed.take (·.request) Prod.fst (fun e lane => completeEntry epoch lane.2 e) lanes)

/-- **Neither `expect` of a completion fails**: what it applies, it finds. -/
theorem Valid.applyValidatedCompletion_eq (hv : r.Valid) {b : InFlightBatch}
    (hflight : r.inFlight = some b) (epoch : ℕ) {dispositions : List CompletionDisposition}
    (hlength : dispositions.length = b.requests.length) :
    r.applyValidatedCompletion epoch dispositions =
      .ok { r with
        inFlight := none
        entries := r.completedEntries epoch (b.requests.zip dispositions)
        completedEpoch := epoch } := by
  have hroster : r.roster = b.requests := by rw [Registry.roster, hflight]; rfl
  have hfst : (b.requests.zip dispositions).map Prod.fst = b.requests :=
    List.map_fst_zip (by omega)
  rw [applyValidatedCompletion, hflight]
  show (applyDispositions epoch (b.requests.zip dispositions) r.entries >>= _) = _
  rw [applyDispositions_eq (hfst.symm ▸ hroster ▸ hv.nodup_roster) hv.nodup]
  · rfl
  · intro lane hlane
    have hmem : lane.1 ∈ r.roster := by
      rw [hroster, ← hfst]
      exact List.mem_map_of_mem hlane
    obtain ⟨e, he, hrequest, -⟩ := hv.exists_of_mem_roster hmem
    exact ⟨e, he, hrequest⟩

/-- What an entry is after a completion: what it was, or what its disposition made of it. -/
theorem take_cases (epoch : ℕ) {b : InFlightBatch} {dispositions : List CompletionDisposition}
    (hlength : dispositions.length = b.requests.length) (e : Entry) :
    (e.request ∉ b.requests ∧ Keyed.take (·.request) Prod.fst
        (fun e lane => completeEntry epoch lane.2 e) (b.requests.zip dispositions) e = e) ∨
      e.request ∈ b.requests ∧
      ∃ disposition, (e.request, disposition) ∈ b.requests.zip dispositions ∧
        Keyed.take (·.request) Prod.fst (fun e lane => completeEntry epoch lane.2 e)
          (b.requests.zip dispositions) e = completeEntry epoch disposition e := by
  have hfst : (b.requests.zip dispositions).map Prod.fst = b.requests :=
    List.map_fst_zip (by omega)
  unfold Keyed.take
  cases hfind : (b.requests.zip dispositions).find? fun lane => lane.1 = e.request with
  | none =>
    refine .inl ⟨fun hmem => ?_, rfl⟩
    rw [← hfst] at hmem
    obtain ⟨lane, hlane, hrequest⟩ := List.mem_map.mp hmem
    simpa [hrequest] using List.find?_eq_none.mp hfind lane hlane
  | some lane =>
    have hrequest : lane.1 = e.request := by simpa using List.find?_some hfind
    have hmem := List.mem_of_find?_eq_some hfind
    refine .inr ⟨?_, lane.2, ?_, rfl⟩
    · rw [← hrequest, ← hfst]
      exact List.mem_map_of_mem hmem
    · rwa [← hrequest]

/-- **A batch completes**, and the maintenance step with it where the batch was one. -/
theorem Valid.applied (hv : r.Valid) {b : InFlightBatch} (hflight : r.inFlight = some b)
    {dispositions : List CompletionDisposition} (hlength : dispositions.length = b.requests.length)
    {phase : Option DraftCatchupPhase}
    (hphase : ∀ p, phase = some p → Registry.PhaseValid (C := C) { r with
      inFlight := none
      entries := r.completedEntries b.epoch (b.requests.zip dispositions)
      completedEpoch := b.epoch
      draftCatchup := phase } p) :
    ({ r with
      inFlight := none
      entries := r.completedEntries b.epoch (b.requests.zip dispositions)
      completedEpoch := b.epoch
      draftCatchup := phase } : Registry C).Valid := by
  obtain ⟨hlive, hbound, hepoch, -⟩ := hv.flight b hflight
  have hsubmitted : r.submittedEpoch = r.completedEpoch + 1 := by
    have heq := hv.epochs
    rwa [hflight] at heq
  have hroster : r.roster = b.requests := by rw [Registry.roster, hflight]; rfl
  have hmap : (r.completedEntries b.epoch (b.requests.zip dispositions)).map (·.request) =
      r.entries.map (·.request) :=
    Keyed.map_key_take fun e lane _ => completeEntry_request _ _ e
  -- a member that is not on the roster did not run
  have hidle : ∀ e ∈ r.entries, e.request ∉ b.requests → e.phase.activeEpoch = none := by
    intro e he hnot
    by_contra hactive
    exact hnot (hroster ▸ hv.mem_roster he (Option.isSome_iff_ne_none.mpr hactive))
  have hentry : ∀ e ∈ r.completedEntries b.epoch (b.requests.zip dispositions),
      EntryValid none b.epoch e := by
    intro e he
    obtain ⟨x, hx, rfl⟩ := List.mem_map.mp he
    have hx' := hv.entries x hx
    rcases take_cases b.epoch hlength x with ⟨hnot, hsame⟩ | ⟨-, disposition, -, hdone⟩
    · rw [hsame]
      refine ⟨hx'.generation, fun n hn => ?_, fun n hn => ?_, hx'.retired⟩
      · cases (hidle x hx hnot).symm.trans hn
      · have hq := hx'.quiet n hn
        exact ⟨hq.1, by omega⟩
    · rw [hdone]
      exact hx'.complete (by omega) disposition
  refine ⟨hmap ▸ hv.nodup, ?_, hentry, ?_, hepoch.symm, hv.submitted_lt, ?_, ?_, hphase⟩
  · show (r.completedEntries _ _).length ≤ C
    rw [completedEntries, List.length_map]
    exact hv.length_le
  · show (active _).map _ = []
    rw [List.map_eq_nil_iff, active, List.filter_eq_nil_iff]
    intro e he
    simp [(hentry e he).activeEpoch_eq_none]
  · intro other hother
    cases hother
  · intro live hreserved
    cases hlive.symm.trans hreserved

/-- An exact completion. -/
theorem Valid.completeExact (hv : r.Valid) {identity epoch : ℕ}
    {dispositions : List CompletionDisposition}
    (h : r.completeExact identity epoch dispositions = .ok r') :
    r'.Valid ∧ ∃ b, r.inFlight = some b ∧ b.epoch = epoch ∧
      dispositions.length = b.requests.length ∧ r' = { r with
        inFlight := none
        entries := r.completedEntries epoch (b.requests.zip dispositions)
        completedEpoch := epoch } := by
  obtain ⟨hvalid, happly⟩ := completeExact_ok h
  obtain ⟨-, hphase, b, hflight, rfl, -, hlength, -⟩ := validateCompletionExact_ok hvalid
  rw [hv.applyValidatedCompletion_eq hflight _ hlength] at happly
  obtain rfl := Except.ok.inj happly
  refine ⟨hv.applied hflight hlength fun p hp => ?_, b, hflight, rfl, hlength, rfl⟩
  cases hphase.symm.trans hp

/-- The completion of a maintenance step. -/
theorem Valid.completeDraftCatchupKey (hv : r.Valid) {key : DraftCatchupKey}
    {dispatchGeneration : ℕ} (h : r.completeDraftCatchupKey key dispatchGeneration = .ok r') :
    r'.Valid ∧ ∃ b disposition, r.inFlight = some b ∧ b.epoch = key.epoch ∧
      b.requests = [key.request] ∧ r.draftCatchup = some (.inFlight key) ∧
      r.validateDraftCatchupCompletion key dispatchGeneration = .ok disposition ∧ r' = { r with
        inFlight := none
        entries := r.completedEntries key.epoch (b.requests.zip [disposition])
        completedEpoch := key.epoch
        draftCatchup := some (.completed key dispatchGeneration) } := by
  obtain ⟨disposition, applied, hvalid, happly, rfl⟩ := completeDraftCatchupKey_ok h
  obtain ⟨-, hphase, -, -, b, -, hflight, hkey, hrequests, hepoch, hbound, -⟩ :=
    validateDraftCatchupCompletion_ok hvalid
  rw [hv.applyValidatedCompletion_eq hflight _ (by simp [hrequests])] at happly
  obtain rfl := Except.ok.inj happly
  refine ⟨?_, b, disposition, hflight, hepoch, hrequests, hphase, hvalid, rfl⟩
  rw [← hepoch]
  refine hv.applied hflight (by simp [hrequests]) fun p hp => ?_
  obtain rfl := Option.some.inj hp
  exact ⟨⟨b.plan, hbound, hkey⟩, rfl, hepoch⟩

/-! ### The replacement of a window -/

/-- The members of a window that a reservation holds. -/
structure Shelved (C : ℕ) (token : NewWindowReservation) : Prop where
  nodup : (token.predecessors.map (·.request)).Nodup
  generation : ∀ e ∈ token.predecessors, e.request.generation ≠ 0
  retired : ∀ e ∈ token.predecessors, ∃ q, e.phase = .retired q
  length_le : token.predecessors.length ≤ C

theorem freshEntry_valid {inFlight : Option InFlightBatch} {completed : ℕ} {plan : ServingPlan}
    {request : RequestId} (h : request.generation ≠ 0) :
    EntryValid inFlight completed (freshEntry plan request) :=
  .ready h rfl fun n hn => by cases hn

/-- **A window is replaced.** -/
theorem Valid.windowed (hv : r.Valid) {prior plan : ServingPlan} {requests : List RequestId}
    (h : r.Replaceable prior plan requests) :
    (r.windowed prior plan requests).Valid ∧ Shelved C (r.windowToken prior plan requests) := by
  have hidle : active (requests.map (freshEntry plan)) = [] := by
    rw [active, List.filter_eq_nil_iff]
    intro e he
    obtain ⟨request, -, rfl⟩ := List.mem_map.mp he
    simp [freshEntry, RequestPhase.activeEpoch]
  have hroster : r.roster = [] := by rw [Registry.roster, h.quiescent]; rfl
  constructor
  · refine ⟨?_, ?_, ?_, ?_, hv.epochs, hv.submitted_lt, ?_, ?_, ?_⟩
    · show ((requests.map (freshEntry plan)).map (·.request)).Nodup
      rw [List.map_map]
      exact (List.map_id' requests).symm ▸ h.nodup hv.nodup
    · show (requests.map (freshEntry plan)).length ≤ C
      rw [List.length_map]
      exact h.length_le
    · intro e he
      obtain ⟨request, hrequest, rfl⟩ := List.mem_map.mp he
      obtain ⟨i, hi⟩ := List.getElem?_of_mem hrequest
      obtain ⟨_, -, hs⟩ := getElem?_of_forall₂ h.successors hi
      exact freshEntry_valid hs.1
    · show (active (requests.map (freshEntry plan))).map _ = r.roster
      rw [hidle, hroster]
      rfl
    · intro b hb
      cases h.quiescent.symm.trans hb
    · intro live hlive
      obtain rfl := Option.some.inj hlive
      exact ⟨rfl, h.epoch⟩
    · intro phase hphase
      cases h.maintained.symm.trans hphase
  · refine ⟨hv.nodup, fun e he => (hv.entries e he).generation, fun e he => ?_, hv.length_le⟩
    obtain ⟨-, epoch, hphase, -⟩ := h.predecessors e he
    exact ⟨_, hphase⟩

/-- **A window comes back.** -/
theorem Valid.restored (hv : r.Valid) {token : NewWindowReservation} {live : ReservedBatch}
    (h : r.Replaces token live) (hshelved : Shelved C token) :
    ({ r with reservation := none, entries := token.predecessors } : Registry C).Valid := by
  have hquiescent := h.reserved.quiescent
  refine hv.abort.withEntries hshelved.nodup hshelved.length_le ?_ ?_
  · intro e he
    obtain ⟨-, epoch, hphase, hne, hle, hquiet⟩ := h.predecessors e he
    refine .retire (hshelved.generation e he) (by rw [hphase, hquiet]; rfl) fun n hn => ?_
    obtain rfl := Option.some.inj (hquiet.symm.trans hn)
    exact ⟨Nat.pos_of_ne_zero hne, hle⟩
  · have hpred : active token.predecessors = [] := by
      rw [active, List.filter_eq_nil_iff]
      intro e he
      obtain ⟨q, hq⟩ := hshelved.retired e he
      simp [hq, RequestPhase.activeEpoch]
    have hfresh : active r.entries = [] := by
      rw [active, List.filter_eq_nil_iff]
      intro e he
      simp [hv.activeEpoch_eq_none hquiescent he]
    rw [hpred, hfresh]

end Registry

end ServingRegistry

end Ferric
