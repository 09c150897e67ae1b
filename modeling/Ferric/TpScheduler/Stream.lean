import Ferric.Lib.System
import Ferric.TpScheduler.Completion

/-!
# Streams of the scheduler

The remaining calls, and the scheduler as a transition system with two ghost variables: the rows
of the completed batches, in completion order, and the records of retired requests. Every request
sees its own positions once, in order, whatever else is scheduled, aborted or cancelled between
them, and a slot that is used again starts a new stream.

## Main definitions

* `Run`, `runSystem` — schedulers under arbitrary calls
* `StreamExact` — what the completed rows of a request look like

## Main results

* `stream_exact_of_reachable`
-/

namespace Ferric

namespace TpScheduler

namespace Scheduler

variable {s : Scheduler}

/-! ### Admission -/

/-- What an admission leaves. -/
structure Admitted (s : Scheduler) (admission : RequestAdmission) (nowNs : ℕ) (i : Fin 32)
    (id : RequestId) (s' : Scheduler) : Prop where
  idle : s.Idle
  clock : s.lastTimeNs ≤ nowNs
  vacant : (s.slots i).request = none
  id_eq : id = ⟨i, (s.slots i).generation + 1⟩
  cached_lt : admission.cachedPrefixTokens < admission.promptTokens.length
  max_pos : 0 < admission.maxNewTokens
  fits : admission.promptTokens.length + admission.maxNewTokens ≤ s.contextLimit + 1
  eq : s' = { s with
    slots := Function.update s.slots i ⟨id.generation, some (admission.record id)⟩
    lastTimeNs := nowNs }

theorem admitRequest_ensures {admission : RequestAdmission} {nowNs : ℕ} :
    Ensures (s.admitRequest admission nowNs) (fun _ => True) fun out =>
      ∃ i, s.Admitted admission nowNs i out.1 out.2 := by
  rw [admitRequest]
  refine (requireIdle_ensures.mono (fun _ _ => trivial) fun _ _ h => h).bind fun _ _ hidle => ?_
  refine (ensures_failIf (Q := fun _ => s.lastTimeNs ≤ nowNs) (fun _ => trivial)
    fun hok => Nat.not_lt.mp (not_or.mp hok).2).bind fun _ _ hclock => ?_
  refine (ensures_failIf (Q := fun _ => True) (fun _ => trivial) fun _ => trivial).bind
    fun _ _ _ => ?_
  simp only
  refine (ensures_failIf (Q := fun _ => 0 < admission.maxNewTokens ∧
    admission.cachedPrefixTokens < admission.promptTokens.length ∧
    admission.promptTokens.length + admission.maxNewTokens ≤ s.contextLimit + 1)
    (fun _ => trivial) fun hok => ?_).bind fun _ _ hsizes => ?_
  · simp only [not_or] at hok
    obtain ⟨-, hmax, hcached, htotal, -⟩ := hok
    refine ⟨by omega, by omega, ?_⟩
    rw [checkedAdd] at htotal
    split at htotal
    · rw [Option.bind_some, checkedSub_of_le (by omega), Option.all_some,
        decide_eq_true_iff] at htotal
      omega
    · simp at htotal
  refine (ensures_orErr (Q := fun i => (s.slots i).request = none) (fun _ => trivial)
    fun i hi => ?_).bind fun i _ hvacant => ?_
  · have hp := List.find?_some hi
    simp only [Bool.and_eq_true, Option.isNone_iff_eq_none] at hp
    exact hp.1
  · obtain ⟨hmax, hcached, hfits⟩ := hsizes
    exact ensures_pure.mpr ⟨i, hidle, hclock, hvacant, rfl, hcached, hmax, hfits, rfl⟩

/-- What a slot retains after one slot was written. -/
theorem retains_update {i j : Fin 32} {slot : Slot} {r : RequestRecord} :
    ({ s with slots := Function.update s.slots i slot } : Scheduler).Retains j r ↔
      (i = j ∧ slot.request = some r) ∨ (i ≠ j ∧ s.Retains j r) := by
  rw [Retains, Retains]
  by_cases hij : i = j
  · subst hij
    simp
  · simp [hij, Function.update_of_ne (Ne.symm hij)]

theorem Admitted.retains {admission : RequestAdmission} {nowNs : ℕ} {i j : Fin 32}
    {id : RequestId} {s' : Scheduler} {r : RequestRecord}
    (ha : s.Admitted admission nowNs i id s') :
    s'.Retains j r ↔ (i = j ∧ r = admission.record id) ∨ (i ≠ j ∧ s.Retains j r) := by
  obtain rfl := ha.eq
  exact retains_update.trans (by simp only [Option.some.injEq, eq_comm])

theorem Admitted.inv {admission : RequestAdmission} {nowNs : ℕ} {i : Fin 32} {id : RequestId}
    {s' : Scheduler} (h : s.SchedulerInv) (ha : s.Admitted admission nowNs i id s') :
    s'.SchedulerInv := by
  have hpending : s'.pending = none := ha.eq ▸ ha.idle.2
  have hslots :
      s'.slots = Function.update s.slots i ⟨id.generation, some (admission.record id)⟩ := by
    rw [ha.eq]
  have hlimit : s'.contextLimit = s.contextLimit := by rw [ha.eq]
  have htime : s'.lastTimeNs = nowNs := by rw [ha.eq]
  refine ⟨hlimit ▸ h.context_le, ?_, ?_, ?_, ?_, ?_, ?_, ?_⟩
  · rw [ha.eq]
    exact h.chunk_pos
  · rw [ha.eq]
    exact h.maxRows_le
  · intro j r hr
    rcases ha.retains.mp hr with ⟨rfl, rfl⟩ | ⟨hne, hr⟩
    · rw [hslots, Function.update_self]
      simp [RequestAdmission.record, ha.id_eq]
    · rw [hslots, Function.update_of_ne (Ne.symm hne)]
      exact h.id j r hr
  · intro j r hr
    rw [hlimit, htime]
    rcases ha.retains.mp hr with ⟨rfl, rfl⟩ | ⟨-, hr⟩
    · exact
        { cached_lt := ha.cached_lt
          max_pos := ha.max_pos
          fits := ha.fits
          waiting := fun _ => ha.cached_lt
          produced := fun hne => absurd rfl hne
          generated_le := Nat.zero_le _
          stamps_length := rfl
          stamps_sorted := .nil
          stamps_le := by simp [RequestAdmission.record] }
    · exact (h.record j r hr).mono ha.clock
  · intro pd hpd
    simp [hpending] at hpd
  · intro pd hpd
    simp [hpending] at hpd
  · intro pd hpd
    simp [hpending] at hpd

/-! ### Preparing, aborting and failing -/

theorem Scheduled.inv {tick nowNs tokenBudget : ℕ} {batch : ScheduledBatch} {s' : Scheduler}
    (h : s.SchedulerInv) (hb : s.Scheduled tick nowNs tokenBudget batch s') : s'.SchedulerInv := by
  obtain ⟨pd, hpd, rfl⟩ := hb.eq
  refine ⟨h.context_le, h.chunk_pos, h.maxRows_le, h.id,
    fun i r hr => (h.record i r hr).mono hb.clock, ?_, ?_, ?_⟩
  · intro pd' hpd'
    obtain rfl : pd = pd' := Option.some.inj hpd'
    rw [hpd]
    exact ⟨hb.batched.known, hb.batched.selected⟩
  · intro pd' hpd'
    obtain rfl : pd = pd' := Option.some.inj hpd'
    rw [hpd]
    exact hb.preparedNs
  · intro pd' hpd'
    obtain rfl : pd = pd' := Option.some.inj hpd'
    rw [hpd]
    exact hb.nonempty

/-- Moving the clocks of an idle scheduler forward. -/
theorem SchedulerInv.tick (h : s.SchedulerInv) (hidle : s.Idle) {tick nowNs : ℕ}
    (hclock : s.lastTimeNs ≤ nowNs) :
    SchedulerInv { s with lastTick := tick, lastTimeNs := nowNs } where
  context_le := h.context_le
  chunk_pos := h.chunk_pos
  maxRows_le := h.maxRows_le
  id := h.id
  record i r hr := (h.record i r hr).mono hclock
  batched pd hpd := by
    have : s.pending = some pd := hpd
    simp [hidle.2] at this
  preparedNs pd hpd := by
    have : s.pending = some pd := hpd
    simp [hidle.2] at this
  pending_ne pd hpd := by
    have : s.pending = some pd := hpd
    simp [hidle.2] at this

theorem abort_ensures {batchId : ℕ} :
    Ensures (s.abort batchId) (fun _ => ∀ pd, ¬ s.Outstanding batchId pd) fun s' =>
      (∃ pd, s.Outstanding batchId pd) ∧ s' = { s with pending := none } := by
  rw [abort]
  exact pendingBatch_ensures.bind fun pd _ ho => ensures_pure.mpr ⟨⟨pd, ho⟩, rfl⟩

theorem fail_ensures {batchId : ℕ} :
    Ensures (s.fail batchId) (fun _ => ∀ pd, ¬ s.Outstanding batchId pd) fun s' =>
      (∃ pd, s.Outstanding batchId pd) ∧ s' = { s with poisoned := true } := by
  rw [fail]
  exact pendingBatch_ensures.bind fun pd _ ho => ensures_pure.mpr ⟨⟨pd, ho⟩, rfl⟩

theorem SchedulerInv.abort (h : s.SchedulerInv) : SchedulerInv { s with pending := none } :=
  ⟨h.context_le, h.chunk_pos, h.maxRows_le, h.id, h.record, fun pd hpd => by simp at hpd,
    fun pd hpd => by simp at hpd, fun pd hpd => by simp at hpd⟩

theorem SchedulerInv.fail (h : s.SchedulerInv) : SchedulerInv { s with poisoned := true } :=
  ⟨h.context_le, h.chunk_pos, h.maxRows_le, h.id, h.record,
    fun pd hpd => ⟨(h.batched pd hpd).known, (h.batched pd hpd).selected⟩, h.preparedNs,
    h.pending_ne⟩

/-! ### Cancelling and retiring -/

/-- The request will not be scheduled again. -/
def Terminal (r : RequestRecord) : Prop := r.state = .completed ∨ r.state = .cancelled

instance (r : RequestRecord) : Decidable (Terminal r) := inferInstanceAs (Decidable (_ ∨ _))

theorem cancel_ensures {id : RequestId} {nowNs : ℕ} :
    Ensures (s.cancel id nowNs) (fun _ => True) fun s' =>
      ∃ i r, s.Idle ∧ s.lastTimeNs ≤ nowNs ∧ s.Retains i r ∧ r.id = id ∧ ¬ Terminal r ∧
        s' = { s.setRequest i (some { r with cancelledNs := some nowNs }) with
          lastTimeNs := nowNs } := by
  rw [cancel]
  refine (requireIdle_ensures.mono (fun _ _ => trivial) fun _ _ h => h).bind fun _ _ hidle => ?_
  refine (request_ensures.mono (fun _ _ => trivial) fun _ _ h => h).bind
    fun r _ ⟨hid, i, hi, hr⟩ => ?_
  refine (ensures_failIf (Q := fun _ => ¬ Terminal r) (fun _ => trivial) fun hok => hok).bind
    fun _ _ hterminal => ?_
  refine (ensures_failIf (Q := fun _ => s.lastTimeNs ≤ nowNs) (fun _ => trivial)
    fun hok => Nat.not_lt.mp (not_or.mp hok).2).bind fun _ _ hclock => ?_
  rw [← hi, slotIndex_val, orPanic, ok_bind, hr, orErr, ok_bind]
  exact ensures_pure.mpr ⟨i, r, hidle, hclock, hr, hid, hterminal, rfl⟩

/-- Retiring a terminal request of an idle scheduler succeeds. -/
theorem retire_ensures (h : s.SchedulerInv) {id : RequestId} :
    Ensures (s.retire id)
      (fun _ => ¬ (s.Idle ∧ ∃ i r, s.Retains i r ∧ r.id = id ∧ Terminal r)) fun out =>
      ∃ i, s.Idle ∧ s.Retains i out.1 ∧ out.1.id = id ∧ Terminal out.1 ∧
        out.2 = s.setRequest i none := by
  rw [retire]
  refine (requireIdle_ensures.mono (fun _ hni hi => hni hi.1) fun _ _ h => h).bind
    fun _ _ hidle => ?_
  refine (request_ensures.mono (fun _ hno hyes => ?absent) fun _ _ h => h).bind
    fun r _ ⟨hid, i, hi, hr⟩ => ?_
  case absent =>
    obtain ⟨-, i, r, hr, hid, -⟩ := hyes
    exact hno i r hr hid (by rw [← hid, h.id i r hr])
  refine (ensures_failIf (Q := fun _ => Terminal r) (fun hbad hyes => ?live)
    fun hok => not_not.mp hok).bind fun _ _ hterminal => ?_
  case live =>
    obtain ⟨-, j, q, hq, hqid, hterm⟩ := hyes
    obtain rfl := h.slot_inj hr hq (hid.trans hqid.symm)
    obtain rfl : r = q := Option.some.inj (hr.symm.trans hq)
    exact hbad hterm
  rw [← hi, slotIndex_val, orPanic, ok_bind, hr, orErr, ok_bind]
  exact ensures_pure.mpr ⟨i, hidle, hr, hid, hterminal, rfl⟩

theorem retains_setRequest {i j : Fin 32} {o : Option RequestRecord} {r : RequestRecord} :
    (s.setRequest i o).Retains j r ↔ (i = j ∧ o = some r) ∨ (i ≠ j ∧ s.Retains j r) :=
  retains_update

theorem generation_setRequest {i j : Fin 32} {o : Option RequestRecord} :
    ((s.setRequest i o).slots j).generation = (s.slots j).generation := by
  rw [setRequest]
  by_cases hij : i = j
  · subst hij
    simp
  · simp [Function.update_of_ne (Ne.symm hij)]

/-- Replacing or removing the record of a slot. -/
theorem SchedulerInv.setRequest (h : s.SchedulerInv) (hidle : s.Idle) {i : Fin 32}
    {o : Option RequestRecord} {nowNs : ℕ} (hclock : s.lastTimeNs ≤ nowNs)
    (ho : ∀ r, o = some r → r.id = ⟨i, (s.slots i).generation⟩ ∧
      RecordInv s.contextLimit s.lastTimeNs r) :
    SchedulerInv { s.setRequest i o with lastTimeNs := nowNs } where
  context_le := h.context_le
  chunk_pos := h.chunk_pos
  maxRows_le := h.maxRows_le
  id j r hr := by
    change r.id = ⟨j, ((s.setRequest i o).slots j).generation⟩
    rw [generation_setRequest]
    rcases retains_setRequest.mp hr with ⟨rfl, rfl⟩ | ⟨-, hr⟩
    · exact (ho r rfl).1
    · exact h.id j r hr
  record j r hr := by
    rcases retains_setRequest.mp hr with ⟨rfl, rfl⟩ | ⟨-, hr⟩
    · exact (ho r rfl).2.mono hclock
    · exact (h.record j r hr).mono hclock
  batched pd hpd := by
    have : s.pending = some pd := hpd
    simp [hidle.2] at this
  preparedNs pd hpd := by
    have : s.pending = some pd := hpd
    simp [hidle.2] at this
  pending_ne pd hpd := by
    have : s.pending = some pd := hpd
    simp [hidle.2] at this

/-- Marking a request cancelled leaves its progress. -/
theorem RecordInv.cancelled {contextLimit lastTimeNs nowNs : ℕ} {r : RequestRecord}
    (h : RecordInv contextLimit lastTimeNs r) :
    RecordInv contextLimit lastTimeNs { r with cancelledNs := some nowNs } :=
  ⟨h.cached_lt, h.max_pos, h.fits, h.waiting, h.produced, h.generated_le, h.stamps_length,
    h.stamps_sorted, h.stamps_le⟩

end Scheduler

/-! ### Runs -/

open Scheduler

/-- A call with its arguments. -/
inductive Call where
  | admitRequest (admission : RequestAdmission) (nowNs : ℕ)
  | prepare (tick nowNs tokenBudget : ℕ)
  | complete (batchId : ℕ) (choices : List RowChoice) (completedNs : ℕ)
  | abort (batchId : ℕ)
  | fail (batchId : ℕ)
  | cancel (id : RequestId) (nowNs : ℕ)
  | retire (id : RequestId)

/-- A scheduler, the rows it has completed, in order, and the records it has given up. -/
structure Run where
  scheduler : Scheduler
  history : List BatchRow
  retired : List RequestRecord

/-- One call. -/
def Run.call (w : Run) : Call → Outcome SchedulerError Run
  | .admitRequest admission nowNs => do
    let (_, s) ← w.scheduler.admitRequest admission nowNs
    return { w with scheduler := s }
  | .prepare tick nowNs tokenBudget => do
    let (_, s) ← w.scheduler.prepare tick nowNs tokenBudget
    return { w with scheduler := s }
  | .complete batchId choices completedNs => do
    let (_, s) ← w.scheduler.complete batchId choices completedNs
    let rows := w.scheduler.pending.elim [] (·.batch.rows)
    return { w with scheduler := s, history := w.history ++ rows }
  | .abort batchId => do return { w with scheduler := ← w.scheduler.abort batchId }
  | .fail batchId => do return { w with scheduler := ← w.scheduler.fail batchId }
  | .cancel id nowNs => do return { w with scheduler := ← w.scheduler.cancel id nowNs }
  | .retire id => do
    let (r, s) ← w.scheduler.retire id
    return { w with scheduler := s, retired := r :: w.retired }

/-- Schedulers under any calls with any arguments. A call that fails changes nothing. -/
def runSystem : System Run Call where
  init w := w.history = [] ∧ w.retired = [] ∧
    ∃ vocabulary contextLimit maxRows prefillChunk,
      new vocabulary contextLimit maxRows prefillChunk = .ok w.scheduler ∨
        newWide32 vocabulary contextLimit maxRows prefillChunk = .ok w.scheduler
  step w c w' := w.call c = .ok w' ∨ (∃ e, w.call c = .error e) ∧ w' = w

/-- The completed rows of a request continue from its cached prefix, and account for its
progress. -/
structure Streamed (history : List BatchRow) (r : RequestRecord) : Prop where
  positions : (rowsOf r.id history).map (·.absolutePosition) =
    List.range' r.cachedPrefixTokens (rowsOf r.id history).length
  rowAt : ∀ row ∈ rowsOf r.id history, RowAt r row
  committed : r.committedPosition = r.cachedPrefixTokens + (rowsOf r.id history).length

variable {history run : List BatchRow} {r : RequestRecord}

/-- A row of a record is a row of any record that continues it. -/
theorem RowAt.extend {row : BatchRow} {l : List Token} {q : RequestRecord} (h : RowAt r row)
    (hid : q.id = r.id) (hprompt : q.promptTokens = r.promptTokens)
    (hgen : q.generatedTokens = r.generatedTokens ++ l) : RowAt q row where
  request := h.request.trans hid.symm
  token := by
    rw [hprompt, hgen, ← List.append_assoc,
      List.getElem?_append_left (List.getElem?_eq_some_iff.mp h.token).1]
    exact h.token
  kind := by rw [hprompt, h.kind]

/-- A completed batch continues the stream of every retained request. -/
theorem Streamed.advance {rows : List BatchRow} {events : List OutputEvent}
    (h : Streamed history r) (hs : Selected r (rowsOf r.id rows)) :
    Streamed (history ++ rows) (advanceRecord r (rowsOf r.id rows).length events) where
  positions := by
    change (rowsOf r.id _).map _ = List.range' r.cachedPrefixTokens (rowsOf r.id _).length
    rw [rowsOf_append, List.map_append, h.positions, hs.positions, h.committed,
      List.length_append, List.range'_append_1]
  rowAt row hrow := by
    refine RowAt.extend (r := r) ?_ rfl rfl rfl
    rcases List.mem_append.mp (rowsOf_append ▸ hrow) with hrow | hrow
    · exact h.rowAt row hrow
    · exact hs.rowAt row hrow
  committed := by
    change r.committedPosition + _ = r.cachedPrefixTokens + (rowsOf r.id _).length
    rw [rowsOf_append, List.length_append, h.committed]
    omega

theorem Streamed.congr {history' : List BatchRow} {q : RequestRecord} (h : Streamed history r)
    (hrows : rowsOf r.id history' = rowsOf r.id history) (hid : q.id = r.id)
    (hprompt : q.promptTokens = r.promptTokens) (hgen : q.generatedTokens = r.generatedTokens)
    (hcached : q.cachedPrefixTokens = r.cachedPrefixTokens)
    (hcommitted : q.committedPosition = r.committedPosition) : Streamed history' q where
  positions := by rw [hid, hrows, hcached, h.positions]
  rowAt row hrow := by
    rw [hid, hrows] at hrow
    exact (h.rowAt row hrow).extend (l := []) hid hprompt (by simp [hgen])
  committed := by rw [hid, hrows, hcached, hcommitted, h.committed]

/-- The invariant of a run. -/
structure RunInv (w : Run) : Prop where
  scheduler : w.scheduler.SchedulerInv
  streamed : ∀ i r, w.scheduler.Retains i r → Streamed w.history r
  /-- Completed rows name generations that their slots have reached. -/
  known : ∀ row ∈ w.history, ∃ i : Fin 32, row.request.slot = i ∧
    row.request.generation ≤ (w.scheduler.slots i).generation
  retired_record : ∀ r ∈ w.retired, ∃ t, RecordInv w.scheduler.contextLimit t r
  retired_streamed : ∀ r ∈ w.retired, Streamed w.history r
  retired_known : ∀ r ∈ w.retired, ∃ i : Fin 32, r.id.slot = i ∧
    r.id.generation ≤ (w.scheduler.slots i).generation
  retired_ne : ∀ r ∈ w.retired, ∀ i q, w.scheduler.Retains i q → q.id ≠ r.id

variable {w : Run}

/-- Calls that leave every slot alone. -/
theorem RunInv.sameSlots {s : Scheduler} (h : RunInv w) (hs : s.SchedulerInv)
    (hslots : s.slots = w.scheduler.slots) (hlimit : s.contextLimit = w.scheduler.contextLimit) :
    RunInv { w with scheduler := s } where
  scheduler := hs
  streamed i r hr := h.streamed i r (by rwa [Retains, ← hslots])
  known row hrow := by
    rw [hslots]
    exact h.known row hrow
  retired_record r hr := by
    rw [hlimit]
    exact h.retired_record r hr
  retired_streamed := h.retired_streamed
  retired_known r hr := by
    rw [hslots]
    exact h.retired_known r hr
  retired_ne r hr i q hq := h.retired_ne r hr i q (by rwa [Retains, ← hslots])

/-- A new request starts a stream of its own. -/
theorem RunInv.admit {admission : RequestAdmission} {nowNs : ℕ} {i : Fin 32} {id : RequestId}
    {s : Scheduler} (h : RunInv w) (ha : w.scheduler.Admitted admission nowNs i id s) :
    RunInv { w with scheduler := s } := by
  have hgen : ∀ j, (w.scheduler.slots j).generation ≤ (s.slots j).generation := by
    intro j
    rw [ha.eq]
    by_cases hij : i = j
    · subst hij
      simp [ha.id_eq]
    · simp [Function.update_of_ne (Ne.symm hij)]
  have hfresh : rowsOf id w.history = [] := by
    refine rowsOf_eq_nil fun row hrow hid => ?_
    obtain ⟨j, hslot, hle⟩ := h.known row hrow
    rw [hid, ha.id_eq] at hslot hle
    obtain rfl : i = j := Fin.ext hslot
    simp only at hle
    omega
  refine ⟨ha.inv h.scheduler, ?_, ?_, ?_, h.retired_streamed, ?_, ?_⟩
  · intro j r hr
    rcases ha.retains.mp hr with ⟨rfl, rfl⟩ | ⟨-, hr⟩
    · have hrows : rowsOf (admission.record id).id w.history = [] := hfresh
      exact ⟨by rw [hrows]; rfl, by simp [hrows], by rw [hrows]; rfl⟩
    · exact h.streamed j r hr
  · intro row hrow
    obtain ⟨j, hslot, hle⟩ := h.known row hrow
    exact ⟨j, hslot, hle.trans (hgen j)⟩
  · intro r hr
    rw [ha.eq]
    exact h.retired_record r hr
  · intro r hr
    obtain ⟨j, hslot, hle⟩ := h.retired_known r hr
    exact ⟨j, hslot, hle.trans (hgen j)⟩
  · intro r hr j q hq
    rcases ha.retains.mp hq with ⟨rfl, rfl⟩ | ⟨-, hq⟩
    · intro hid
      have hid : id = r.id := hid
      obtain ⟨k, hslot, hle⟩ := h.retired_known r hr
      rw [← hid, ha.id_eq] at hslot hle
      obtain rfl : i = k := Fin.ext hslot
      simp only at hle
      omega
    · exact h.retired_ne r hr j q hq

/-- A completed batch. -/
theorem RunInv.complete {batchId completedNs : ℕ} {pd : Pending} {advances : Fin 32 → ℕ}
    {choices : List RowChoice} {events : List OutputEvent} (h : RunInv w)
    (ho : w.scheduler.Outstanding batchId pd) (hclock : pd.batch.preparedNs ≤ completedNs)
    (hc : w.scheduler.Completion pd.batch.rows choices completedNs advances events) :
    RunInv { w with
      scheduler := w.scheduler.completed pd advances events completedNs
      history := w.history ++ pd.batch.rows } := by
  have hb := h.scheduler.batched pd ho.pending
  refine ⟨h.scheduler.complete ho hclock hc, ?_, ?_, h.retired_record, ?_, h.retired_known, ?_⟩
  · intro i r hr
    obtain ⟨q, hq, rfl⟩ := retains_completed.mp hr
    rw [hc.advances i q hq]
    exact (h.streamed i q hq).advance (hb.selected i q hq)
  · intro row hrow
    rcases List.mem_append.mp hrow with hrow | hrow
    · exact h.known row hrow
    · obtain ⟨i, r, hr, hid⟩ := hb.known row hrow
      rw [hid, h.scheduler.id i r hr]
      exact ⟨i, rfl, le_refl _⟩
  · intro r hr
    have hnone : rowsOf r.id pd.batch.rows = [] := by
      refine rowsOf_eq_nil fun row hrow hid => ?_
      obtain ⟨i, q, hq, hqid⟩ := hb.known row hrow
      exact h.retired_ne r hr i q hq (hqid.symm.trans hid)
    refine (h.retired_streamed r hr).congr ?_ rfl rfl rfl rfl rfl
    rw [rowsOf_append, hnone, List.append_nil]
  · intro r hr i q hq
    obtain ⟨q₀, hq₀, rfl⟩ := retains_completed.mp hq
    exact h.retired_ne r hr i q₀ hq₀

/-- A cancelled request keeps its stream. -/
theorem RunInv.cancel {i : Fin 32} {nowNs : ℕ} (h : RunInv w) (hidle : w.scheduler.Idle)
    (hclock : w.scheduler.lastTimeNs ≤ nowNs) (hr : w.scheduler.Retains i r) :
    RunInv { w with scheduler :=
      { w.scheduler.setRequest i (some { r with cancelledNs := some nowNs }) with
        lastTimeNs := nowNs } } := by
  refine ⟨h.scheduler.setRequest hidle hclock ?_, ?_, ?_, h.retired_record, h.retired_streamed,
    ?_, ?_⟩
  · intro q hq
    obtain rfl := Option.some.inj hq
    exact ⟨h.scheduler.id i r hr, RecordInv.cancelled (h.scheduler.record i r hr)⟩
  · intro j q hq
    rcases retains_setRequest.mp hq with ⟨rfl, he⟩ | ⟨-, hq⟩
    · obtain rfl := Option.some.inj he
      exact (h.streamed i r hr).congr rfl rfl rfl rfl rfl rfl
    · exact h.streamed j q hq
  · intro row hrow
    obtain ⟨j, hslot, hle⟩ := h.known row hrow
    exact ⟨j, hslot, hle.trans generation_setRequest.ge⟩
  · intro q hq
    obtain ⟨j, hslot, hle⟩ := h.retired_known q hq
    exact ⟨j, hslot, hle.trans generation_setRequest.ge⟩
  · intro q hq j q' hq'
    rcases retains_setRequest.mp hq' with ⟨rfl, he⟩ | ⟨-, hq'⟩
    · obtain rfl := Option.some.inj he
      exact h.retired_ne q hq i r hr
    · exact h.retired_ne q hq j q' hq'

/-- A retired request leaves its slot. -/
theorem RunInv.retire {i : Fin 32} (h : RunInv w) (hidle : w.scheduler.Idle)
    (hr : w.scheduler.Retains i r) :
    RunInv { w with scheduler := w.scheduler.setRequest i none, retired := r :: w.retired } := by
  refine ⟨h.scheduler.setRequest hidle (le_refl _) (by simp), ?_, ?_, ?_, ?_, ?_, ?_⟩
  · intro j q hq
    rcases retains_setRequest.mp hq with ⟨-, hq⟩ | ⟨-, hq⟩
    · simp at hq
    · exact h.streamed j q hq
  · intro row hrow
    obtain ⟨j, hslot, hle⟩ := h.known row hrow
    exact ⟨j, hslot, hle.trans generation_setRequest.ge⟩
  · rintro q (_ | ⟨_, hq⟩)
    · exact ⟨_, h.scheduler.record i r hr⟩
    · exact h.retired_record q hq
  · rintro q (_ | ⟨_, hq⟩)
    · exact h.streamed i r hr
    · exact h.retired_streamed q hq
  · rintro q (_ | ⟨_, hq⟩)
    · rw [h.scheduler.id i r hr]
      exact ⟨i, rfl, generation_setRequest.ge⟩
    · obtain ⟨j, hslot, hle⟩ := h.retired_known q hq
      exact ⟨j, hslot, hle.trans generation_setRequest.ge⟩
  · rintro q (_ | ⟨_, hq⟩) j q' hq'
    · rcases retains_setRequest.mp hq' with ⟨-, hq'⟩ | ⟨hne, hq'⟩
      · simp at hq'
      · exact fun hid => hne (h.scheduler.slot_inj hr hq' hid.symm)
    · rcases retains_setRequest.mp hq' with ⟨-, hq'⟩ | ⟨-, hq'⟩
      · simp at hq'
      · exact h.retired_ne q hq j q' hq'

/-- **One call.** -/
theorem RunInv.call {w' : Run} {c : Call} (h : RunInv w) (hc : w.call c = .ok w') : RunInv w' := by
  cases c with
  | admitRequest admission nowNs =>
    obtain ⟨⟨id, s⟩, hs, he⟩ := bind_eq_ok.mp hc
    obtain ⟨i, ha⟩ := admitRequest_ensures.of_ok hs
    obtain rfl := Except.ok.inj he
    exact h.admit ha
  | prepare tick nowNs tokenBudget =>
    obtain ⟨⟨batch, s⟩, hs, he⟩ := bind_eq_ok.mp hc
    obtain ⟨hnone, hsome⟩ := (prepare_ensures h.scheduler).of_ok hs
    obtain rfl := Except.ok.inj he
    cases batch with
    | none =>
      obtain ⟨hidle, hclock, rfl⟩ := hnone rfl
      exact h.sameSlots (h.scheduler.tick hidle hclock) rfl rfl
    | some batch =>
      have hb : w.scheduler.Scheduled tick nowNs tokenBudget batch s := hsome batch rfl
      obtain ⟨pd, -, heq⟩ := hb.eq
      exact h.sameSlots (hb.inv h.scheduler) (by rw [heq]) (by rw [heq])
  | complete batchId choices completedNs =>
    obtain ⟨⟨events, s⟩, hs, he⟩ := bind_eq_ok.mp hc
    obtain ⟨pd, advances, ho, hclock, hcompletion, heq⟩ := (complete_ensures h.scheduler).of_ok hs
    obtain rfl := Except.ok.inj he
    simp only [ho.pending, Option.elim_some] at heq ⊢
    rw [heq]
    exact h.complete ho hclock hcompletion
  | abort batchId =>
    obtain ⟨s, hs, he⟩ := bind_eq_ok.mp hc
    obtain ⟨-, rfl⟩ := abort_ensures.of_ok hs
    obtain rfl := Except.ok.inj he
    exact h.sameSlots h.scheduler.abort rfl rfl
  | fail batchId =>
    obtain ⟨s, hs, he⟩ := bind_eq_ok.mp hc
    obtain ⟨-, rfl⟩ := fail_ensures.of_ok hs
    obtain rfl := Except.ok.inj he
    exact h.sameSlots h.scheduler.fail rfl rfl
  | cancel id nowNs =>
    obtain ⟨s, hs, he⟩ := bind_eq_ok.mp hc
    obtain ⟨i, r, hidle, hclock, hr, -, -, rfl⟩ := cancel_ensures.of_ok hs
    obtain rfl := Except.ok.inj he
    exact h.cancel hidle hclock hr
  | retire id =>
    obtain ⟨⟨r, s⟩, hs, he⟩ := bind_eq_ok.mp hc
    obtain ⟨i, hidle, hr, -, -, heq⟩ := (retire_ensures h.scheduler).of_ok hs
    obtain rfl := Except.ok.inj he
    simp only at hr heq
    rw [heq]
    exact h.retire hidle hr

theorem newBounded_inv {s : Scheduler}
    {vocabulary contextLimit maxRows prefillChunk rowCapacity : ℕ}
    (hcap : rowCapacity ≤ 32)
    (h : newBounded vocabulary contextLimit maxRows prefillChunk rowCapacity = .ok s) :
    s.SchedulerInv ∧ ∀ i, s.slots i = ⟨0, none⟩ := by
  obtain ⟨_, hok, he⟩ := bind_eq_ok.mp h
  rw [failIf_eq_ok] at hok
  obtain rfl := Except.ok.inj he
  refine ⟨⟨?_, ?_, ?_, ?_, ?_, ?_, ?_, ?_⟩, fun _ => rfl⟩
  · simp only
    omega
  · simp only
    omega
  · simp only
    omega
  · intro i r hr
    simp [Retains] at hr
  · intro i r hr
    simp [Retains] at hr
  · intro pd hpd
    simp at hpd
  · intro pd hpd
    simp at hpd
  · intro pd hpd
    simp at hpd

theorem runInv_of_reachable (h : runSystem.Reachable w) : RunInv w := by
  refine System.Reachable.induction (S := runSystem) (I := RunInv) ?_ ?_ h
  · rintro w ⟨hhistory, hretired, v, c, m, p, hnew⟩
    have hinv : w.scheduler.SchedulerInv ∧ ∀ i, w.scheduler.slots i = ⟨0, none⟩ := by
      rcases hnew with hnew | hnew
      · exact newBounded_inv (by omega) hnew
      · exact newBounded_inv (by omega) hnew
    have hnone : ∀ i r, ¬ w.scheduler.Retains i r := by
      intro i r hr
      simp [Retains, hinv.2 i] at hr
    exact ⟨hinv.1, fun i r hr => absurd hr (hnone i r), by simp [hhistory], by simp [hretired],
      by simp [hretired], by simp [hretired], by simp [hretired]⟩
  · rintro w c w' - hw (hc | ⟨-, rfl⟩)
    · exact hw.call hc
    · exact hw

/-! ### Exact streams -/

/-- The completed rows of a request, in completion order. -/
structure StreamExact (contextLimit : ℕ) (history : List BatchRow) (r : RequestRecord) :
    Prop where
  /-- Positions have no gap and no repetition. -/
  positions : (rowsOf r.id history).map (·.absolutePosition) =
    List.range' r.cachedPrefixTokens (rowsOf r.id history).length
  token : ∀ row ∈ rowsOf r.id history,
    (r.promptTokens ++ r.generatedTokens)[row.absolutePosition]? = some row.tokenId
  prefillFinal_iff : ∀ row ∈ rowsOf r.id history,
    row.kind = .prefillFinal ↔ row.absolutePosition = r.promptTokens.length - 1
  decode_iff : ∀ row ∈ rowsOf r.id history,
    row.kind = .decode ↔ r.promptTokens.length ≤ row.absolutePosition
  committed : r.committedPosition = r.cachedPrefixTokens + (rowsOf r.id history).length
  stamps_length : r.generatedTokens.length = r.outputTimestampsNs.length
  produced : r.generatedTokens ≠ [] →
    r.committedPosition = r.promptTokens.length + r.generatedTokens.length - 1
  committed_le : r.committedPosition ≤ contextLimit
  generated_le : r.generatedTokens.length ≤ r.maxNewTokens
  stamps_sorted : r.outputTimestampsNs.Pairwise (· ≤ ·)

theorem Streamed.exact {contextLimit lastTimeNs : ℕ} (h : Streamed history r)
    (hinv : RecordInv contextLimit lastTimeNs r) : StreamExact contextLimit history r where
  positions := h.positions
  token row hrow := (h.rowAt row hrow).token
  prefillFinal_iff row hrow := by
    rw [(h.rowAt row hrow).kind, kindAt_eq_final]
    have := hinv.cached_lt
    omega
  decode_iff row hrow := by rw [(h.rowAt row hrow).kind, kindAt_eq_decode]
  committed := h.committed
  stamps_length := hinv.stamps_length.symm
  produced hne := by
    have := hinv.produced hne
    omega
  committed_le := by
    have hfits := hinv.fits
    have hgen := hinv.generated_le
    have hmax := hinv.max_pos
    by_cases hnil : r.generatedTokens = []
    · have := hinv.waiting hnil
      omega
    · have := hinv.produced hnil
      omega
  generated_le := hinv.generated_le
  stamps_sorted := hinv.stamps_sorted

/-- **Stream exactness.** In every run, for every request that is retained or was retired, the rows
of the completed batches stand at its consecutive positions and carry its own tokens. -/
theorem stream_exact_of_reachable {w : Run} {r : RequestRecord} (h : runSystem.Reachable w)
    (hr : (∃ i, w.scheduler.Retains i r) ∨ r ∈ w.retired) :
    StreamExact w.scheduler.contextLimit w.history r := by
  have hw := runInv_of_reachable h
  rcases hr with ⟨i, hr⟩ | hr
  · exact (hw.streamed i r hr).exact (hw.scheduler.record i r hr)
  · obtain ⟨t, hinv⟩ := hw.retired_record r hr
    exact (hw.retired_streamed r hr).exact hinv

/-- A run of calls, up to the first that fails. -/
def Run.calls (w : Run) (cs : List Call) : Outcome SchedulerError Run := cs.foldlM Run.call w

theorem reachable_of_calls {w' : Run} {cs : List Call} (h : runSystem.Reachable w)
    (hr : w.calls cs = .ok w') : runSystem.Reachable w' := by
  induction cs generalizing w with
  | nil => exact Except.ok.inj hr ▸ h
  | cons c cs ih =>
    rw [Run.calls, List.foldlM_cons] at hr
    obtain ⟨w₁, hc, hr⟩ := bind_eq_ok.mp hr
    exact ih (.step (a := c) h (.inl hc)) hr

/-- A request of three prompt tokens and two outputs, on an empty scheduler. -/
def shortRun : Outcome SchedulerError Run := do
  let s ← new 100 64 4 2
  let w : Run := ⟨s, [], []⟩
  w.calls [.admitRequest ⟨[5, 6, 7], 2, 0, 0, 0⟩ 1, .prepare 1 2 4, .complete 1 [] 3,
    .prepare 1 4 4, .complete 2 [⟨0, 9⟩] 5]

theorem reachable_shortRun (h : shortRun = .ok w) : runSystem.Reachable w := by
  obtain ⟨s, hs, h⟩ := bind_eq_ok.mp h
  exact reachable_of_calls (.init ⟨rfl, rfl, 100, 64, 4, 2, .inl hs⟩) h

/-- In that run the prompt was computed in two batches, and the first output is there. -/
theorem stream_exact_of_reachable_shortRun :
    ∃ w r, runSystem.Reachable w ∧ w.scheduler.Retains 0 r ∧ r.generatedTokens = [9] ∧
      StreamExact w.scheduler.contextLimit w.history r := by
  have hgen : shortRun.map (fun w => (w.scheduler.slots 0).request.map (·.generatedTokens)) =
      .ok (some [9]) := by decide
  cases hr : shortRun with
  | error e => simp [hr, Except.map] at hgen
  | ok w =>
    simp only [hr, Except.map, Except.ok.injEq, Option.map_eq_some_iff] at hgen
    obtain ⟨r, hret, hgen⟩ := hgen
    have h := reachable_shortRun hr
    exact ⟨w, r, h, hret, hgen, stream_exact_of_reachable h (.inl ⟨0, hret⟩)⟩

end TpScheduler

end Ferric
