import Ferric.EngineCore.Dispatch

/-!
# How long a ready request is passed over

Only a dispatch moves the cursor. Each dispatch that passes over a ready request brings it nearer,
and it is never as far away as there are slots. So among as many dispatches as there are slots, one
selects it, whatever else is called between them.

## Main results

* `cursor_exec` — the other calls leave the cursor where it is
* `length_picks_le` — how many dispatches can pass over a request that waits
* `dispatch_fair` — selection, the end of the ready slots, and the bound
-/

namespace Ferric

namespace EngineCore

open Spec Cache Ferric.Action

variable {C : ℕ}

/-! ### The cursor -/

namespace Scheduler

variable {s s' : Scheduler C}

theorem cursor_admitRequest {r : RequestId} (h : s.admitRequest = .ok (r, s')) :
    s'.cursor = s.cursor := by
  simp only [admitRequest, bind_eq_ok] at h
  obtain ⟨_, -, _, -, h⟩ := h
  cases h
  rfl

theorem cursor_retire {request : RequestId} (h : s.retire request = .ok s') :
    s'.cursor = s.cursor := by
  simp only [retire, bind_eq_ok] at h
  obtain ⟨_, -, slot, -, _, -, h⟩ := h
  cases hstate : slot.state <;> rw [hstate] at h <;> cases h <;> rfl

theorem cursor_takeRetiringPermit {r : Option KvQuiescencePermit}
    (h : s.takeRetiringPermit = .ok (r, s')) : s'.cursor = s.cursor := by
  rw [takeRetiringPermit] at h
  by_cases hlen : s.reclaim.len = 0
  · rw [if_pos hlen] at h
    cases h
    rfl
  · rw [if_neg hlen] at h
    simp only [bind_eq_ok] at h
    obtain ⟨_, -, _, -, _, -, _, -, _, -, h⟩ := h
    cases h
    rfl

theorem cursor_reclaimDetached {detached : KvDetachedRequest} {r : RequestId}
    (h : s.reclaimDetached detached = .ok (r, s')) : s'.cursor = s.cursor := by
  simp only [reclaimDetached, bind_eq_ok] at h
  obtain ⟨_, -, _, -, _, -, _, -, _, -, _, -, _, -, _, -, h⟩ := h
  cases h
  rfl

theorem cursor_reincarnateDetached {ε : Type} {detached : KvDetachedRequest} {r : RequestId}
    (h : (s.reincarnateDetached detached : Outcome ε _) = .ok (r, s')) :
    s'.cursor = s.cursor := by
  rw [reincarnateDetached] at h
  obtain ⟨slot, -, h⟩ := bind_eq_ok.mp h
  by_cases hmax : slot.generation = u32Max
  · simp only [if_pos hmax, ok_bind] at h
    cases h
    rfl
  · simp only [if_neg hmax, bind_eq_ok] at h
    obtain ⟨_, -, h⟩ := h
    cases h
    rfl

theorem cursor_acceptFinalized {finalized : KvFinalizedRequest}
    (h : s.acceptFinalized finalized = .ok s') : s'.cursor = s.cursor := by
  rw [acceptFinalized] at h
  cases horigin : finalized.origin with
  | neverSubmitted =>
    simp only [horigin] at h
    cases h
  | completedExact epoch =>
    simp only [horigin, bind_eq_ok] at h
    obtain ⟨_, -, _, -, _, -, _, -, _, -, _, -, _, -, _, -, h⟩ := h
    cases h
    rfl

theorem cursor_completeExact {observed permitsLen count : ℕ}
    {permits permits' : ℕ → Option KvQuiescencePermit}
    (h : s.completeExact observed permitsLen permits = .ok (count, permits', s')) :
    s'.cursor = s.cursor := by
  simp only [completeExact, bind_eq_ok] at h
  obtain ⟨_, -, _, -, _, -, _, -, _, -, _, -, h⟩ := h
  cases h
  rfl

theorem cursor_dispatchM1ExactReady {expectedEpoch : ℕ} {requests : List RequestId}
    {batch : DispatchBatch}
    (h : s.dispatchM1ExactReady expectedEpoch requests = .ok (batch, s')) :
    s'.cursor = s.cursor := by
  simp only [dispatchM1ExactReady, bind_eq_ok] at h
  obtain ⟨_, -, _, -, epoch, -, _, -, _, -, _, -, _, -, committed, hcommit, h⟩ := h
  cases h
  show committed.cursor = s.cursor
  clear * - hcommit
  induction requests generalizing s with
  | nil =>
    cases hcommit
    rfl
  | cons request requests ih =>
    rw [List.foldlM_cons] at hcommit
    obtain ⟨s₁, hs₁, hcommit⟩ := bind_eq_ok.mp hcommit
    refine (ih hcommit).trans ?_
    simp only [commitLane, bind_eq_ok] at hs₁
    obtain ⟨_, -, hs₁⟩ := hs₁
    cases hs₁
    rfl

end Scheduler

namespace Engine

/-- The cursor of the scheduler. -/
def cursor (e : Engine C) : ℕ := e.scheduler.cursor

theorem fixes_requireHealthy : Fixes cursor (requireHealthy : Action (Engine C) EngineError Unit) :=
  fixes_get.bind fun _ => fixes_failIf

theorem fixes_onScheduler {ε δ α : Type} {op : Scheduler C → Outcome ε (α × Scheduler C)}
    (h : ∀ s a s', op s = .ok (a, s') → s'.cursor = s.cursor) :
    Fixes cursor (onScheduler op : Action (Engine C) δ _) :=
  fixes_attempt fun e a t ht => h e.scheduler a t ht

theorem fixes_noReply {ε δ : Type} {op : Scheduler C → Outcome ε (Scheduler C)}
    (h : ∀ s s', op s = .ok s' → s'.cursor = s.cursor) :
    Fixes cursor (onScheduler (noReply op) : Action (Engine C) δ _) := by
  refine fixes_onScheduler fun s a s' ht => ?_
  rw [noReply] at ht
  obtain ⟨t, ht, hs'⟩ := bind_eq_ok.mp ht
  cases hs'
  exact h s s' ht

theorem fixes_onKv {ε δ α : Type} {op : Action KvPool ε α} :
    Fixes cursor (onKv op : Action (Engine C) δ _) := fixes_onPart fun _ _ => rfl

theorem fixes_faultWith {ε α : Type} {error : ε} :
    Fixes cursor (faultWith error : Action (Engine C) ε α) := by
  refine Fixes.bind (fixes_modify ?_) fun _ => fixes_fail
  intro e
  rfl

theorem fixes_orFault {δ ε α : Type} {f : δ → ε} {x : Except δ α} :
    Fixes cursor (orFault f x : Action (Engine C) ε α) := by
  cases x with
  | ok a => exact fixes_pure
  | error e => exact fixes_faultWith

theorem fixes_abandon {α : Type} {error : EngineError} :
    Fixes cursor (abandon error : Action (Engine C) CompletionFailure α) := by
  refine Fixes.bind (fixes_modify ?_) fun _ => Fixes.bind (fixes_modify ?_) fun _ => fixes_fail
  · intro e
    rfl
  · intro e
    rfl

theorem fixes_orAbandon {δ α : Type} {f : δ → EngineError} {x : Except δ α} :
    Fixes cursor (orAbandon f x : Action (Engine C) CompletionFailure α) := by
  cases x with
  | ok a => exact fixes_pure
  | error e => exact fixes_abandon

theorem fixes_expectPermit {x : Except SchedulerError (Option KvQuiescencePermit)} :
    Fixes cursor (expectPermit x : Action (Engine C) EngineError _) := by
  rcases x with e | (_ | permit)
  · exact fixes_fail
  · exact fixes_fail
  · exact fixes_pure

theorem fixes_recheckMembers {completion : ℕ} {accepted indices : List ℕ} :
    Fixes cursor (recheckMembers completion accepted indices : Action (Engine C) _ _) := by
  induction indices with
  | nil => exact fixes_pure
  | cons index rest ih =>
    refine Fixes.bind ?_ fun _ => ih
    refine fixes_get.bind fun e => ?_
    cases e.scheduler.pendingMember index with
    | none => exact fixes_faultWith
    | some request =>
      by_cases hstate : e.scheduler.state request = some .inFlight
      · simp only [if_pos hstate]
        cases e.tentativeTokens request with
        | ok tentative => exact fixes_query.bind fun _ => fixes_failIf
        | error _ => exact fixes_faultWith
      · simp only [if_neg hstate]
        exact fixes_pure

theorem fixes_settleMember {accepted : List ℕ} {index : ℕ} :
    Fixes cursor (settleMember accepted index : Action (Engine C) _ _) := by
  refine fixes_get.bind fun e => ?_
  cases e.permits index with
  | none => exact fixes_abandon
  | some permit =>
    refine Fixes.bind (fixes_modify ?_) fun _ => fixes_get.bind fun e => ?_
    · intro e
      rfl
    cases e.scheduler.state permit.request with
    | none => exact fixes_abandon
    | some state =>
      cases state with
      | inFlight =>
        exact fixes_query.bind fun _ => fixes_onKv.bind fun _ => fixes_orAbandon.bind fun _ =>
          (fixes_noReply fun _ _ => Scheduler.cursor_acceptFinalized).bind fun _ => fixes_orAbandon
      | retiring =>
        exact fixes_onKv.bind fun _ => fixes_orAbandon.bind fun _ =>
          (fixes_onScheduler fun _ _ _ => Scheduler.cursor_reclaimDetached).bind fun _ =>
            fixes_orFault.bind fun _ => fixes_pure
      | vacant => exact fixes_abandon
      | ready => exact fixes_abandon

theorem fixes_settleMembers {accepted indices : List ℕ} :
    Fixes cursor (settleMembers accepted indices : Action (Engine C) _ _) := by
  induction indices with
  | nil => exact fixes_pure
  | cons index rest ih => exact fixes_settleMember.bind fun _ => ih

theorem fixes_completeScheduler {completion : ℕ} :
    Fixes cursor (completeScheduler completion : Action (Engine C) _ _) := by
  intro e
  rw [completeScheduler, exec_bind, exec_get]
  simp only
  rcases h : e.scheduler.completeExact completion C e.permits with (_ | _ | _) | ⟨n, permits, s⟩
  · simp only [exec_fail]
  · rfl
  · rfl
  · exact Scheduler.cursor_completeExact h

theorem fixes_completeExact {completion : ℕ} {accepted : List ℕ} :
    Fixes cursor (completeExact completion accepted : Action (Engine C) _ _) :=
  fixes_query.bind fun _ => fixes_get.bind fun _ => fixes_failIf.bind fun _ =>
    fixes_failIf.bind fun _ => fixes_recheckMembers.bind fun _ =>
      fixes_completeScheduler.bind fun _ => fixes_settleMembers.bind fun _ => fixes_pure

end Engine

open Engine

variable {e e' : Engine C}

/-- **The other calls leave the cursor where it is.** -/
theorem cursor_exec {op : Op} (h : ∀ outputLen, op ≠ .dispatchReady outputLen) (e : Engine C) :
    (op.exec e).2.cursor = e.cursor := by
  cases op with
  | admission =>
    exact (fixes_requireHealthy.bind fun _ =>
      (fixes_onScheduler fun _ _ _ => Scheduler.cursor_admitRequest).bind fun _ =>
        fixes_orThrow.bind fun _ => fixes_onKv.bind fun _ => fixes_orFault.bind fun _ =>
          fixes_pure) e
  | append request n =>
    exact (fixes_requireHealthy.bind fun _ => fixes_get.bind fun _ => fixes_failIf.bind fun _ =>
      fixes_onKv.bind fun _ => fixes_orThrow) e
  | share source target n =>
    exact (fixes_requireHealthy.bind fun _ => fixes_get.bind fun _ => fixes_failIf.bind fun _ =>
      fixes_get.bind fun _ => fixes_failIf.bind fun _ => fixes_onKv.bind fun _ => fixes_orThrow) e
  | retire request =>
    exact (fixes_requireHealthy.bind fun _ =>
      (fixes_noReply fun _ _ => Scheduler.cursor_retire).bind fun _ => fixes_orThrow) e
  | reclaimOne =>
    refine (fixes_requireHealthy.bind fun _ =>
      (fixes_onScheduler fun _ _ _ => Scheduler.cursor_takeRetiringPermit).bind fun _ =>
        fixes_orThrow.bind fun permit => ?_) e
    cases permit with
    | none => exact fixes_pure
    | some permit =>
      exact Fixes.bind (fixes_onKv.bind fun _ => fixes_orFault.bind fun _ =>
        (fixes_onScheduler fun _ _ _ => Scheduler.cursor_reclaimDetached).bind fun _ =>
          fixes_orFault) fun _ => fixes_pure
  | reincarnate =>
    exact (fixes_requireHealthy.bind fun _ => fixes_query.bind fun _ =>
      (fixes_onScheduler fun _ _ _ => Scheduler.cursor_takeRetiringPermit).bind fun _ =>
        fixes_expectPermit.bind fun _ => fixes_onKv.bind fun _ => fixes_orFault.bind fun _ =>
          (fixes_onScheduler fun _ _ _ => Scheduler.cursor_reincarnateDetached).bind fun _ =>
            fixes_orThrow.bind fun _ => fixes_onKv.bind fun _ => fixes_orFault.bind fun _ =>
              fixes_pure) e
  | dispatchReady outputLen => exact absurd rfl (h outputLen)
  | dispatchExact expectedEpoch requests =>
    exact (fixes_get.bind fun _ => fixes_failIf.bind fun _ =>
      (fixes_onScheduler fun _ _ _ => Scheduler.cursor_dispatchM1ExactReady).bind fun _ =>
        fixes_orThrow) e
  | complete completion accepted => exact fixes_completeExact e

/-! ### Runs -/

/-- The members of the batch that was returned, if one was. -/
def returnedMembers : Outcome OpError Reply → List (List RequestId)
  | .ok (.batch (some batch)) => [batch.members]
  | _ => []

/-- The members that a call selected, if it is a dispatch that returned a batch. -/
def picked (e : Engine C) (op : Op) : List (List RequestId) :=
  match op with
  | .dispatchReady _ => returnedMembers (op.exec e).1
  | _ => []

/-- The members that the dispatches of a run selected, batch by batch. -/
def picks : Engine C → List Op → List (List RequestId)
  | _, [] => []
  | e, op :: ops => picked e op ++ picks (op.exec e).2 ops

/-- A dispatch of an engine is the dispatch of its scheduler. -/
theorem exec_dispatchReady (hf : e.faulted = false) (outputLen : ℕ) :
    (Engine.dispatchReady outputLen).exec e = match e.scheduler.dispatchReady outputLen with
      | .ok (r, s) => (.ok r, { e with scheduler := s })
      | .error (.err d) => (.error (.err (.scheduler d)), e)
      | .error .panic => (.error .panic, e)
      | .error .diverge => (.error .diverge, e) := by
  have hhealthy : (requireHealthy : Action (Engine C) EngineError Unit).exec e = (.ok (), e) := by
    rw [requireHealthy, exec_bind, exec_get]
    simp only [hf, Action.failIf]
    rfl
  rw [Engine.dispatchReady, exec_bind_of_ok hhealthy, exec_bind, onScheduler, exec_attempt]
  rcases e.scheduler.dispatchReady outputLen with (_ | _ | _) | _ <;> rfl

/-- A dispatch of an engine that returns. -/
theorem exec_dispatchReady_eq_ok {outputLen : ℕ} {r : Option DispatchBatch} :
    (Engine.dispatchReady outputLen).exec e = (.ok r, e') ↔ e.faulted = false ∧
      ∃ s, e.scheduler.dispatchReady outputLen = .ok (r, s) ∧ e' = { e with scheduler := s } := by
  rw [Engine.dispatchReady, requireHealthy, bind_assoc, get_bind_eq_ok, failIf_bind_eq_ok,
    Bool.not_eq_true, exec_bind_eq_ok]
  refine and_congr_right fun _ => ⟨?_, ?_⟩
  · rintro ⟨a, t, ha, hthrow⟩
    obtain ⟨rfl, rfl⟩ := exec_orThrow_eq_ok.mp hthrow
    exact exec_attempt_eq_ok ha
  · rintro ⟨s, hs, rfl⟩
    exact ⟨.ok r, _, exec_attempt_of_ok hs, exec_orThrow_eq_ok.mpr ⟨rfl, rfl⟩⟩

/-- What a call does to the cursor: it selects nothing and leaves it, or it is a dispatch. -/
theorem exec_cases (hc : e.cursor < C) (op : Op) :
    (picked e op = [] ∧ (op.exec e).2.cursor = e.cursor) ∨
      ∃ outputLen batch s, e.scheduler.dispatchReady outputLen = .ok (some batch, s) ∧
        picked e op = [batch.members] ∧ (op.exec e).2.cursor = s.cursor := by
  cases op with
  | dispatchReady outputLen =>
    have hx : (Op.dispatchReady outputLen).exec e =
        label .engine .batch ((Engine.dispatchReady outputLen).exec e) := rfl
    by_cases hf : e.faulted = false
    · rw [exec_dispatchReady hf] at hx
      show (returnedMembers _ = [] ∧ _) ∨ ∃ n batch s, _ ∧ returnedMembers _ = _ ∧ _
      rw [hx]
      rcases hs : e.scheduler.dispatchReady outputLen with (_ | _ | _) | ⟨_ | batch, s⟩
      · exact .inl ⟨rfl, rfl⟩
      · exact .inl ⟨rfl, rfl⟩
      · exact .inl ⟨rfl, rfl⟩
      · refine .inl ⟨rfl, ?_⟩
        rcases Scheduler.dispatchReady_eq_ok hc hs with ⟨-, rfl, -⟩ | ⟨-, -, _, -, -, -, hbatch, -⟩
        · rfl
        · cases hbatch
      · exact .inr ⟨outputLen, batch, s, hs, rfl, rfl⟩
    · obtain ⟨error, hx⟩ := Op.exec_faulted (Bool.not_eq_false _ ▸ hf) (.dispatchReady outputLen)
      show (returnedMembers _ = [] ∧ _) ∨ _
      rw [hx]
      exact .inl ⟨rfl, rfl⟩
  | _ => exact .inl ⟨rfl, cursor_exec (fun _ => by simp) e⟩

theorem cursor_lt_exec (hc : e.cursor < C) (op : Op) : (op.exec e).2.cursor < C := by
  rcases exec_cases hc op with ⟨-, heq⟩ | ⟨outputLen, batch, s, hs, -, heq⟩
  · rwa [heq]
  · rw [heq]
    exact Scheduler.cursor_lt_of_dispatch hc hs

/-- The cursor of a reachable engine is in the array. -/
theorem cursor_lt_of_reachable (h : (engines C).Reachable e) : e.cursor < C := by
  refine System.Reachable.induction (I := fun e => e.cursor < C) ?_ ?_ h
  · rintro e ⟨a, b, c, hnew⟩
    exact (new_ok hnew).scheduler.cursor_lt
  · rintro e op e' - hc rfl
    exact cursor_lt_exec hc op

theorem ready_of_state {request : RequestId} (h : e.state request = some .ready) :
    request.slot < C ∧ (e.scheduler.slots request.slot).state = .ready ∧
      (e.scheduler.slots request.slot).generation = request.generation := by
  rw [Engine.state, Scheduler.state] at h
  by_cases hslot : request.slot ≥ C
  · rw [if_pos hslot] at h
    cases h
  rw [if_neg hslot] at h
  by_cases hgen : (e.scheduler.slots request.slot).generation = request.generation
  · rw [if_pos hgen] at h
    refine ⟨not_le.mp hslot, ?_, hgen⟩
    cases hstate : (e.scheduler.slots request.slot).state <;> rw [hstate] at h <;> simp_all
  · rw [if_neg hgen] at h
    cases h

/-- A ready request that is not selected is not selected by its slot. -/
theorem slot_not_mem {request : RequestId} (hc : e.cursor < C)
    (hready : e.state request = some .ready) {outputLen : ℕ} {batch : DispatchBatch}
    {s : Scheduler C} (hs : e.scheduler.dispatchReady outputLen = .ok (some batch, s))
    (hskipped : request ∉ batch.members) : request.slot ∉ batch.members.map RequestId.slot := by
  intro hmem
  obtain ⟨x, hx, hslot⟩ := List.mem_map.mp hmem
  obtain ⟨-, -, hgen⟩ := ready_of_state hready
  rcases Scheduler.dispatchReady_eq_ok hc hs with ⟨hnone, -⟩ | ⟨-, -, _, -, -, -, hbatch, -⟩
  · cases hnone
  · have hx' := hx
    rw [Option.some.inj hbatch] at hx'
    obtain ⟨i, -, rfl⟩ := List.mem_map.mp hx'
    refine hskipped ?_
    have heq : request = e.scheduler.handle i := by
      obtain ⟨slot, generation⟩ := request
      obtain rfl : i = slot := hslot
      rw [Scheduler.handle, hgen]
    rwa [heq]

/-- The request is ready before each call, until it is selected. -/
def StaysReady (request : RequestId) (e : Engine C) (ops : List Op) : Prop :=
  ∀ k < ops.length, (∀ batch ∈ picks e (ops.take k), request ∉ batch) →
    (e.applyAll (ops.take k)).state request = some .ready

theorem StaysReady.tail {request : RequestId} {op : Op} {ops : List Op}
    (h : StaysReady request e (op :: ops)) (hpicked : ∀ batch ∈ picked e op, request ∉ batch) :
    StaysReady request (op.exec e).2 ops := by
  intro k hk hnone
  refine h (k + 1) (Nat.succ_lt_succ hk) fun batch hbatch => ?_
  rw [List.take_succ_cons, picks] at hbatch
  rcases List.mem_append.mp hbatch with hbatch | hbatch
  · exact hpicked batch hbatch
  · exact hnone batch hbatch

/-- **Run lemma.** A request that waits is passed over as often as it is far from the cursor, at
most. -/
theorem length_picks_le {request : RequestId} {ops : List Op} (hc : e.cursor < C)
    (hwaits : StaysReady request e ops) (hskipped : ∀ batch ∈ picks e ops, request ∉ batch) :
    (picks e ops).length ≤ distance C e.cursor request.slot := by
  induction ops generalizing e with
  | nil => exact Nat.zero_le _
  | cons op ops ih =>
    have hready : e.state request = some .ready := hwaits 0 (Nat.succ_pos _) (by simp [picks])
    obtain ⟨hslot, hstate, -⟩ := ready_of_state hready
    rw [picks, List.forall_mem_append] at hskipped
    have hrest := ih (cursor_lt_exec hc op) (hwaits.tail hskipped.1) hskipped.2
    rw [picks, List.length_append]
    rcases exec_cases hc op with ⟨hnone, heq⟩ | ⟨outputLen, batch, s, hs, hone, heq⟩
    · rw [heq] at hrest
      rw [hnone, List.length_nil, Nat.zero_add]
      exact hrest
    · have hnot : request ∉ batch.members :=
        hskipped.1 batch.members (by rw [hone]; exact List.mem_singleton_self _)
      have hlt : distance C s.cursor request.slot < distance C e.cursor request.slot :=
        Scheduler.distance_lt_of_dispatch hc hs hslot hstate (slot_not_mem hc hready hs hnot)
      rw [heq] at hrest
      rw [hone, List.length_singleton]
      omega

/-- **Dispatch is fair.** In every reachable engine: a dispatch that returns a batch has selected
the first ready slots in their cyclic order from the cursor, as many as fit; one that returns none
has changed nothing, and that is so exactly when no slot is ready or a ring is full; a ready slot
that is passed over is nearer to the cursor afterwards. And in every run of calls in which a request
is ready until it is selected, and in which `C` dispatches return a batch, one of them selects
it. -/
theorem dispatch_fair (he : (engines C).Reachable e) :
    (∀ outputLen batch e', (Engine.dispatchReady outputLen).exec e = (.ok (some batch), e') →
      batch.members = (e.scheduler.readySlots.take
        (min outputLen (C - e.scheduler.members.len))).map e.scheduler.handle ∧
      ∀ slot < C, (e.scheduler.slots slot).state = .ready →
        slot ∉ batch.members.map RequestId.slot →
        distance C e'.cursor slot < distance C e.cursor slot) ∧
    (∀ outputLen r e', outputLen ≠ 0 → (Engine.dispatchReady outputLen).exec e = (.ok r, e') →
      ((r = none ↔ (∀ slot < C, (e.scheduler.slots slot).state ≠ .ready) ∨
        e.scheduler.members.len = C ∨ e.scheduler.batches.len = C) ∧ (r = none → e' = e))) ∧
    (∀ outputLen, (∃ r e', (Engine.dispatchReady outputLen).exec e = (.ok r, e')) ↔
      e.faulted = false ∧ outputLen ≠ 0 ∧ e.scheduler.submitted + 1 < 2 ^ 64) ∧
    ∀ request ops, StaysReady request e ops → C ≤ (picks e ops).length →
      ∃ batch ∈ picks e ops, request ∈ batch := by
  have hc := cursor_lt_of_reachable he
  refine ⟨fun outputLen batch e' hx => ?_, fun outputLen r e' hlen hx => ?_, fun outputLen => ?_,
    fun request ops hwaits hlen => ?_⟩
  · obtain ⟨-, s, hs, rfl⟩ := exec_dispatchReady_eq_ok.mp hx
    refine ⟨?_, fun slot hslot hready hskipped =>
      Scheduler.distance_lt_of_dispatch hc hs hslot hready hskipped⟩
    rcases Scheduler.dispatchReady_eq_ok hc hs with ⟨hnone, -⟩ | ⟨-, -, _, -, htake, -, hbatch, -⟩
    · cases hnone
    · rw [Option.some.inj hbatch, htake]
      rfl
  · obtain ⟨-, s, hs, rfl⟩ := exec_dispatchReady_eq_ok.mp hx
    obtain ⟨G, hsound⟩ := sound_of_reachable he
    have hmembers : e.scheduler.members.len ≤ C := by
      rw [hsound.flight.member_ring.len]
      exact hsound.flight.member_ring.le
    rcases Scheduler.dispatchReady_eq_ok hc hs with
      ⟨rfl, rfl, hwhy⟩ | ⟨hb, hm, _, -, htake, hne, rfl, -⟩
    · refine ⟨⟨fun _ => ?_, fun _ => rfl⟩, fun _ => rfl⟩
      rcases hwhy with hwhy | hwhy | hwhy
      · exact .inr (.inr hwhy)
      · exact .inr (.inl hwhy)
      · rcases List.take_eq_nil_iff.mp hwhy with hlimit | hnil
        · rw [Scheduler.dispatchLimit] at hlimit
          exact .inr (.inl (by omega))
        · refine .inl fun slot hslot hready => ?_
          have hmem := (Scheduler.mem_readySlots hc).mpr ⟨hslot, hready⟩
          rw [hnil] at hmem
          exact List.not_mem_nil hmem
    · refine ⟨⟨by simp, fun hwhy => ?_⟩, by simp⟩
      rcases hwhy with hnone | hwhy | hwhy
      · obtain ⟨slot, hslot⟩ := List.exists_mem_of_ne_nil _ hne
        rw [htake] at hslot
        obtain ⟨hlt, hready⟩ := (Scheduler.mem_readySlots hc).mp (List.mem_of_mem_take hslot)
        exact absurd hready (hnone slot hlt)
      · exact absurd hwhy hm
      · exact absurd hwhy hb
  · constructor
    · rintro ⟨r, e', hx⟩
      obtain ⟨hf, s, hs, -⟩ := exec_dispatchReady_eq_ok.mp hx
      exact ⟨hf, Scheduler.dispatchReady_isOk.mp ⟨_, _, hs⟩⟩
    · rintro ⟨hf, hok⟩
      obtain ⟨r, s, hs⟩ := Scheduler.dispatchReady_isOk.mpr hok
      exact ⟨r, _, exec_dispatchReady_eq_ok.mpr ⟨hf, s, hs, rfl⟩⟩
  · by_contra hnone
    have hskipped : ∀ batch ∈ picks e ops, request ∉ batch :=
      fun batch hbatch hmem => hnone ⟨batch, hbatch, hmem⟩
    have hle := length_picks_le hc hwaits hskipped
    cases ops with
    | nil =>
      rw [picks, List.length_nil] at hlen
      omega
    | cons op ops =>
      have hready : e.state request = some .ready := hwaits 0 (Nat.succ_pos _) (by simp [picks])
      have hlt := distance_lt hc (ready_of_state hready).1
      omega

/-- Two requests are ready. -/
def readyRun : Engine 2 := twoSlots.applyAll [.admission, .admission]

/-- The first of two dispatches passes over the second request, and the second one selects it. -/
theorem dispatch_fair_readyRun :
    (⟨1, 1⟩ : RequestId) ∉ (picks readyRun [.dispatchReady 1]).flatten ∧
      ∃ batch ∈ picks readyRun [.dispatchReady 1, .dispatchReady 1], ⟨1, 1⟩ ∈ batch := by
  have hr : (engines 2).Reachable readyRun := reachable_applyAll (.init ⟨4, 2, 8, new_twoSlots⟩)
  have hready : StaysReady ⟨1, 1⟩ readyRun [.dispatchReady 1, .dispatchReady 1] := by
    rw [StaysReady]
    decide +kernel
  have hlen : 2 ≤ (picks readyRun [.dispatchReady 1, .dispatchReady 1]).length := by
    decide +kernel
  refine ⟨by decide +kernel, ?_⟩
  generalize readyRun = e at hr hready hlen ⊢
  exact (dispatch_fair hr).2.2.2 ⟨1, 1⟩ [.dispatchReady 1, .dispatchReady 1] hready hlen

end EngineCore

end Ferric
