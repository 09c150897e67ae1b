import Ferric.TpBatchRuntime.Device
import Ferric.TpBatchRuntime.Step

/-!
# Serving requests

Admission, cancellation and retirement, and the runtime as a transition system: any calls, in any
order, with any arguments, over any runner.

## Main definitions

* `Quiet` — a call in which no request progresses
* `Call`, `runtimeSystem`

## Main results

* `admitRequest_runs`, `cancel_runs`, `retire_runs`
* `joint_of_reachable` — the scheduler and the pool agree while the runtime is not poisoned, and
  only the runner or the clock can poison it
-/

namespace Ferric

namespace TpBatchRuntime

open TpPaged (PagedError PagedPool PageRow PreparedBatch SequenceId Sequence BatchCompletion)
open TpScheduler (SchedulerError Scheduler BatchRow RequestId RequestAdmission RequestRecord
  RowChoice ScheduledBatch OutputEvent Token Selected)

variable {γ : Type} {rt rt' : Runtime γ}

namespace Runtime

/-- The retained requests are old ones with the same tokens, or have generated nothing yet. -/
def SameTokens (s s' : Scheduler) : Prop :=
  ∀ i r, s'.Retains i r → r.generatedTokens = [] ∨ ∃ r₀, s.Retains i r₀ ∧
    r₀.promptTokens = r.promptTokens ∧ r₀.generatedTokens = r.generatedTokens

theorem SameTokens.of_slots {s s' : Scheduler} (h : s'.slots = s.slots) : SameTokens s s' := by
  intro i r hr
  refine .inr ⟨r, ?_, rfl, rfl⟩
  rwa [Scheduler.Retains, ← h]

/-- A call in which no request progresses. -/
structure Quiet (rt rt' : Runtime γ) : Prop where
  joint : rt'.Joint
  keeps : PagedPool.Keeps rt.pool.state rt'.pool.state
  tokens : SameTokens rt.scheduler rt'.scheduler
  vocabulary : rt'.scheduler.vocabulary = rt.scheduler.vocabulary
  gpu : rt'.gpu = rt.gpu
  worldSize : rt'.worldSize = rt.worldSize
  poisoned : rt'.poisoned = rt.poisoned

theorem Untouched.quiet (h : Untouched rt rt') : Quiet rt rt' := by
  refine ⟨h.joint, ?_, .of_slots h.slots, h.vocabulary, ?_, ?_, ?_⟩ <;> rw [h.eq]
  exact fun _ hm => hm

theorem Quiet.refl (h : rt.Joint) : Quiet rt rt :=
  ⟨h, fun _ hm => hm, .of_slots rfl, rfl, rfl, rfl, rfl⟩

/-- A transaction of the pool together with a change of the scheduler. -/
theorem Joint.transact {Q : TpPaged.State → Prop} {p' : PagedPool} {s' : Scheduler}
    {bindings : List (RequestId × SequenceId)} (h : rt.Joint) (ht : rt.pool.Transacted Q p')
    (hs : s'.SchedulerInv) (hidle : s'.Idle)
    (hcontext : s'.contextLimit = rt.scheduler.contextLimit)
    (hbound : Bound rt.pool.identity p'.state.sequences s' bindings) :
    Joint { rt with pool := p', scheduler := s', bindings } := by
  have hid : p'.identity = rt.pool.identity := by rw [ht.eq]
  have hlimits : p'.limits = rt.pool.limits := by rw [ht.eq]
  have hcap : p'.rowCapacity = rt.pool.rowCapacity := by rw [ht.eq]
  refine ⟨ht.poolInv h.pool, ?_, hs, hidle, ?_, hcap ▸ h.budget_le, hid ▸ hbound⟩
  · show p'.Idle
    rw [ht.eq]
    exact ht.idle
  · show s'.contextLimit = p'.limits.contextTokens
    rw [hlimits, hcontext, h.context]

/-! ### Admission -/

/-- The sequence number that the pool gives next is free. -/
theorem Joint.next_absent (h : rt.Joint) :
    rt.pool.state.sequences.get? rt.pool.state.nextSequence = none := by
  cases hq : rt.pool.state.sequences.get? rt.pool.state.nextSequence with
  | none => rfl
  | some q => exact absurd (h.pool.state.serial _ q hq).2 (lt_irrefl _)

theorem erase_insert_of_absent {sequences : BTreeMap ℕ Sequence} {k : ℕ} {q : Sequence}
    (h : sequences.get? k = none) : (sequences.insert k q).erase k = sequences := by
  refine BTreeMap.ext_get? fun j => ?_
  rw [BTreeMap.get?_erase, BTreeMap.get?_insert]
  split
  · next hj => rw [hj, h]
  · rfl

/-- **Admission.** When the scheduler rejects a request, the sequence that the pool has opened for
it can be cancelled. -/
theorem admitRequest_runs {admission : RequestAdmission} {tick nowNs : ℕ} (h : rt.Joint) :
    Runs rt (admitRequest admission tick nowNs) (fun _ rt' => Quiet rt rt')
      fun e rt' => Quiet rt rt' ∧ ¬ Disagreement e ∧ ∀ error, e ≠ .pageReservation error := by
  have hrefl := Quiet.refl h
  rw [admitRequest]
  refine (requireReady_runs.mono (fun _ _ _ hq => hq) ?_).bind ?_
  · rintro _ _ - ⟨rfl, rfl⟩
    exact ⟨hrefl, id, by simp⟩
  rintro _ _ - rfl
  refine runs_failIf (fun _ => ⟨hrefl, id, by simp⟩) fun _ => ?_
  rw [onPool]
  refine runs_attempt (PagedPool.expire_ensures h.pool) ?_ ?_
  case refine_2 =>
    intro e _ _
    refine runs_orThrow (by simp) ?_
    rintro _ ⟨⟩
    exact ⟨hrefl, id, by simp⟩
  rintro ⟨⟩ p₁ - ht₁
  obtain ⟨hkeeps₁, hseqs₁, hnext₁⟩ := ht₁.post
  simp only at ht₁ hkeeps₁ hseqs₁ hnext₁
  have hjoint₁ : Joint { rt with pool := p₁ } :=
    h.transact ht₁ h.scheduler h.schedulerIdle rfl (hseqs₁ ▸ h.bound)
  have hquiet₁ : Quiet rt { rt with pool := p₁ } :=
    ⟨hjoint₁, hkeeps₁, .of_slots rfl, rfl, rfl, rfl, rfl⟩
  refine runs_orThrow ?_ (by simp)
  rintro ⟨⟩ -
  rw [onPool]
  refine runs_attempt (PagedPool.openSequence_ensures hjoint₁.pool) ?_ ?_
  case refine_2 =>
    intro e _ _
    refine runs_orThrow (by simp) ?_
    rintro _ ⟨⟩
    exact ⟨hquiet₁, id, by simp⟩
  intro hit p₂ _ ht₂
  obtain ⟨hkeeps₂, hopened⟩ := ht₂.post
  simp only at ht₂ hkeeps₂ hopened
  have hkeeps : PagedPool.Keeps rt.pool.state p₂.state := fun mem hm => hkeeps₂ mem (hkeeps₁ mem hm)
  have habsent : p₁.state.sequences.get? p₁.state.nextSequence = none := hjoint₁.next_absent
  refine runs_orThrow ?_ (by simp)
  rintro _ ⟨⟩
  rw [onScheduler]
  refine runs_attempt Scheduler.admitRequest_ensures ?_ ?_
  · rintro request s' - ⟨i, ha⟩
    simp only at ha
    have hs : s' = { rt.scheduler with
        slots := s'.slots, lastTimeNs := nowNs } := by rw [ha.eq]
    refine runs_modify (runs_pure ⟨?_, hkeeps, ?_, ?_, rfl, rfl, rfl⟩)
    · refine hjoint₁.transact ht₂ (ha.inv h.scheduler) ?_ ?_ ?_
      · rw [hs]
        exact ha.idle
      · rw [hs]
      · rw [hopened.sequences, hopened.sequence]
        exact hjoint₁.bound.admit h.scheduler ha habsent
    · intro j r hr
      rcases ha.retains.mp hr with ⟨-, rfl⟩ | ⟨-, hr⟩
      · exact .inl rfl
      · exact .inr ⟨r, hr, rfl, rfl⟩
    · show s'.vocabulary = rt.scheduler.vocabulary
      rw [hs]
  · intro e _ _
    have hp₂ : p₂.PoolInv := ht₂.poolInv hjoint₁.pool
    have hidle₂ : p₂.Idle := by
      rw [ht₂.eq]
      exact hjoint₁.poolIdle
    have hlive : p₂.Live hit.sequence := by
      rw [PagedPool.Live, hopened.sequence, hopened.sequences]
      constructor
      · rw [ht₂.eq]
      · simp
    refine runs_attempt (PagedPool.cancelSequence_ensures hp₂) ?_ ?_
    · rintro ⟨⟩ p₃ - ht₃
      obtain ⟨hkeeps₃, hseqs₃, -⟩ := ht₃.post
      simp only at ht₃ hkeeps₃ hseqs₃
      refine runs_fail
        ⟨⟨?_, fun mem hm => hkeeps₃ mem (hkeeps mem hm), .of_slots rfl, rfl, rfl, rfl,
        rfl⟩, id, by simp⟩
      have hseqs : p₃.state.sequences = p₁.state.sequences := by
        rw [hseqs₃, hopened.sequences, hopened.sequence]
        exact erase_insert_of_absent habsent
      -- Opening and cancelling together are one change of the committed state.
      have ht : p₁.Transacted (fun _ => True) p₃ := by
        have heq : p₃ = { p₁ with state := p₃.state } := by
          rw [ht₃.eq, ht₂.eq]
        refine ⟨hjoint₁.poolIdle, heq, ?_, trivial⟩
        have hinv := ht₃.inv
        rwa [ht₂.eq] at hinv
      exact hjoint₁.transact ht h.scheduler h.schedulerIdle rfl
        (hseqs ▸ hjoint₁.bound)
    · rintro e' - ⟨-, hno⟩
      exact absurd ⟨hidle₂, hlive⟩ hno

/-! ### Cancellation and retirement -/

theorem cancel_runs {request : RequestId} {nowNs : ℕ} (h : rt.Joint) :
    Runs rt (cancel request nowNs) (fun _ rt' => Quiet rt rt')
      fun e rt' => Quiet rt rt' ∧ ¬ Disagreement e ∧ ∀ error, e ≠ .pageReservation error := by
  have hrefl := Quiet.refl h
  rw [cancel]
  refine (requireReady_runs.mono (fun _ _ _ hq => hq) ?_).bind ?_
  · rintro _ _ - ⟨rfl, rfl⟩
    exact ⟨hrefl, id, by simp⟩
  rintro _ _ - rfl
  rw [onScheduler]
  refine runs_attempt (ensures_noReply Scheduler.cancel_ensures) ?_ ?_
  · rintro ⟨⟩ s' - ⟨i, r, hidle, hclock, hr, -, -, hs'⟩
    simp only at hs'
    have hretains : ∀ {j q}, s'.Retains j q ↔
        (i = j ∧ { r with cancelledNs := some nowNs } = q) ∨
        (i ≠ j ∧ rt.scheduler.Retains j q) := by
      intro j q
      rw [hs']
      exact Scheduler.retains_setRequest.trans (by rw [Option.some.injEq])
    refine runs_pure ⟨?_, fun _ hm => hm, ?_, ?_, rfl, rfl, rfl⟩
    · refine ⟨h.pool, h.poolIdle, ?_, ?_, ?_, h.budget_le, h.bound.reschedule ?_ ?_⟩
      · rw [hs']
        refine h.scheduler.setRequest hidle hclock fun q hq => ?_
        obtain rfl := Option.some.inj hq
        exact ⟨h.scheduler.id i r hr, Scheduler.RecordInv.cancelled (h.scheduler.record i r hr)⟩
      · rw [hs']
        exact hidle
      · rw [hs']
        exact h.context
      · intro j q hq
        rcases hretains.mp hq with ⟨rfl, rfl⟩ | ⟨-, hq⟩
        · exact ⟨r, hr, rfl⟩
        · exact ⟨q, hq, rfl⟩
      · intro j r₀ hr₀
        by_cases hij : i = j
        · subst hij
          obtain rfl : r = r₀ := Option.some.inj (hr.symm.trans hr₀)
          exact ⟨_, hretains.mpr (.inl ⟨rfl, rfl⟩), rfl, fun q ha => ⟨ha.tokens, ha.length⟩⟩
        · exact ⟨r₀, hretains.mpr (.inr ⟨hij, hr₀⟩), rfl, fun q ha => ha⟩
    · intro j q hq
      rcases hretains.mp hq with ⟨rfl, rfl⟩ | ⟨-, hq⟩
      · exact .inr ⟨r, hr, rfl, rfl⟩
      · exact .inr ⟨q, hq, rfl, rfl⟩
    · show s'.vocabulary = rt.scheduler.vocabulary
      rw [hs']
      rfl
  · intro e _ _
    exact runs_fail ⟨hrefl, id, by simp⟩

/-- Releasing the pages of a live sequence. Cancelling does not fail. -/
theorem release_runs {sequence : SequenceId} {cancelled : Bool} {tick : ℕ} (h : rt.Joint)
    (hlive : rt.pool.Live sequence) :
    Runs rt (release sequence cancelled tick)
      (fun _ rt' => rt' = { rt with pool := rt'.pool } ∧
        rt.pool.Transacted (fun s => PagedPool.Keeps rt.pool.state s ∧
          s.sequences = rt.pool.state.sequences.erase sequence.serial) rt'.pool)
      fun e rt' => rt' = rt ∧ ¬ Disagreement e ∧ ∀ error, e ≠ .pageReservation error := by
  rw [release]
  cases cancelled with
  | true =>
    rw [if_pos rfl, onPool]
    refine runs_attempt (PagedPool.cancelSequence_ensures h.pool) ?_ ?_
    · rintro ⟨⟩ p' - ht
      exact runs_pure ⟨rfl, ht.idle, ht.eq, ht.inv, ht.post.1, ht.post.2.1⟩
    · rintro e - ⟨-, hno⟩
      exact absurd ⟨h.poolIdle, hlive⟩ hno
  | false =>
    rw [if_neg Bool.false_ne_true]
    refine runs_get ?_
    rw [onPool]
    refine runs_attempt (PagedPool.retireSequence_ensures h.pool) ?_ ?_
    · rintro ⟨⟩ p' - ht
      exact runs_pure ⟨rfl, ht.idle, ht.eq, ht.inv, ht.post.1, ht.post.2.1⟩
    · intro e _ _
      exact runs_fail ⟨rfl, id, by simp⟩

/-- **Retirement.** Once the pages are released, the scheduler gives the request up. -/
theorem retire_runs {request : RequestId} {tick : ℕ} (h : rt.Joint) :
    Runs rt (retire request tick) (fun _ rt' => Quiet rt rt')
      fun e rt' => Quiet rt rt' ∧ ¬ Disagreement e ∧ ∀ error, e ≠ .pageReservation error := by
  have hrefl := Quiet.refl h
  rw [retire]
  refine (requireReady_runs.mono (fun _ _ _ hq => hq) ?_).bind ?_
  · rintro _ _ - ⟨rfl, rfl⟩
    exact ⟨hrefl, id, by simp⟩
  rintro _ _ - rfl
  rw [onScheduler]
  refine runs_attempt (R := fun out => out.2 = rt.scheduler ∧ out.1.id = request ∧
    ∃ i, rt.scheduler.Retains i out.1) (Scheduler.request_ensures.bind fun r _ hreq =>
      ensures_pure.mpr ⟨rfl, hreq.1, hreq.2.imp fun _ hi => hi.2⟩) ?_ ?_
  case refine_2 =>
    intro e _ _
    refine runs_orThrow (by simp) ?_
    rintro _ ⟨⟩
    exact ⟨hrefl, id, by simp⟩
  rintro record s' - ⟨rfl, rfl, i, hr⟩
  refine runs_orThrow ?_ (by simp)
  rintro _ ⟨⟩
  refine runs_failIf (fun _ => ⟨hrefl, id, by simp⟩) fun hterminal => runs_get ?_
  rw [not_not] at hterminal
  obtain ⟨k, q, hmem, hq, -⟩ := h.bound.of_retains h.scheduler hr
  simp only [h.bound.sequenceOf_eq hmem]
  have hlive : rt.pool.Live ⟨rt.pool.identity, k⟩ := ⟨rfl, by simp [hq]⟩
  refine ((release_runs h hlive).mono (fun _ _ _ hq => hq) ?_).bind ?_
  · rintro _ _ - ⟨rfl, he⟩
    exact ⟨hrefl, he⟩
  rintro ⟨⟩ rt₁ - ⟨heq, ht⟩
  rw [heq]
  refine runs_attempt (Scheduler.retire_ensures h.scheduler) ?_ ?_
  · rintro record' s' - ⟨j, hidle, hr', hid, -, hs'⟩
    simp only at hr' hid hs'
    obtain rfl := h.scheduler.slot_inj hr hr' hid.symm
    refine runs_modify (runs_pure ⟨?_, ht.post.1, ?_, ?_, rfl, rfl, rfl⟩)
    · refine h.transact ht ?_ ?_ ?_ ?_
      · rw [hs']
        exact h.scheduler.setRequest hidle le_rfl (by simp)
      · rw [hs']
        exact hidle
      · rw [hs']
        rfl
      · rw [ht.post.2, hs']
        exact h.bound.retire h.scheduler hr hmem
    · intro j' q' hq'
      refine .inr ⟨q', ?_, rfl, rfl⟩
      have hq'' : (rt.scheduler.setRequest i none).Retains j' q' := hs' ▸ hq'
      rcases Scheduler.retains_setRequest.mp hq'' with ⟨-, hnone⟩ | ⟨-, hq''⟩
      · simp at hnone
      · exact hq''
    · show s'.vocabulary = rt.scheduler.vocabulary
      rw [hs']
      rfl
  · intro e _ hno
    exact absurd ⟨h.schedulerIdle, i, record, hr, rfl, hterminal⟩ hno

/-! ### Runs -/

/-- A call with its arguments. The reading of the completion clock is one of them. -/
inductive Call where
  | admitRequest (admission : RequestAdmission) (tick nowNs : ℕ)
  | step (tick nowNs completedNs : ℕ)
  | cancel (request : RequestId) (nowNs : ℕ)
  | retire (request : RequestId) (tick : ℕ)

/-- One call, without its reply. -/
def call (R : Runner γ) : Call → RuntimeM γ Unit
  | .admitRequest admission tick nowNs => do
    let _ ← admitRequest admission tick nowNs
    return ()
  | .step tick nowNs completedNs => do
    let _ ← step R tick nowNs completedNs
    return ()
  | .cancel request nowNs => cancel request nowNs
  | .retire request tick => do
    let _ ← retire request tick
    return ()

/-- A runtime as its constructors return it, over any pool and scheduler that passed their check. -/
def Fresh (R : Runner γ) (rt : Runtime γ) : Prop :=
  ∃ gpu pool run rowBudget retainPrefixes, PagedPool.poolSystem.Reachable pool ∧
    TpScheduler.runSystem.Reachable run ∧
    (new R gpu pool run.scheduler rowBudget retainPrefixes = .ok rt ∨
      newWide32 R gpu pool run.scheduler rowBudget retainPrefixes = .ok rt)

/-- Runtimes under any calls with any arguments. A call that fails leaves the state it reached. -/
def runtimeSystem (R : Runner γ) : System (Runtime γ) Call where
  init := Fresh R
  step rt c rt' := ((call R c).exec rt).2 = rt'

/-- What a call does. -/
inductive Effect (R : Runner γ) (rt : Runtime γ) : Call → Runtime γ → Prop
  | quiet {c : Call} {rt' : Runtime γ} (h : Quiet rt rt') : Effect R rt c rt'
  | undone {tick nowNs completedNs : ℕ} {scheduled : ScheduledBatch} {prepared : PreparedBatch}
      {p₁ : PagedPool} {paged : List PageRow} {proposed : TpPaged.State} {rt₁ : Runtime γ}
      (h : Loaded rt nowNs scheduled prepared p₁ paged proposed rt₁) :
      Effect R rt (.step tick nowNs completedNs)
        (undone R { rt₁ with gpu := dispatchGpu R rt₁.gpu scheduled prepared })
  | committed {tick nowNs completedNs : ℕ} {scheduled : ScheduledBatch} {prepared : PreparedBatch}
      {p₁ : PagedPool} {paged : List PageRow} {proposed : TpPaged.State} {rt₁ rt' : Runtime γ}
      (h : Loaded rt nowNs scheduled prepared p₁ paged proposed rt₁)
      (hc : Committed R (submitted R rt₁ scheduled prepared proposed) completedNs scheduled prepared
        proposed rt') : Effect R rt (.step tick nowNs completedNs) rt'
  | poisoned {tick nowNs completedNs : ℕ} {scheduled : ScheduledBatch} {prepared : PreparedBatch}
      {rt₁ rt' : Runtime γ} (hpoisoned : rt'.poisoned = true)
      (hslots : rt'.scheduler.slots = rt.scheduler.slots)
      (hloop : (reserveLoop tick nowNs (rt.rowBudget + 1) rt.rowBudget).exec rt =
        (.ok (some (scheduled, prepared)), rt₁))
      (hfaulty : Faulty R rt.gpu rt.scheduler.vocabulary rt.worldSize nowNs completedNs scheduled
        prepared) : Effect R rt (.step tick nowNs completedNs) rt'

variable {R : Runner γ}

theorem StepDone.effect {tick nowNs completedNs : ℕ} {out : Option BatchReport}
    (h : StepDone R rt nowNs completedNs out rt') :
    Effect R rt (.step tick nowNs completedNs) rt' := by
  cases out with
  | none => exact .quiet (Untouched.quiet h)
  | some report =>
    obtain ⟨scheduled, prepared, p₁, paged, proposed, rt₁, hl, hc⟩ := h
    exact .committed hl hc

theorem StepError.effect {tick nowNs completedNs : ℕ} {e : RuntimeError}
    (h : StepError R rt tick nowNs completedNs e rt') :
    Effect R rt (.step tick nowNs completedNs) rt' := by
  cases h with
  | untouched h _ => exact .quiet h.quiet
  | submit hloop hl he =>
    cases he with
    | undone text => exact .undone hl
    | poisoned _ _ hpoisoned hslots hfaulty =>
      rw [hl.vocabulary, hl.eq] at hfaulty
      exact .poisoned hpoisoned (hslots.trans hl.slots) hloop hfaulty

/-- An error never reports a disagreement, and for want of pages nothing has changed. -/
def Backpressure (rt : Runtime γ) (e : RuntimeError) (rt' : Runtime γ) : Prop :=
  ¬ Disagreement e ∧ ((∃ error, e = .pageReservation error) →
    rt'.pool = rt.pool ∧ rt'.scheduler.slots = rt.scheduler.slots)

theorem StepError.backpressure {tick nowNs completedNs : ℕ} {e : RuntimeError}
    (h : StepError R rt tick nowNs completedNs e rt') : Backpressure rt e rt' := by
  cases h with
  | untouched h he => exact ⟨he, fun _ => ⟨by rw [h.eq], h.slots⟩⟩
  | submit hloop hl he =>
    cases he with
    | undone text => exact ⟨by simp [Disagreement], by simp⟩
    | poisoned hdisagree hreservation _ _ _ =>
      refine ⟨hdisagree, ?_⟩
      rintro ⟨error, rfl⟩
      exact absurd rfl (hreservation error)

/-- **Every call.** -/
theorem call_runs (h : rt.Joint) (c : Call) :
    Runs rt (call R c) (fun _ rt' => Effect R rt c rt')
      fun e rt' => Effect R rt c rt' ∧ Backpressure rt e rt' := by
  have hquiet : ∀ {e : RuntimeError} {rt'}, (Quiet rt rt' ∧ ¬ Disagreement e ∧
      ∀ error, e ≠ .pageReservation error) → Effect R rt c rt' ∧ Backpressure rt e rt' := by
    rintro e rt' ⟨hq, hd, hr⟩
    exact ⟨.quiet hq, hd, fun ⟨error, he⟩ => absurd he (hr error)⟩
  cases c with
  | admitRequest admission tick nowNs =>
    rw [call]
    refine ((admitRequest_runs h).mono (fun _ _ _ hq => hq) fun _ _ _ he => hquiet he).bind ?_
    exact fun _ _ _ hq => runs_pure (.quiet hq)
  | step tick nowNs completedNs =>
    rw [call]
    refine ((step_runs h).mono (fun _ _ _ hq => hq)
      fun _ _ _ he => ⟨he.effect, he.backpressure⟩).bind ?_
    exact fun _ _ _ hd => runs_pure hd.effect
  | cancel request nowNs =>
    rw [call]
    exact (cancel_runs h).mono (fun _ _ _ hq => .quiet hq) fun _ _ _ he => hquiet he
  | retire request tick =>
    rw [call]
    refine ((retire_runs h).mono (fun _ _ _ hq => hq) fun _ _ _ he => hquiet he).bind ?_
    exact fun _ _ _ hq => runs_pure (.quiet hq)

theorem effect_of_call (h : rt.Joint) (c : Call) : Effect R rt c ((call R c).exec rt).2 :=
  (call_runs h c).final (fun _ _ he => he) fun _ _ he => he.1

theorem Effect.joint {c : Call} (h : Effect R rt c rt') (hp : rt'.poisoned = false) :
    rt'.Joint := by
  cases h with
  | quiet h => exact h.joint
  | undone h => exact h.staged.rebind.joint_undone
  | committed h hc => exact hc.joint h.staged.submit
  | poisoned hpoisoned => simp [hpoisoned] at hp

/-- A poisoned runtime rejects every call. -/
theorem call_of_poisoned {c : Call} (h : rt.poisoned = true) :
    (call R c).exec rt = (.error (.err .closedOrPoisoned), rt) := by
  have hready :
      (requireReady : RuntimeM γ Unit).exec rt = (.error (.err .closedOrPoisoned), rt) := by
    rw [requireReady, exec_bind, exec_get]
    simp [Action.failIf, h]
  cases c with
  | admitRequest admission tick nowNs =>
    simp only [call, admitRequest, exec_bind, hready]
  | step tick nowNs completedNs =>
    simp only [call, step, exec_bind, hready]
  | cancel request nowNs =>
    simp only [call, cancel, exec_bind, hready]
  | retire request tick =>
    simp only [call, retire, exec_bind, hready]

/-- Joining a pool that was never used and a scheduler without requests. -/
theorem newBounded_joint {gpu : γ} {pool : PagedPool} {scheduler : Scheduler}
    {rowBudget rowCapacity : ℕ} {retainPrefixes : Bool} (hp : pool.PoolInv)
    (hs : scheduler.SchedulerInv)
    (h : newBounded R gpu pool scheduler rowBudget retainPrefixes rowCapacity = .ok rt) :
    rt.Joint ∧ rt.poisoned = false ∧ rt.pool = pool ∧ rt.pool.state.nextSequence = 1 ∧
      rt.worldSize = (R.dispatchCounts rt.gpu).length ∧ ∀ i r, ¬ rt.scheduler.Retains i r := by
  rw [newBounded] at h
  obtain ⟨_, hok, he⟩ := bind_eq_ok.mp h
  rw [failIf_eq_ok] at hok
  simp only [not_or, not_not, Bool.not_eq_false, Bool.not_eq_true] at hok
  obtain ⟨hempty, hretained, hlive, ⟨-, hbudget⟩, hcapacity, -, hcontext, -⟩ := hok
  obtain rfl := Except.ok.inj he
  have hnone : ∀ i r, ¬ scheduler.Retains i r := by
    intro i r hr
    rw [Scheduler.retainedRequests, List.countP_eq_zero] at hretained
    have := hretained i (List.mem_finRange i)
    rw [Scheduler.Retains] at hr
    simp [hr] at this
  simp only [PagedPool.isEmpty, Bool.and_eq_true, Bool.not_eq_true', Option.isNone_iff_eq_none,
    beq_iff_eq] at hempty
  obtain ⟨⟨⟨hpoisoned, hpending⟩, hnext⟩, -⟩ := hempty
  refine ⟨⟨hp, ⟨hpoisoned, hpending⟩, hs, ⟨hlive, ?_⟩, hcontext, hcapacity ▸ hbudget, ?_⟩, rfl, rfl,
    hnext, rfl, hnone⟩
  · -- An outstanding batch would have rows of retained requests.
    cases hpd : scheduler.pending with
    | none => rfl
    | some pd =>
      obtain ⟨row, hrow⟩ := List.exists_mem_of_ne_nil _ (hs.pending_ne pd hpd)
      obtain ⟨i, r, hr, -⟩ := (hs.batched pd hpd).known row hrow
      exact absurd hr (hnone i r)
  · refine ⟨List.nodup_nil, List.nodup_nil, by simp, fun i r hr => absurd hr (hnone i r), ?_⟩
    intro k q hq
    have := hp.state.serial k q hq
    omega

/-- A fresh runtime. -/
structure Started (R : Runner γ) (rt : Runtime γ) : Prop where
  joint : rt.Joint
  poisoned : rt.poisoned = false
  reachable : PagedPool.poolSystem.Reachable rt.pool
  unused : rt.pool.state.nextSequence = 1
  worldSize : rt.worldSize = (R.dispatchCounts rt.gpu).length
  vacant : ∀ i r, ¬ rt.scheduler.Retains i r

theorem Fresh.started (h : Fresh R rt) : Started R rt := by
  obtain ⟨gpu, pool, run, rowBudget, retainPrefixes, hpool, hrun, hnew⟩ := h
  have hp := PagedPool.poolInv_of_reachable hpool
  have hs := (TpScheduler.runInv_of_reachable hrun).scheduler
  have hboth : ∃ rowCapacity, newBounded R gpu pool run.scheduler rowBudget retainPrefixes
      rowCapacity = .ok rt := hnew.elim (fun h => ⟨16, h⟩) fun h => ⟨32, h⟩
  obtain ⟨rowCapacity, hnew⟩ := hboth
  obtain ⟨hj, hlive, hpeq, hnext, hworld, hnone⟩ := newBounded_joint hp hs hnew
  exact ⟨hj, hlive, hpeq ▸ hpool, hnext, hworld, hnone⟩

theorem joint_of_not_poisoned (h : (runtimeSystem R).Reachable rt) (hp : rt.poisoned = false) :
    rt.Joint := by
  refine System.Reachable.induction (S := runtimeSystem R)
    (I := fun rt => rt.poisoned = false → rt.Joint) ?_ ?_ h hp
  · intro rt hfresh _
    exact (Fresh.started hfresh).joint
  · rintro rt c rt' - ih rfl hp
    cases hpoisoned : rt.poisoned with
    | true =>
      rw [call_of_poisoned hpoisoned] at hp
      simp [hpoisoned] at hp
    | false => exact (effect_of_call (ih hpoisoned) c).joint hp

/-- What a call may do to a runtime that is not poisoned. -/
structure CallSafe (R : Runner γ) (rt : Runtime γ) (c : Call) : Prop where
  ne_panic : ((call R c).exec rt).1 ≠ .error .panic
  ne_diverge : ((call R c).exec rt).1 ≠ .error .diverge
  /-- The scheduler and the pool are never found to disagree. -/
  agree : ∀ e, ((call R c).exec rt).1 = .error (.err e) → ¬ Disagreement e
  /-- Only a step poisons the runtime, after it has reserved a batch and the runner has accepted
  it, when the runner or the clock then does not do its part. -/
  poisons : ((call R c).exec rt).2.poisoned = true →
    ∃ tick nowNs completedNs scheduled prepared rt₁, c = .step tick nowNs completedNs ∧
      (reserveLoop tick nowNs (rt.rowBudget + 1) rt.rowBudget).exec rt =
        (.ok (some (scheduled, prepared)), rt₁) ∧
      Faulty R rt.gpu rt.scheduler.vocabulary rt.worldSize nowNs completedNs scheduled prepared
  /-- For want of pages nothing is evicted and no request progresses. -/
  backpressure : ∀ e, ((call R c).exec rt).1 = .error (.err (.pageReservation e)) →
    ((call R c).exec rt).2.pool = rt.pool ∧
      ((call R c).exec rt).2.scheduler.slots = rt.scheduler.slots

theorem Joint.callSafe (h : rt.Joint) (hp : rt.poisoned = false) (c : Call) : CallSafe R rt c := by
  have hr := call_runs (R := R) h c
  have herr : ∀ e, ((call R c).exec rt).1 = .error (.err e) →
      Backpressure rt e ((call R c).exec rt).2 := by
    intro e he
    have hx : (call R c).exec rt = (.error (.err e), ((call R c).exec rt).2) := by rw [← he]
    exact (hr.of_err hx).2
  refine ⟨hr.ne_panic, hr.ne_diverge, fun e he => (herr e he).1, ?_,
    fun e he => (herr _ he).2 ⟨e, rfl⟩⟩
  have heffect := effect_of_call (R := R) h c
  generalize ((call R c).exec rt).2 = rt' at heffect
  intro hpoisoned
  cases heffect with
  | quiet h => simp [h.poisoned, hp] at hpoisoned
  | @undone tick nowNs completedNs scheduled prepared p₁ paged proposed rt₁ h =>
    have : rt₁.poisoned = true := hpoisoned
    rw [h.eq] at this
    simp [hp] at this
  | committed h hc =>
    obtain ⟨_, _, _, _, -, -, -, -, -, heq⟩ := hc.effect
    rw [heq, submitted, h.eq] at hpoisoned
    simp [hp] at hpoisoned
  | poisoned _ _ hloop hfaulty => exact ⟨_, _, _, _, _, _, rfl, hloop, hfaulty⟩

/-- **The joint invariant.** While the runtime is not poisoned, neither side waits for a batch, the
bindings are a bijection between the retained requests and the live sequences, and every sequence
holds the tokens its request has committed. No call finds the two sides in disagreement, and only
the runner or the clock can poison the runtime. -/
theorem joint_of_reachable {R : Runner γ} {rt : Runtime γ} (h : (runtimeSystem R).Reachable rt)
    (hp : rt.poisoned = false) :
    (rt.pool.pending = none ∧ rt.scheduler.pending = none ∧
      Bound rt.pool.identity rt.pool.state.sequences rt.scheduler rt.bindings) ∧
    ∀ c, CallSafe R rt c := by
  have hj := joint_of_not_poisoned h hp
  exact ⟨⟨hj.poolIdle.2, hj.schedulerIdle.2, hj.bound⟩, hj.callSafe hp⟩

/-- Calls one after another. -/
def runCalls (R : Runner γ) (rt : Runtime γ) (calls : List Call) : Runtime γ :=
  calls.foldl (fun rt c => ((call R c).exec rt).2) rt

theorem reachable_runCalls {calls : List Call} (h : (runtimeSystem R).Reachable rt) :
    (runtimeSystem R).Reachable (runCalls R rt calls) := by
  induction calls generalizing rt with
  | nil => exact h
  | cons c calls ih => exact ih (.step (a := c) h rfl)

/-- A choice by the tokens read. -/
def sumTokens (tokens : List Token) : Token := tokens.sum % 100

/-- A runner that adds tokens. -/
def addingRunner : Runner Device := deviceRunner sumTokens 16 fun _ _ _ => 1

/-- A runtime of one rank, with `rows` rows a batch and `chunk` of them for one prompt, after some
calls. -/
def smallRun (rows chunk : ℕ) (calls : List Call) : Option (Runtime Device) := do
  let scheduler ← (Scheduler.new 100 64 rows chunk).toOption
  let rt ← (new addingRunner ⟨fun _ => 0, [0]⟩ PagedPool.smallPool scheduler rows true).toOption
  return runCalls addingRunner rt calls

theorem reachable_smallRun {rows chunk : ℕ} {calls : List Call} {rt : Runtime Device}
    (h : smallRun rows chunk calls = some rt) : (runtimeSystem addingRunner).Reachable rt := by
  rw [smallRun, Option.bind_eq_bind, Option.bind_eq_some_iff] at h
  obtain ⟨scheduler, hs, h⟩ := h
  rw [Option.bind_eq_bind, Option.bind_eq_some_iff] at h
  obtain ⟨rt₀, hrt, h⟩ := h
  obtain rfl := Option.some.inj h
  have hnew : ∀ {ε α : Type} {x : Except ε α} {a : α}, x.toOption = some a → x = .ok a := by
    rintro ε α (_ | _) a ha
    · simp [Except.toOption] at ha
    · simpa [Except.toOption] using ha
  refine reachable_runCalls (.init ⟨_, PagedPool.smallPool, ⟨scheduler, [], []⟩, rows, true,
    .init PagedPool.fresh_smallPool, .init ⟨rfl, rfl, 100, 64, rows, chunk, .inl (hnew hs)⟩,
    .inl (hnew hrt)⟩)

/-- After the prompt of one request was computed in two batches, it is bound to its sequence. -/
theorem joint_of_reachable_smallRun :
    ∃ rt, (runtimeSystem addingRunner).Reachable rt ∧ rt.poisoned = false ∧
      rt.bindings = [(⟨0, 1⟩, ⟨1, 1⟩)] ∧
      Bound rt.pool.identity rt.pool.state.sequences rt.scheduler rt.bindings := by
  let calls : List Call :=
    [.admitRequest ⟨[5, 6, 7], 2, 0, 0, 0⟩ 1 1, .step 1 2 3, .step 1 4 5]
  have hrun : (smallRun 4 2 calls).map (fun rt => (rt.poisoned, rt.bindings)) =
      some (false, [(⟨0, 1⟩, ⟨1, 1⟩)]) := by decide
  obtain ⟨rt, hrt, hbind⟩ := Option.map_eq_some_iff.mp hrun
  obtain ⟨hp, hb⟩ := Prod.mk.inj hbind
  have h := reachable_smallRun hrt
  exact ⟨rt, h, hp, hb, (joint_of_reachable h hp).1.2.2⟩

end Runtime

end TpBatchRuntime

end Ferric
