import Ferric.EngineCore.Invariant

/-!
# The calls of the engine

The contract of every call except the completion. A call that returns has `Worked`, or launched a
batch; one that fails left the engine as it was, or `Broken` by an exhausted generation. None of
them reports a violation.
-/

namespace Ferric

namespace EngineCore

open Spec Cache Ferric.Action

namespace Engine

variable {C : ℕ} {e e' : Engine C} {F R : List ℕ} {G : List (List RequestId)}

theorem admitRequest_runs (h : e.Ok F R G) :
    Runs e admitRequest (fun _ e' => Worked G e e') (Fails G e) := by
  rw [Engine.admitRequest]
  refine runs_requireHealthy h.healthy ?_
  refine runs_onScheduler (Scheduler.admitRequest_ensures h.scheduler)
    (fun r t ht => ?_) fun d hd => ?_
  · obtain ⟨i, F', rfl, rfl, htouch, hok, hstate, hgen⟩ := ht
    obtain ⟨hvacant, -, hfly, -, -⟩ := h.scheduler.vacant List.mem_cons_self
    have hi := h.scheduler.free_lt i List.mem_cons_self
    refine runs_orThrow (fun r hr => ?_) fun _ hx => absurd hx (by simp)
    obtain rfl := Except.ok.inj hr
    refine runs_onKv (createRequestKey_runs h.kv _) (fun _ p' hp' => ?_) fun d p' hd => ?_
    · refine runs_orFault (fun _ _ => runs_pure ?_) fun _ hx => absurd hx (by simp)
      refine h.work hfly hok htouch hp'.wellFormed hp'.evolves ?_ ?_ rfl rfl
      · show (p'.requests i).live = true ↔ (t.slots i).state ≠ .vacant
        rw [hstate]
        exact iff_of_true hp'.live.2.1 (by simp)
      · exact hp'.live.2.2.trans hgen.symm
    · -- the slot is vacant in the pool as well
      refine absurd ⟨hi.trans_le h.scheduler.capacity_le, ?_, h.agree.generation i hi⟩ hd.2.2
      exact Bool.eq_false_iff.mpr fun hlive => (h.agree.live i hi).mp hlive hvacant
  · refine runs_orThrow (fun _ hx => absurd hx (by simp)) fun d' hx => ?_
    obtain rfl := Except.error.inj hx
    exact ⟨hd, .inl rfl⟩

theorem appendTentative_runs (h : e.Ok F R G) (request : RequestId) (tokenCount : ℕ) :
    Runs e (appendTentative request tokenCount)
      (fun _ e' => Worked G e e' ∧ e'.scheduler = e.scheduler ∧ e.kv.Live request ∧
        KvPool.Appended request.slot tokenCount e.kv e'.kv)
      fun error e' => Fails G e error e' ∧
        ¬ (e.state request = some .ready ∧ Appendable e.kv request tokenCount) := by
  rw [appendTentative]
  refine runs_requireHealthy h.healthy (runs_get ?_)
  refine runs_failIf (fun hno => ⟨⟨id, .inl rfl⟩, fun hx => hno hx.1⟩) fun hstate => ?_
  obtain ⟨hi, hready, -, hfly⟩ := h.ready_of_state (not_not.mp hstate)
  refine runs_onKv (appendTentativeKey_runs h.kv request tokenCount) (fun _ p' hp' => ?_)
    fun d p' hd => ?_
  · refine runs_orThrow_last (fun _ _ => ⟨?_, rfl, hp'⟩) fun _ hx => absurd hx (by simp)
    refine h.work hfly h.scheduler (.refl _ _) hp'.2.wellFormed hp'.2.evolves ?_ ?_ rfl rfl
    · show (p'.requests request.slot).live = true ↔ _
      rw [hp'.2.live]
      exact h.agree.live _ hi
    · exact hp'.2.generation.trans (h.agree.generation _ hi)
  · refine runs_orThrow_last (fun _ hx => absurd hx (by simp)) fun d' hx => ?_
    obtain rfl := Except.error.inj hx
    obtain ⟨rfl, hviolation, hno⟩ := hd
    exact ⟨⟨hviolation, .inl rfl⟩, fun hx => hno hx.2⟩

theorem shareCommittedPrefix_runs (h : e.Ok F R G) (source target : RequestId) (tokenCount : ℕ) :
    Runs e (shareCommittedPrefix source target tokenCount)
      (fun _ e' => Worked G e e' ∧ Sharable e.kv source target tokenCount ∧
        e'.scheduler = e.scheduler ∧
        KvPool.Shared source.slot target.slot (tokenCount / e.kv.pageTokens) e.kv e'.kv)
      fun error e' => Fails G e error e' ∧ ¬ (e.state source = some .ready ∧
        e.state target = some .ready ∧ Sharable e.kv source target tokenCount) := by
  rw [shareCommittedPrefix]
  refine runs_requireHealthy h.healthy (runs_get ?_)
  refine runs_failIf (fun hno => ⟨⟨id, .inl rfl⟩, fun hx => hno hx.1⟩) fun hsource => runs_get ?_
  refine runs_failIf (fun hno => ⟨⟨id, .inl rfl⟩, fun hx => hno hx.2.1⟩) fun htarget => ?_
  obtain ⟨hi, hready, -, hfly⟩ := h.ready_of_state (not_not.mp htarget)
  refine runs_onKv (shareCommittedPrefixKey_runs h.kv source target tokenCount)
    (fun _ p' hp' => ?_) fun d p' hd => ?_
  · refine runs_orThrow_last (fun _ _ => ⟨?_, hp'.1, rfl, hp'.2⟩) fun _ hx => absurd hx (by simp)
    refine h.work hfly h.scheduler (.refl _ _) hp'.2.wellFormed hp'.2.evolves ?_ ?_ rfl rfl
    · show (p'.requests target.slot).live = true ↔ _
      rw [hp'.2.live]
      exact h.agree.live _ hi
    · exact hp'.2.generation.trans (h.agree.generation _ hi)
  · refine runs_orThrow_last (fun _ hx => absurd hx (by simp)) fun d' hx => ?_
    obtain rfl := Except.error.inj hx
    obtain ⟨rfl, hviolation, hsharable⟩ := hd
    exact ⟨⟨hviolation, .inl rfl⟩, fun hx => hsharable hx.2.2⟩

theorem retire_runs (h : e.Ok F R G) (request : RequestId) :
    Runs e (retire request) (fun _ e' => Worked G e e') (Fails G e) := by
  rw [Engine.retire]
  refine runs_requireHealthy h.healthy ?_
  refine runs_onScheduler (ensures_noReply (Scheduler.retire_ensures h.scheduler request))
    (fun _ t ht => ?_) fun d hd => ?_
  · obtain ⟨htouch, hi, hoccupied, hstate, hgen, R', hok⟩ := ht
    refine runs_orThrow_last (fun _ _ => ⟨⟨⟨rfl, rfl, rfl⟩, fun _ _ => rfl⟩, htouch.completed,
      htouch.submitted, F, R', ⟨⟨hok, h.kv, ?_, h.healthy⟩, h.permits⟩⟩)
      fun _ hx => absurd hx (by simp)
    refine h.agree.setOne htouch.others (fun _ _ => rfl) ?_ ?_
    · show _ ↔ (t.slots request.slot).state ≠ .vacant
      rw [hstate]
      exact iff_of_true ((h.agree.live _ hi).mpr hoccupied) (by simp)
    · exact (h.agree.generation _ hi).trans hgen.symm
  · refine runs_orThrow_last (fun _ hx => absurd hx (by simp)) fun d' hx => ?_
    obtain rfl := Except.error.inj hx
    exact ⟨hd, .inl rfl⟩

/-- A release from the reclaim ring that fails breaks the engine. -/
theorem Ok.broken_of_release {i : ℕ} (h : e.Ok F (i :: R) G)
    (hw : (e.scheduler.slots i).generation = u32Max ∨ e.kv.Worn i) :
    Broken G e { e with scheduler := e.scheduler.unparked i, faulted := true } := by
  obtain ⟨hstate, -, hfly, -, -⟩ := h.scheduler.parked List.mem_cons_self
  have hi := h.scheduler.reclaim_lt i List.mem_cons_self
  have hl := h.live hi (by rw [hstate]; simp)
  exact ⟨⟨⟨rfl, rfl, rfl⟩, fun _ _ => rfl⟩, rfl, h.kv, exhausted_of_worn h.kv hl hw,
    h.scheduler.flight.touch ⟨fun j hj => Scheduler.setSlot_of_ne hj, rfl, rfl, rfl, rfl, rfl⟩ hfly,
    rfl⟩

theorem reclaimWith_runs {i : ℕ} (h : e.Ok F (i :: R) G) :
    Runs { e with scheduler := e.scheduler.unparked i }
      (reclaimWith ⟨⟨i, (e.scheduler.slots i).generation⟩,
        Scheduler.parkedOrigin (e.scheduler.slots i)⟩)
      (fun _ e' => Worked G e e') (Fails G e) := by
  obtain ⟨hstate, -, hfly, -, -⟩ := h.scheduler.parked List.mem_cons_self
  have hi := h.scheduler.reclaim_lt i List.mem_cons_self
  have hslots := hi.trans_le h.scheduler.capacity_le
  have hl := h.live hi (by rw [hstate]; simp)
  rw [reclaimWith]
  refine runs_onKv (releaseRequest_runs h.kv hl rfl) (fun d p' hp' => ?_) fun f p' hf => ?_
  · obtain ⟨rfl, hreleased⟩ := hp'
    refine runs_orFault (fun d hd => ?_) fun _ hx => absurd hx (by simp)
    obtain rfl := Except.ok.inj hd
    have hmax := generation_lt_of_released hreleased hslots
    rw [h.agree.generation i hi] at hmax
    obtain ⟨heq, htouch, hslot, hok⟩ := Scheduler.reclaimDetached_parked h.scheduler hmax
    refine runs_onScheduler_eq heq
      (runs_orFault_last (fun _ _ => ?_) fun _ hx => absurd hx (by simp))
    refine h.work hfly hok htouch hreleased.wellFormed hreleased.evolves ?_ ?_ rfl rfl
    · show (p'.requests i).live = true ↔ (((e.scheduler.unparked i).vacated i).slots i).state ≠ _
      rw [hslot, hreleased.dead]
      simp [Slot.initial]
    · show (p'.requests i).generation = (((e.scheduler.unparked i).vacated i).slots i).generation
      rw [hslot, hreleased.generation, h.agree.generation i hi]
  · refine runs_orFault (fun _ hx => absurd hx (by simp)) fun d hx => ?_
    obtain rfl := Except.error.inj hx
    obtain ⟨rfl, hviolation, hw⟩ := hf
    exact ⟨hviolation, .inr (h.broken_of_release hw)⟩

theorem reclaimOne_runs (h : e.Ok F R G) :
    Runs e reclaimOne (fun _ e' => Worked G e e') (Fails G e) := by
  rw [reclaimOne]
  refine runs_requireHealthy h.healthy ?_
  cases R with
  | nil =>
    refine runs_onScheduler_eq (Scheduler.takeRetiringPermit_nil h.scheduler) ?_
    refine runs_orThrow (fun a ha => ?_) fun _ hx => absurd hx (by simp)
    obtain rfl := Except.ok.inj ha
    exact runs_pure (Worked.refl h)
  | cons i R =>
    refine runs_onScheduler_eq (Scheduler.takeRetiringPermit_cons h.scheduler) ?_
    refine runs_orThrow (fun a ha => ?_) fun _ hx => absurd hx (by simp)
    obtain rfl := Except.ok.inj ha
    exact (reclaimWith_runs h).bind fun _ _ _ hworked => runs_pure hworked

theorem reincarnateNextRetiring_runs (h : e.Ok F R G) :
    Runs e reincarnateNextRetiring (fun _ e' => Worked G e e') (Fails G e) := by
  rw [reincarnateNextRetiring]
  refine runs_requireHealthy h.healthy ?_
  refine runs_query (ensures_mapErr ((Scheduler.preflightNextReincarnation_ensures
    h.scheduler).mono (fun d hd => ⟨hd, .inl rfl⟩) fun _ _ hr => hr)) ?_
  rintro predecessor - ⟨i, R', rfl, rfl, hmax⟩
  obtain ⟨hstate, -, hfly, -, -⟩ := h.scheduler.parked List.mem_cons_self
  have hi := h.scheduler.reclaim_lt i List.mem_cons_self
  have hslots := hi.trans_le h.scheduler.capacity_le
  have hl := h.live hi (by rw [hstate]; simp)
  refine runs_onScheduler_eq (Scheduler.takeRetiringPermit_cons h.scheduler) ?_
  show Runs _ (pure _ >>= _) _ _
  rw [pure_bind]
  refine runs_onKv (releaseRequest_runs h.kv hl rfl) (fun d p' hp' => ?_) fun f p' hf => ?_
  · obtain ⟨rfl, hreleased⟩ := hp'
    refine runs_orFault (fun d hd => ?_) fun _ hx => absurd hx (by simp)
    obtain rfl := Except.ok.inj hd
    obtain ⟨t, heq, htouch, hgen, hready, hok⟩ :=
      Scheduler.reincarnateDetached_parked (ε := EngineError) h.scheduler hmax
    refine runs_onScheduler_eq heq (runs_orThrow (fun a ha => ?_) fun _ hx => absurd hx (by simp))
    obtain rfl := Except.ok.inj ha
    refine runs_onKv (createRequestKey_runs hreleased.wellFormed _) (fun _ q hq => ?_)
      fun d q hd => ?_
    · refine runs_orFault (fun _ _ => runs_pure ?_) fun _ hx => absurd hx (by simp)
      refine h.work hfly hok htouch hq.wellFormed (hreleased.evolves.trans hq.evolves) ?_ ?_ rfl rfl
      · show (q.requests i).live = true ↔ (t.slots i).state ≠ .vacant
        rw [hready]
        exact iff_of_true hq.live.2.1 (by simp)
      · exact hq.live.2.2.trans hgen.symm
    · -- the release has just vacated the slot for this generation
      refine absurd ⟨hslots, hreleased.dead, ?_⟩ hd.2.2
      rw [hreleased.generation, h.agree.generation i hi]
  · refine runs_orFault (fun _ hx => absurd hx (by simp)) fun d hx => ?_
    obtain rfl := Except.error.inj hx
    obtain ⟨rfl, hviolation, hw⟩ := hf
    exact ⟨hviolation, .inr (h.broken_of_release hw)⟩

/-! ### Dispatch -/

/-- The requests `sel` are in flight under the next epoch. -/
def Launched (G : List (List RequestId)) (sel : List RequestId) (e e' : Engine C) : Prop :=
  e'.kv = e.kv ∧ e'.scheduler.completed = e.scheduler.completed ∧
    e'.scheduler.submitted = e.scheduler.submitted + 1 ∧ ∃ F R, e'.Ok F R (G ++ [sel])

theorem Ok.launch (h : e.Ok F R G) {sel : List RequestId} {cursor : ℕ}
    (hsel : e.scheduler.Selectable sel)
    (hok : (e.scheduler.launched sel cursor).Ok F R (G ++ [sel]) []) :
    Launched G sel e { e with scheduler := e.scheduler.launched sel cursor } := by
  refine ⟨rfl, rfl, rfl, F, R,
    ⟨⟨hok, h.kv, ⟨fun i hi => ?_, fun i hi => ?_⟩, h.healthy⟩, h.permits⟩⟩
  all_goals by_cases hin : i ∈ sel.map RequestId.slot
  · show _ ↔ ((e.scheduler.launched sel cursor).slots i).state ≠ .vacant
    obtain ⟨x, hx, rfl⟩ := List.mem_map.mp hin
    rw [Scheduler.launched_of_mem hin]
    exact iff_of_true ((h.agree.live _ hi).mpr (by rw [hsel.ready x hx]; simp)) (by simp)
  · show _ ↔ ((e.scheduler.launched sel cursor).slots i).state ≠ .vacant
    rw [Scheduler.launched_of_not_mem hin]
    exact h.agree.live i hi
  · show _ = ((e.scheduler.launched sel cursor).slots i).generation
    rw [Scheduler.launched_of_mem hin]
    exact h.agree.generation i hi
  · show _ = ((e.scheduler.launched sel cursor).slots i).generation
    rw [Scheduler.launched_of_not_mem hin]
    exact h.agree.generation i hi

theorem dispatchReady_runs (h : e.Ok F R G) (outputLen : ℕ) :
    Runs e (dispatchReady outputLen)
      (fun batch e' => (batch = none ∧ e' = e) ∨
        ∃ sel, batch = some ⟨e.scheduler.submitted + 1, sel⟩ ∧ Launched G sel e e')
      fun error e' => ¬ error.IsViolation ∧ e' = e := by
  rw [Engine.dispatchReady]
  refine runs_requireHealthy h.healthy ?_
  refine runs_onScheduler (Scheduler.dispatchReady_ensures h.scheduler outputLen)
    (fun batch t ht => ?_) fun d hd => ?_
  · refine runs_orThrow_last (fun a ha => ?_) fun _ hx => absurd hx (by simp)
    obtain rfl := Except.ok.inj ha
    rcases ht with hnone | ⟨sel, cursor, hbatch, hsel, hok⟩
    · obtain ⟨rfl, rfl⟩ := Prod.mk.inj hnone
      exact .inl ⟨rfl, rfl⟩
    · obtain ⟨rfl, rfl⟩ := Prod.mk.inj hbatch
      exact .inr ⟨sel, rfl, h.launch hsel hok⟩
  · refine runs_orThrow_last (fun _ hx => absurd hx (by simp)) fun d' hx => ?_
    obtain rfl := Except.error.inj hx
    exact ⟨hd, rfl⟩

theorem dispatchM1ExactReady_runs (h : e.Ok F R G) (expectedEpoch : ℕ)
    (requests : List RequestId) :
    Runs e (dispatchM1ExactReady expectedEpoch requests)
      (fun batch e' => batch = ⟨e.scheduler.submitted + 1, requests⟩ ∧ Launched G requests e e')
      fun _ e' => e' = e := by
  rw [Engine.dispatchM1ExactReady]
  refine runs_get (runs_failIf (fun _ => rfl) fun _ => ?_)
  refine runs_onScheduler
    (Scheduler.dispatchM1ExactReady_ensures h.scheduler expectedEpoch requests)
    (fun batch t ht => ?_) fun d _ => ?_
  · refine runs_orThrow_last (fun a ha => ?_) fun _ hx => absurd hx (by simp)
    obtain rfl := Except.ok.inj ha
    obtain ⟨hbatch, hsel, hok⟩ := ht
    obtain ⟨rfl, rfl⟩ := Prod.mk.inj hbatch
    exact ⟨rfl, h.launch hsel hok⟩
  · exact runs_orThrow_last (fun _ hx => absurd hx (by simp)) fun _ _ => rfl

end Engine

end EngineCore

end Ferric
