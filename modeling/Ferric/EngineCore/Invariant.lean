import Ferric.EngineCore.System
import Ferric.EngineCore.Lifecycle
import Ferric.Cache.Operations

/-!
# The invariant of the engine

The scheduler and the pool are each in their own invariant, and they agree on which slots are
occupied and under which generation. A call either works for one slot that is not in flight, or
moves a whole batch; in both cases the chains of the other requests in flight stay as they are,
which `Keeps` says.

A fault happens only when the pool has run out of generations. It leaves `Broken` behind: the pool
and the pending batches are still in order.
-/

namespace Ferric

namespace EngineCore

open Spec Cache Ferric.Action

variable {C : ℕ}

/-- The errors that report a broken invariant. -/
def EngineError.IsViolation : EngineError → Prop
  | .invariantViolation => True
  | .scheduler error => error.IsViolation
  | .kv error => error.IsViolation
  | _ => False

/-- Scheduler and pool agree on the occupied slots and their generations. -/
structure Agree (s : Scheduler C) (p : KvPool) : Prop where
  live : ∀ i < C, (p.requests i).live = true ↔ (s.slots i).state ≠ .vacant
  generation : ∀ i < C, (p.requests i).generation = (s.slots i).generation

theorem Agree.setOne {s s' : Scheduler C} {p p' : KvPool} (h : Agree s p) {i : ℕ}
    (hs : ∀ j, j ≠ i → s'.slots j = s.slots j) (hp : ∀ j, j ≠ i → p'.requests j = p.requests j)
    (hlive : (p'.requests i).live = true ↔ (s'.slots i).state ≠ .vacant)
    (hgen : (p'.requests i).generation = (s'.slots i).generation) : Agree s' p' := by
  constructor
  · intro j hj
    by_cases hji : j = i
    · exact hji ▸ hlive
    · rw [hs j hji, hp j hji]
      exact h.live j hj
  · intro j hj
    by_cases hji : j = i
    · exact hji ▸ hgen
    · rw [hs j hji, hp j hji]
      exact h.generation j hj

/-- A generation has reached its maximum. -/
def Exhausted (p : KvPool) : Prop :=
  (∃ k < p.pageLimit, (p.pages k).generation = u32Max) ∨
    ∃ i < maxRequestSlots, (p.requests i).generation = u32Max

namespace Scheduler

/-- The pending batches are in order. -/
structure Flight (s : Scheduler C) (G : List (List RequestId)) : Prop where
  member_ring : s.members.Spells C G.flatten
  batch_ring : s.batches.Spells C (records s.completed G)
  nodup : (G.flatten.map RequestId.slot).Nodup
  slot_lt : ∀ x ∈ G.flatten, x.slot < C
  generation : ∀ x ∈ G.flatten, (s.slots x.slot).generation = x.generation
  state : ∀ x ∈ G.flatten, (s.slots x.slot).state ≠ .vacant
  submitted_eq : s.submitted = s.completed + G.length

variable {s s' : Scheduler C} {F R : List ℕ} {G : List (List RequestId)} {P : List RequestId}

theorem Ok.flight (h : s.Ok F R G P) : s.Flight G := by
  have hmem : ∀ x ∈ G.flatten, x ∈ P ++ G.flatten := fun x hx => List.mem_append_right _ hx
  refine ⟨h.member_ring, h.batch_ring, ?_, fun x hx => (h.flying x (hmem x hx)).1,
    fun x hx => (h.flying x (hmem x hx)).2, fun x hx => ?_, h.submitted_eq⟩
  · have := h.flying_nodup
    rw [List.map_append] at this
    exact this.of_append_right
  · rcases (h.state_flying (hmem x hx)).2 with hstate | hstate <;> rw [hstate] <;> simp

theorem Flight.touch (h : s.Flight G) {i : ℕ} (ht : Touches i s s')
    (hi : i ∉ G.flatten.map RequestId.slot) : s'.Flight G := by
  have hslot : ∀ x ∈ G.flatten, s'.slots x.slot = s.slots x.slot := fun x hx =>
    ht.others _ fun he => hi (he ▸ List.mem_map_of_mem hx)
  refine ⟨ht.members ▸ h.member_ring, ?_, h.nodup, h.slot_lt, fun x hx => ?_, fun x hx => ?_,
    by rw [ht.submitted, ht.completed, h.submitted_eq]⟩
  · rw [ht.batches, ht.completed]
    exact h.batch_ring
  · rw [hslot x hx]
    exact h.generation x hx
  · rw [hslot x hx]
    exact h.state x hx

end Scheduler

namespace Engine

/-- The invariant, with the members `P` of a completed batch still to be settled. -/
structure Core (e : Engine C) (F R : List ℕ) (G : List (List RequestId)) (P : List RequestId) :
    Prop where
  scheduler : e.scheduler.Ok F R G P
  kv : e.kv.WellFormed
  agree : Agree e.scheduler e.kv
  healthy : e.faulted = false

/-- The invariant between calls. -/
structure Ok (e : Engine C) (F R : List ℕ) (G : List (List RequestId)) : Prop extends
    Core e F R G [] where
  permits : ∀ k < C, e.permits k = none

/-- The chains of the batches `G` are as they were. -/
structure Keeps (G : List (List RequestId)) (e e' : Engine C) : Prop where
  geometry : KvPool.SameGeometry e.kv e'.kv
  requests : ∀ x ∈ G.flatten, e'.kv.requests x.slot = e.kv.requests x.slot

/-- The call returned, and the batches `G` are pending as before. -/
def Worked (G : List (List RequestId)) (e e' : Engine C) : Prop :=
  Keeps G e e' ∧ e'.scheduler.completed = e.scheduler.completed ∧
    e'.scheduler.submitted = e.scheduler.submitted ∧ ∃ F R, e'.Ok F R G

/-- The call faulted the engine, and the batches `G` are pending. -/
structure Broken (G : List (List RequestId)) (e e' : Engine C) : Prop where
  keeps : Keeps G e e'
  faulted : e'.faulted = true
  kv : e'.kv.WellFormed
  exhausted : Exhausted e'.kv
  flight : e'.scheduler.Flight G
  submitted : e'.scheduler.submitted = e.scheduler.submitted

/-- How a call that does not complete a batch may fail. -/
def Fails (G : List (List RequestId)) (e : Engine C) (error : EngineError) (e' : Engine C) : Prop :=
  ¬ error.IsViolation ∧ (e' = e ∨ Broken G e e')

variable {e e' : Engine C} {F F' R R' : List ℕ} {G G' : List (List RequestId)}
  {P P' : List RequestId} {α β ε δ : Type}

theorem Keeps.refl (G : List (List RequestId)) (e : Engine C) : Keeps G e e :=
  ⟨⟨rfl, rfl, rfl⟩, fun _ _ => rfl⟩

/-- A call for a slot that is not in flight keeps all batches. -/
theorem keeps_of_evolves {i : ℕ} (hev : KvPool.Evolves i e.kv e'.kv)
    (hi : i ∉ G.flatten.map RequestId.slot) : Keeps G e e' :=
  ⟨hev.geometry, fun _ hx => hev.others _ fun he => hi (he ▸ List.mem_map_of_mem hx)⟩

theorem Worked.refl (h : e.Ok F R G) : Worked G e e := ⟨.refl G e, rfl, rfl, F, R, h⟩

/-- A call that changed one slot, which is not in flight, in both parts. -/
theorem Ok.work (h : e.Ok F R G) {i : ℕ} (hi : i ∉ G.flatten.map RequestId.slot)
    (hs : e'.scheduler.Ok F' R' G []) (ht : Scheduler.Touches i e.scheduler e'.scheduler)
    (hp : e'.kv.WellFormed) (hev : KvPool.Evolves i e.kv e'.kv)
    (hlive : (e'.kv.requests i).live = true ↔ (e'.scheduler.slots i).state ≠ .vacant)
    (hgen : (e'.kv.requests i).generation = (e'.scheduler.slots i).generation)
    (hfaulted : e'.faulted = e.faulted) (hpermits : e'.permits = e.permits) : Worked G e e' :=
  ⟨keeps_of_evolves hev hi, ht.completed, ht.submitted, F', R',
    ⟨⟨hs, hp, h.agree.setOne ht.others hev.others hlive hgen, hfaulted.trans h.healthy⟩,
      hpermits ▸ h.permits⟩⟩

/-! ### Rules for the calls of the engine -/

theorem runs_requireHealthy {f : Unit → Action (Engine C) EngineError β}
    {Q : β → Engine C → Prop} {E : EngineError → Engine C → Prop} (h : e.faulted = false)
    (hf : Runs e (f ()) Q E) : Runs e (requireHealthy >>= f) Q E := by
  have hx : requireHealthy.exec e = (.ok (), e) := by
    rw [requireHealthy, exec_bind, exec_get]
    simp only [h, Action.failIf]
    rfl
  rw [Runs, exec_bind, hx]
  exact hf

theorem runs_orFault {g : δ → ε} {x : Except δ α} {f : α → Action (Engine C) ε β}
    {Q : β → Engine C → Prop} {E : ε → Engine C → Prop}
    (hok : ∀ a, x = .ok a → Runs e (f a) Q E)
    (herr : ∀ d, x = .error d → E (g d) { e with faulted := true }) :
    Runs e (orFault g x >>= f) Q E := by
  rw [Runs, exec_bind]
  cases x with
  | ok a => exact hok a rfl
  | error d => exact herr d rfl

theorem runs_orFault_last {g : δ → ε} {x : Except δ α} {Q : α → Engine C → Prop}
    {E : ε → Engine C → Prop} (hok : ∀ a, x = .ok a → Q a e)
    (herr : ∀ d, x = .error d → E (g d) { e with faulted := true }) :
    Runs e (orFault g x) Q E := by
  rw [← bind_pure (orFault g x)]
  exact runs_orFault (fun a ha => runs_pure (hok a ha)) herr

/-- A scheduler call. -/
theorem runs_onScheduler {op : Scheduler C → Outcome δ (α × Scheduler C)}
    {f : Except δ α → Action (Engine C) ε β} {Q : β → Engine C → Prop}
    {E : ε → Engine C → Prop} {D : δ → Prop} {S : α × Scheduler C → Prop}
    (h : Ensures (op e.scheduler) D S)
    (hok : ∀ a t, S (a, t) → Runs { e with scheduler := t } (f (.ok a)) Q E)
    (herr : ∀ d, D d → Runs e (f (.error d)) Q E) : Runs e (onScheduler op >>= f) Q E := by
  rw [onScheduler]
  exact runs_attempt h (fun a t _ hs => hok a t hs) fun d _ hd => herr d hd

/-- A pool call. -/
theorem runs_onKv {m : Action KvPool δ α} {f : Except δ α → Action (Engine C) ε β}
    {Q : β → Engine C → Prop} {E : ε → Engine C → Prop} {S : α → KvPool → Prop}
    {D : δ → KvPool → Prop} (h : Runs e.kv m S D)
    (hok : ∀ a t, S a t → Runs { e with kv := t } (f (.ok a)) Q E)
    (herr : ∀ d t, D d t → Runs { e with kv := t } (f (.error d)) Q E) :
    Runs e (onKv m >>= f) Q E := by
  rw [onKv]
  exact runs_onPart h (fun a t _ hs => hok a t hs) fun d t _ hd => herr d t hd

/-- A scheduler call that is known to return. -/
theorem runs_onScheduler_eq {op : Scheduler C → Outcome δ (α × Scheduler C)}
    {f : Except δ α → Action (Engine C) ε β} {Q : β → Engine C → Prop}
    {E : ε → Engine C → Prop} {a : α} {t : Scheduler C} (h : op e.scheduler = .ok (a, t))
    (hf : Runs { e with scheduler := t } (f (.ok a)) Q E) : Runs e (onScheduler op >>= f) Q E := by
  rw [Runs, exec_bind, onScheduler, exec_attempt, h]
  exact hf

/-- The state of a ready request, and its slot in the pool. -/
theorem Ok.ready_of_state (h : e.Ok F R G) {request : RequestId}
    (hstate : e.state request = some .ready) :
    request.slot < C ∧ (e.scheduler.slots request.slot).state = .ready ∧
      (e.scheduler.slots request.slot).generation = request.generation ∧
      request.slot ∉ G.flatten.map RequestId.slot := by
  rw [Engine.state, Scheduler.state] at hstate
  split at hstate
  · exact absurd hstate (by simp)
  rename_i hlt
  have hlt := not_le.mp hlt
  split at hstate
  · rename_i hgen
    split at hstate
    · exact absurd hstate (by simp)
    · have hready := Option.some.inj hstate
      exact ⟨hlt, hready, hgen, (h.scheduler.ready hlt hready).2.2.1⟩
  · exact absurd hstate (by simp)

/-- A slot that is occupied is live in the pool, under the same handle. -/
theorem Core.live (h : e.Core F R G P) {i : ℕ} (hi : i < C)
    (hstate : (e.scheduler.slots i).state ≠ .vacant) :
    e.kv.Live ⟨i, (e.scheduler.slots i).generation⟩ :=
  ⟨hi.trans_le h.scheduler.capacity_le, (h.agree.live i hi).mpr hstate, h.agree.generation i hi⟩

end Engine

/-! ### The pool with permits -/

variable {p : KvPool} {request : RequestId} {permit : KvQuiescencePermit}

theorem finalizeTentative_runs {accepted epoch : ℕ} (h : p.WellFormed) (hl : p.Live request)
    (hpermit : permit = ⟨request, .completedExact epoch⟩) :
    Runs p (finalizeTentative request accepted permit)
      (fun d p' => d = ⟨request, .completedExact epoch⟩ ∧ Finalized request.slot accepted p p')
      fun f p' => p' = p ∧ ¬ f.error.IsViolation ∧
        ((p.requests request.slot).committedTokens + accepted ≤
          (p.requests request.slot).residentTokens → p.Worn request.slot) := by
  subst hpermit
  rw [finalizeTentative]
  refine runs_failIf (fun hbad => ?_) fun _ => ?_
  · exact absurd hbad (by simp [KvQuiescenceOrigin.isCompleted])
  refine runs_onPart (finalizeTentativeKey_runs h request accepted) (fun _ p' _ hf => ?_)
    fun d p' _ hd => ?_
  · exact runs_orThrow (fun _ _ => runs_pure ⟨rfl, hf.2⟩) fun _ hx => absurd hx (by simp)
  · refine runs_orThrow (fun _ hx => absurd hx (by simp)) fun d' hx => ?_
    obtain rfl := Except.error.inj hx
    exact ⟨hd.1, hd.2.1, fun hle => hd.2.2 hl hle⟩

theorem releaseRequest_runs (h : p.WellFormed) (hl : p.Live request)
    (hpermit : permit.request = request) :
    Runs p (releaseRequest request permit)
      (fun d p' => d = ⟨request, permit.origin⟩ ∧ Released request.slot p p')
      fun f p' => p' = p ∧ ¬ f.error.IsViolation ∧
        (request.generation = u32Max ∨ p.Worn request.slot) := by
  rw [releaseRequest]
  refine runs_failIf (fun hbad => absurd hpermit hbad) fun _ => ?_
  refine runs_onPart (releaseRequestKey_runs h request) (fun _ p' _ hr => ?_) fun d p' _ hd => ?_
  · exact runs_orThrow (fun _ _ => runs_pure ⟨rfl, hr.2⟩) fun _ hx => absurd hx (by simp)
  · refine runs_orThrow (fun _ hx => absurd hx (by simp)) fun d' hx => ?_
    obtain rfl := Except.error.inj hx
    exact ⟨hd.1, hd.2.1, hd.2.2 hl⟩

/-- A release that went through was not of the last generation. -/
theorem generation_lt_of_released {i : ℕ} {p' : KvPool} (hr : Released i p p')
    (hi : i < maxRequestSlots) : (p.requests i).generation < u32Max := by
  have := (hr.wellFormed.request i hi).generation_lt
  rw [hr.generation] at this
  rw [u32Max]
  omega

/-- A failed release or finalization is a sign of exhaustion. -/
theorem exhausted_of_worn (h : p.WellFormed) (hl : p.Live request)
    (hw : request.generation = u32Max ∨ p.Worn request.slot) : Exhausted p := by
  rcases hw with hmax | hw
  · exact .inr ⟨request.slot, hl.1, hl.2.2.trans hmax⟩
  · exact .inl (hw.exists_page h hl.1)

end EngineCore

end Ferric
