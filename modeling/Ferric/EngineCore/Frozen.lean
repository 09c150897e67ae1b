import Ferric.EngineCore.Runs

/-!
# Batches in flight

Between the dispatch of a batch and the completion of its epoch, nothing that is done to its members
or to other requests changes their chains. `Flies` is a stretch of a run in which the completion of
the epoch neither succeeds nor faults the engine; `Aloft` is the invariant of such a stretch.

A completion that faults the engine may have settled some members already, so the stretch ends with
it, too.

## Main results

* `Aloft.step` — a call in such a stretch keeps the invariant
* `frozen_in_flight` — the guarantee for every member of every batch
-/

namespace Ferric

namespace EngineCore

open Spec Cache Ferric.Action Engine

variable {C : ℕ} {e e₀ e₁ e' : Engine C} {F R : List ℕ} {G : List (List RequestId)}

/-- The call is the exact completion of the epoch, and it succeeds or faults the engine. -/
def Op.Ends (epoch : ℕ) (e : Engine C) (op : Op) : Prop :=
  (∃ accepted, op = .complete epoch accepted) ∧
    ((∃ reply, (op.exec e).1 = .ok reply) ∨ (e.faulted = false ∧ (op.exec e).2.faulted = true))

/-- The engine after calls that do not end the epoch. -/
inductive Flies (epoch : ℕ) (e : Engine C) : Engine C → Prop
  | refl : Flies epoch e e
  | step {e' : Engine C} {op : Op} (h : Flies epoch e e') (hop : ¬ op.Ends epoch e') :
    Flies epoch e (op.exec e').2

/-- The batch `sel` of `epoch` is pending, and the chains of its members are those of `e`. -/
structure Aloft (epoch : ℕ) (sel : List RequestId) (e e' : Engine C)
    (G : List (List RequestId)) (k : ℕ) : Prop where
  sound : e'.Sound G
  batch : G[k]? = some sel
  epoch_eq : e'.scheduler.completed + 1 + k = epoch
  geometry : KvPool.SameGeometry e.kv e'.kv
  requests : ∀ x ∈ sel, e'.kv.requests x.slot = e.kv.requests x.slot

variable {epoch k : ℕ} {sel : List RequestId} {x : RequestId}

theorem Aloft.mem_flatten (h : Aloft epoch sel e₁ e G k) (hx : x ∈ sel) : x ∈ G.flatten :=
  List.mem_flatten.mpr ⟨sel, List.mem_of_getElem? h.batch, hx⟩

/-- A call that does not end the epoch leaves the batch in flight. -/
theorem Aloft.step (h : Aloft epoch sel e₁ e G k) {op : Op} (hop : ¬ op.Ends epoch e) :
    ∃ G' k', Aloft epoch sel e₁ (op.exec e).2 G' k' := by
  obtain ⟨G', hs, ht⟩ := h.sound.step op
  cases ht with
  | stay hkeeps hcompleted _ _ =>
    refine ⟨G, k, hs, h.batch, ?_, h.geometry.trans hkeeps.geometry, fun x hx => ?_⟩
    · rw [hcompleted]
      exact h.epoch_eq
    · exact (hkeeps.requests x (h.mem_flatten hx)).trans (h.requests x hx)
  | @launch _ sel' _ hkv hcompleted _ =>
    refine ⟨G ++ [sel'], k, hs, ?_, ?_, ?_, fun x hx => ?_⟩
    · rw [List.getElem?_append_left (List.getElem?_eq_some_iff.mp h.batch).1]
      exact h.batch
    · rw [hcompleted]
      exact h.epoch_eq
    · rw [hkv]
      exact h.geometry
    · rw [hkv]
      exact h.requests x hx
  | @finish g _ accepted hop_eq hresult hkeeps hcompleted _ =>
    have hepoch := h.epoch_eq
    cases k with
    | zero =>
      -- the oldest batch is the one of this epoch
      refine absurd ⟨⟨accepted, by rw [hop_eq]; congr 1⟩, ?_⟩ hop
      rcases hresult with hok | ⟨hfault, error, herr⟩
      · exact .inl ⟨_, hok⟩
      · refine .inr ⟨?_, hfault⟩
        rcases h.sound.status with ⟨hf, -⟩ | ⟨F, R, hok⟩
        · obtain ⟨error, hx⟩ := op.exec_faulted hf
          rw [hx] at hcompleted
          exact absurd hcompleted (Nat.succ_ne_self _).symm
        · exact hok.healthy
    | succ k =>
      have hsel : G'[k]? = some sel := h.batch
      refine ⟨G', k, hs, hsel, ?_, h.geometry.trans hkeeps.geometry, fun x hx => ?_⟩
      · rw [hcompleted]
        omega
      · refine (hkeeps.requests x ?_).trans (h.requests x hx)
        exact List.mem_flatten.mpr ⟨sel, List.mem_of_getElem? hsel, hx⟩

theorem Flies.aloft (hf : Flies epoch e₁ e) (h : Aloft epoch sel e₁ e₁ G k) :
    ∃ G' k', Aloft epoch sel e₁ e G' k' := by
  induction hf with
  | refl => exact ⟨G, k, h⟩
  | step _ hop ih =>
    obtain ⟨G', k', h'⟩ := ih
    exact h'.step hop

/-- A dispatch puts its batch in flight and leaves the pool alone. -/
theorem aloft_of_dispatch (h : (engines C).Reachable e₀) {op : Op} {batch : DispatchBatch}
    (hx : op.exec e₀ = (.ok (.batch (some batch)), e₁)) :
    e₁.kv = e₀.kv ∧ ∃ G k, Aloft batch.epoch batch.members e₁ e₁ G k := by
  obtain ⟨G, hs⟩ := sound_of_reachable h
  obtain ⟨G', hs', ht⟩ := hs.step op
  have hflight := hs.flight.submitted_eq
  cases ht with
  | stay _ _ _ hquiet => exact absurd rfl ((hquiet _ (by rw [hx])).1 batch)
  | @launch _ sel hresult hkv hcompleted _ =>
    rw [hx] at hresult hkv hcompleted hs'
    obtain rfl : batch = ⟨e₀.scheduler.submitted + 1, sel⟩ := by simpa using hresult
    refine ⟨hkv, G ++ [sel], G.length, hs', by simp, ?_, ⟨rfl, rfl, rfl⟩, fun _ _ => rfl⟩
    show e₁.scheduler.completed + 1 + G.length = e₀.scheduler.submitted + 1
    have hcompleted : e₁.scheduler.completed = e₀.scheduler.completed := hcompleted
    omega
  | finish _ hresult _ _ _ =>
    rw [hx] at hresult
    rcases hresult with hr | ⟨-, error, hr⟩ <;> simp at hr

/-! ### Numbered batches -/

theorem mem_numbered {completed : ℕ} {G : List (List RequestId)} {batch : DispatchBatch} :
    batch ∈ numbered completed G ↔
      ∃ k, G[k]? = some batch.members ∧ batch.epoch = completed + 1 + k := by
  induction G generalizing completed with
  | nil => simp [numbered]
  | cons g G ih =>
    rw [numbered, List.mem_cons, ih]
    constructor
    · rintro (rfl | ⟨k, hk, hepoch⟩)
      · exact ⟨0, rfl, rfl⟩
      · exact ⟨k + 1, hk, by omega⟩
    · rintro ⟨_ | k, hk, hepoch⟩
      · left
        obtain rfl := Option.some.inj hk
        rw [Nat.add_zero] at hepoch
        rw [← hepoch]
      · exact .inr ⟨k, hk, by omega⟩

/-- Two pending batches with a common slot are the same. -/
theorem index_eq_of_common_slot {i j : ℕ} {g g' : List RequestId} {y : RequestId}
    (hnd : (G.flatten.map RequestId.slot).Nodup) (hi : G[i]? = some g) (hj : G[j]? = some g')
    (hx : x ∈ g) (hy : y ∈ g') (hslot : x.slot = y.slot) : i = j := by
  induction G generalizing i j with
  | nil => simp at hi
  | cons h G ih =>
    rw [List.flatten_cons, List.map_append, List.nodup_append] at hnd
    obtain ⟨-, hnd', hapart⟩ := hnd
    have hmem : ∀ {k : ℕ} {l : List RequestId} {z : RequestId}, G[k]? = some l → z ∈ l →
        z.slot ∈ G.flatten.map RequestId.slot := fun hk hz =>
      List.mem_map_of_mem (List.mem_flatten.mpr ⟨_, List.mem_of_getElem? hk, hz⟩)
    cases i with
    | zero =>
      obtain rfl := Option.some.inj hi
      cases j with
      | zero => rfl
      | succ j => exact absurd hslot (hapart _ (List.mem_map_of_mem hx) _ (hmem hj hy))
    | succ i =>
      cases j with
      | zero =>
        obtain rfl := Option.some.inj hj
        exact absurd hslot.symm (hapart _ (List.mem_map_of_mem hy) _ (hmem hi hx))
      | succ j => exact congrArg (· + 1) (ih hnd' hi hj)

/-! ### The order of the epochs -/

/-- An engine with the epochs that were dispatched and completed so far. -/
structure Logged (C : ℕ) where
  engine : Engine C
  dispatched : List ℕ
  completed : List ℕ

/-- The epoch of the batch that a call dispatched. -/
def dispatchedBy : Outcome OpError Reply → List ℕ
  | .ok (.batch (some batch)) => [batch.epoch]
  | _ => []

/-- The epoch that a call completed. -/
def Op.completedBy : Op → Outcome OpError Reply → List ℕ
  | .complete completion _, .ok _ => [completion]
  | _, _ => []

/-- A call is made and logged. -/
def Logged.apply (g : Logged C) (op : Op) : Logged C where
  engine := (op.exec g.engine).2
  dispatched := g.dispatched ++ dispatchedBy (op.exec g.engine).1
  completed := g.completed ++ op.completedBy (op.exec g.engine).1

def loggedEngines (C : ℕ) : System (Logged C) Op where
  init g := (engines C).init g.engine ∧ g.dispatched = [] ∧ g.completed = []
  step g op g' := g' = g.apply op

theorem reachable_engine {g : Logged C} (hg : (loggedEngines C).Reachable g) :
    (engines C).Reachable g.engine := by
  refine System.Reachable.induction (I := fun g => (engines C).Reachable g.engine) ?_ ?_ hg
  · exact fun g hg => .init hg.1
  · rintro g op g' - ih rfl
    exact .step ih (a := op) rfl

theorem exec_complete_ok {completion : ℕ} {accepted : List ℕ} {reply : Reply}
    (h : (Op.exec e (.complete completion accepted)).1 = .ok reply) :
    ∃ n, reply = .completed n := by
  rw [Op.exec, label, mapErr_eq_ok] at h
  rcases hx : ((Engine.completeExact completion accepted).exec e).1 with _ | n <;> rw [hx] at h
  · exact absurd h (by simp [Except.map])
  · exact ⟨n, (Except.ok.inj h).symm⟩

/-- Only a reply that counts members completes an epoch. -/
theorem completedBy_of_not_completed {op : Op} {r : Outcome OpError Reply}
    (hr : (op.exec e).1 = r) (h : ∀ n, r ≠ .ok (.completed n)) : op.completedBy r = [] := by
  cases op with
  | complete completion accepted =>
    rcases r with _ | reply
    · rfl
    · obtain ⟨n, rfl⟩ := exec_complete_ok hr
      exact absurd rfl (h n)
  | _ => rfl

/-- The logs are initial segments of the epochs. -/
structure Logged.Ordered (g : Logged C) (G : List (List RequestId)) : Prop where
  sound : g.engine.Sound G
  dispatched : g.dispatched = List.range' 1 g.engine.scheduler.submitted
  completed : g.completed = List.range' 1 g.completed.length
  le : g.completed.length ≤ g.engine.scheduler.completed
  eq : g.engine.faulted = false → g.completed.length = g.engine.scheduler.completed

theorem Logged.Ordered.apply {g : Logged C} (h : g.Ordered G) (op : Op) :
    ∃ G', (g.apply op).Ordered G' := by
  obtain ⟨G', hs, ht⟩ := h.sound.step op
  -- a faulted engine stays faulted
  have hhealthy : (op.exec g.engine).2.faulted = false → g.engine.faulted = false := by
    intro hf
    by_contra hne
    obtain ⟨error, hx⟩ := op.exec_faulted (by simpa using hne)
    rw [hx] at hf
    exact hne hf
  cases ht with
  | stay _ hcompleted hsubmitted hquiet =>
    have hnone : dispatchedBy (op.exec g.engine).1 = [] := by
      rcases hr : (op.exec g.engine).1 with _ | (_ | _ | _ | _)
      case ok.batch batch =>
        cases batch with
        | none => rfl
        | some batch => exact absurd rfl ((hquiet _ hr).1 batch)
      all_goals rfl
    have hnone' : op.completedBy (op.exec g.engine).1 = [] :=
      completedBy_of_not_completed rfl fun n hr => absurd rfl ((hquiet _ hr).2 n)
    refine ⟨G, hs, ?_, ?_, ?_, fun hf => ?_⟩
    all_goals simp only [Logged.apply, hnone, hnone', List.append_nil]
    · rw [hsubmitted]
      exact h.dispatched
    · exact h.completed
    · rw [hcompleted]
      exact h.le
    · rw [hcompleted]
      exact h.eq (hhealthy hf)
  | @launch _ sel hresult hkv hcompleted hsubmitted =>
    have hnone' : op.completedBy (op.exec g.engine).1 = [] :=
      completedBy_of_not_completed rfl fun n hr => by rw [hresult] at hr; simp at hr
    refine ⟨G ++ [sel], hs, ?_, ?_, ?_, fun hf => ?_⟩
    all_goals simp only [Logged.apply, hnone', List.append_nil]
    · rw [hresult, hsubmitted, List.range'_concat, h.dispatched, Nat.add_comm 1]
      simp [dispatchedBy]
    · exact h.completed
    · rw [hcompleted]
      exact h.le
    · rw [hcompleted]
      exact h.eq (hhealthy hf)
  | @finish g' _ accepted hop_eq hresult hkeeps hcompleted hsubmitted =>
    rcases hresult with hr | ⟨hfault, error, hr⟩
    · have hlen : g.completed.length = g.engine.scheduler.completed := by
        refine h.eq (Bool.eq_false_iff.mpr fun hf => ?_)
        obtain ⟨error, hx⟩ := op.exec_faulted hf
        rw [hx] at hr
        simp at hr
      have hone : op.completedBy (op.exec g.engine).1 = [g.engine.scheduler.completed + 1] := by
        rw [hr, hop_eq]
        rfl
      have hnone : dispatchedBy (op.exec g.engine).1 = [] := by
        rw [hr]
        rfl
      refine ⟨G', hs, ?_, ?_, ?_, fun _ => ?_⟩
      all_goals simp only [Logged.apply, hone, hnone, List.append_nil]
      · rw [hsubmitted]
        exact h.dispatched
      · rw [List.length_append, List.length_singleton, List.range'_concat, ← h.completed, hlen]
        simp [Nat.add_comm]
      · rw [List.length_append, List.length_singleton, hcompleted, hlen]
      · rw [List.length_append, List.length_singleton, hcompleted, hlen]
    · have hnone : dispatchedBy (op.exec g.engine).1 = [] := by
        rw [hr]
        rfl
      have hnone' : op.completedBy (op.exec g.engine).1 = [] :=
        completedBy_of_not_completed rfl fun n hx => by rw [hr] at hx; simp at hx
      refine ⟨G', hs, ?_, ?_, ?_, fun hf => ?_⟩
      all_goals simp only [Logged.apply, hnone, hnone', List.append_nil]
      · rw [hsubmitted]
        exact h.dispatched
      · exact h.completed
      · rw [hcompleted]
        exact h.le.trans (Nat.le_succ _)
      · exact absurd (hfault.symm.trans hf) (by simp)

theorem ordered_of_reachable {g : Logged C} (hg : (loggedEngines C).Reachable g) :
    ∃ G, g.Ordered G := by
  refine System.Reachable.induction (I := fun g => ∃ G, g.Ordered G) ?_ ?_ hg
  · rintro g ⟨⟨a, b, c, hnew⟩, hd, hc⟩
    have hok := new_ok hnew
    refine ⟨[], hok.sound, ?_, ?_, ?_, fun _ => ?_⟩
    · have hz : g.engine.scheduler.submitted = 0 := new_submitted hnew
      rw [hd, hz]
      rfl
    all_goals rw [hc]
    · rfl
    · exact Nat.zero_le _
    · have h1 := hok.scheduler.submitted_eq
      have h2 : g.engine.scheduler.submitted = 0 := new_submitted hnew
      rw [List.length_nil] at h1 ⊢
      omega
  · rintro g op g' - ⟨G, h⟩ rfl
    exact h.apply op

/-- What holds of the member `x` of a batch while the batch is in flight, compared with the engine
`e₀` that dispatched it. -/
structure Frozen (e₀ e : Engine C) (batch : DispatchBatch) (x : RequestId) : Prop where
  occupied : ∃ state, e.state x = some state
  live : e.kv.Live x
  chain : e.kv.requests x.slot = e₀.kv.requests x.slot
  pages : ∀ i < (e.kv.requests x.slot).pageCount,
    (e.kv.pages ((e.kv.requests x.slot).pages i).index).generation =
        (e₀.kv.pages ((e.kv.requests x.slot).pages i).index).generation ∧
      (e.kv.pages ((e.kv.requests x.slot).pages i).index).initializedTokens =
        (e₀.kv.pages ((e.kv.requests x.slot).pages i).index).initializedTokens
  not_free : ∀ i < (e.kv.requests x.slot).pageCount, ∀ j < e.kv.freeLen,
    e.kv.freeStack j ≠ ((e.kv.requests x.slot).pages i).index
  not_handed_out : ∀ request n e', (Op.append request n).exec e = (.ok .done, e') →
    ∀ j < (e'.kv.requests request.slot).pageCount, (e.kv.requests request.slot).pageCount ≤ j →
      ∀ i < (e.kv.requests x.slot).pageCount,
        ((e'.kv.requests request.slot).pages j).index ≠ ((e.kv.requests x.slot).pages i).index
  pending : batch ∈ e.scheduler.pendingBatches
  only : ∀ other ∈ e.scheduler.pendingBatches, (∃ y ∈ other.members, y.slot = x.slot) →
    other = batch
  first : ∀ op : Op, (op.exec e).2.kv.requests x.slot ≠ e.kv.requests x.slot →
    op.Ends batch.epoch e
  next : ∀ op : Op, op.Ends batch.epoch e → e.scheduler.pendingBatches.head? = some batch

theorem Aloft.frozen {batch : DispatchBatch} (h₀ : e₀.kv.WellFormed) (hkv : e₁.kv = e₀.kv)
    (h : Aloft batch.epoch batch.members e₁ e G k) (hx : x ∈ batch.members) :
    Frozen e₀ e batch x := by
  have hmem := h.mem_flatten hx
  have hl := h.sound.live x hmem
  have hs := hl.1
  have hwf := h.sound.kv
  have hchain : e.kv.requests x.slot = e₀.kv.requests x.slot := by
    rw [h.requests x hx, hkv]
  have hgeometry : KvPool.SameGeometry e₀.kv e.kv := hkv ▸ h.geometry
  have hpending := h.sound.flight.pendingBatches_eq
  have hbatch : batch ∈ e.scheduler.pendingBatches := by
    rw [hpending, mem_numbered]
    exact ⟨k, h.batch, h.epoch_eq.symm⟩
  refine ⟨?_, hl, hchain, fun i hi => ?_, fun i hi j hj he => ?_, fun request n e' hx' => ?_,
    hbatch,
    fun other hother hcommon => ?_, fun op hne => ?_, fun op hends => ?_⟩
  · have hlt := h.sound.flight.slot_lt x hmem
    have hgen := h.sound.flight.generation x hmem
    have hstate := h.sound.flight.state x hmem
    refine ⟨(e.scheduler.slots x.slot).state, ?_⟩
    rw [Engine.state, Scheduler.state, if_neg (not_le.mpr hlt), if_pos hgen]
    split
    · exact absurd ‹_› hstate
    · rfl
  · -- both pools agree with the same chain
    have h1 := hwf.serves x.slot hs i hi
    have h2 := h₀.serves x.slot hs i (hchain ▸ hi)
    rw [hchain] at h1 ⊢
    exact ⟨h1.generation.trans h2.generation.symm, by
      rw [h1.initialized, h2.initialized, hgeometry.1]⟩
  · have hnot := (hwf.serves x.slot hs i hi).not_free
    have hlt := hwf.index_lt x.slot hs i hi
    exact hnot ((hwf.page _ hlt).bitmap.mpr ((hwf.stack.mem_iff _ hlt).mpr ⟨j, hj, he⟩))
  · intro j hj hle i hi he
    rcases h.sound.status with ⟨hf, -⟩ | ⟨F, R, hok⟩
    · obtain ⟨error, hx''⟩ := Op.exec_faulted hf (.append request n)
      rw [hx'] at hx''
      simp at hx''
    rcases Op.exec_spec hok (.append request n) with ⟨reply, e'', hx'', hr⟩ | ⟨error, e'', hx'', -⟩
    · obtain ⟨-, rfl⟩ := Prod.mk.inj (hx'.symm.trans hx'')
      obtain ⟨-, -, -, -, happ⟩ := hr
      refine (hwf.serves x.slot hs i hi).not_free ?_
      rw [← he]
      exact happ.fresh j hj hle
    · rw [hx'] at hx''
      simp at hx''
  · obtain ⟨y, hy, hslot⟩ := hcommon
    rw [hpending, mem_numbered] at hother
    obtain ⟨k', hk', hepoch⟩ := hother
    have heq := index_eq_of_common_slot h.sound.flight.nodup h.batch hk' hx hy hslot.symm
    subst heq
    have hmembers : other.members = batch.members := Option.some.inj (hk'.symm.trans h.batch)
    have hepoch' : other.epoch = batch.epoch := hepoch.trans h.epoch_eq
    cases other
    cases batch
    simp only at hmembers hepoch'
    rw [hmembers, hepoch']
  · by_contra hop
    obtain ⟨G', k', h'⟩ := h.step hop
    exact hne ((h'.requests x hx).trans (h.requests x hx).symm)
  · obtain ⟨⟨accepted, rfl⟩, hends⟩ := hends
    rcases h.sound.status with ⟨hf, -⟩ | ⟨F, R, hok⟩
    · obtain ⟨error, hx'⟩ := Op.exec_faulted hf (.complete batch.epoch accepted)
      rw [hx'] at hends
      rcases hends with ⟨reply, hr⟩ | ⟨hhealthy, -⟩
      · simp at hr
      · exact absurd (hf.symm.trans hhealthy) (by simp)
    have holdest : ∀ {g G'}, G = g :: G' → e.Completable g batch.epoch accepted →
        e.scheduler.pendingBatches.head? = some batch := by
      intro g G' hG hc
      rw [hpending, head?_numbered]
      have hk : k = 0 := by
        have h1 := h.epoch_eq
        have h2 := hc.epoch
        omega
      subst hk
      have hg := h.batch
      rw [hG] at hg
      refine ⟨g, G', hG, ?_⟩
      rw [← hc.epoch, Option.some.inj hg]
    rcases Op.exec_spec hok (.complete batch.epoch accepted) with
      ⟨_, e', hx', g, G', hG, hc, -⟩ | ⟨_, e', hx', -, f, -, hf⟩
    · exact holdest hG hc
    · rw [hx'] at hends
      rcases hf with ⟨-, rfl, -⟩ | ⟨-, g, G', hG, hc, -⟩
      · rcases hends with ⟨reply, hr⟩ | ⟨hhealthy, hfault⟩
        · simp at hr
        · exact absurd (hfault.symm.trans hhealthy) (by simp)
      · exact holdest hG hc

/-- **In flight means frozen.** From the dispatch of a batch until the completion of its epoch
succeeds or faults the engine, its members stay as they were. The epochs are completed in the order
in which they were dispatched, each once. -/
theorem frozen_in_flight {g : Logged C} (hg : (loggedEngines C).Reachable g) :
    (∀ (op : Op) (batch : DispatchBatch) (e₁ e : Engine C),
        op.exec g.engine = (.ok (.batch (some batch)), e₁) → Flies batch.epoch e₁ e →
        ∀ x ∈ batch.members, Frozen g.engine e batch x) ∧
      g.dispatched.Nodup ∧ g.completed <+: g.dispatched := by
  have hr := reachable_engine hg
  refine ⟨fun op batch e₁ e hx hf x hmem => ?_, ?_⟩
  · obtain ⟨hkv, G, k, h⟩ := aloft_of_dispatch hr hx
    obtain ⟨G', k', h'⟩ := hf.aloft h
    obtain ⟨G₀, hs⟩ := sound_of_reachable hr
    exact h'.frozen hs.kv hkv hmem
  · obtain ⟨G, h⟩ := ordered_of_reachable hg
    have hle := h.sound.flight.submitted_eq
    have hcompleted := h.le
    rw [h.dispatched, h.completed]
    refine ⟨List.nodup_range', ?_⟩
    obtain ⟨d, hd⟩ : ∃ d, g.engine.scheduler.submitted = g.completed.length + d :=
      ⟨_, (Nat.add_sub_of_le (by omega)).symm⟩
    rw [hd, ← List.range'_append_1]
    exact List.prefix_append _ _

theorem loggedEngines_applyAll {g : Logged C} {ops : List Op}
    (hg : (loggedEngines C).Reachable g) :
    (loggedEngines C).Reachable (ops.foldl Logged.apply g) := by
  induction ops generalizing g with
  | nil => exact hg
  | cons op ops ih => exact ih (.step hg (a := op) rfl)

/-- One request with three tokens waits for its dispatch. -/
def waitingRun : Logged 2 :=
  [.admission, .append ⟨0, 1⟩ 3].foldl Logged.apply ⟨twoSlots, [], []⟩

/-- The request retires while it is in flight. -/
theorem frozen_in_flight_waitingRun : ∃ e₁,
    (Op.dispatchReady 2).exec waitingRun.engine = (.ok (.batch (some ⟨1, [⟨0, 1⟩]⟩)), e₁) ∧
      Frozen waitingRun.engine ((Op.retire ⟨0, 1⟩).exec e₁).2 ⟨1, [⟨0, 1⟩]⟩ ⟨0, 1⟩ := by
  have hg : (loggedEngines 2).Reachable waitingRun :=
    loggedEngines_applyAll (.init ⟨⟨4, 2, 8, new_twoSlots⟩, rfl, rfl⟩)
  have hreply : ((Op.dispatchReady 2).exec waitingRun.engine).1 =
      .ok (.batch (some ⟨1, [⟨0, 1⟩]⟩)) := by rfl
  generalize waitingRun = g at hg hreply ⊢
  have hx : (Op.dispatchReady 2).exec g.engine =
      (.ok (.batch (some ⟨1, [⟨0, 1⟩]⟩)), ((Op.dispatchReady 2).exec g.engine).2) :=
    Prod.ext hreply rfl
  refine ⟨_, hx, (frozen_in_flight hg).1 _ _ _ _ hx (.step .refl ?_) _ (by simp)⟩
  rintro ⟨⟨accepted, heq⟩, -⟩
  simp at heq

end EngineCore

end Ferric
