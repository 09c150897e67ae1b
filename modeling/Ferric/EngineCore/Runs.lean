import Ferric.Cache.Content
import Ferric.EngineCore.Completion
import Ferric.Lib.System

/-!
# Runs of the engine

Any sequence of calls with arbitrary arguments. Every reachable engine is `Sound`: it satisfies the
invariant, or a generation was exhausted and the engine is faulted with its pending batches in
order.

## Main results

* `Op.exec_spec` — what one call does to a healthy engine
* `sound_of_reachable` — the invariant of all runs
* `reachable_completion` — the engine does not fault by itself, and the completion check is exact
-/

namespace Ferric

namespace EngineCore

open Spec Cache Ferric.Action

/-- A call with its arguments. -/
inductive Op where
  | admission
  | append (request : RequestId) (tokenCount : ℕ)
  | share (source target : RequestId) (tokenCount : ℕ)
  | retire (request : RequestId)
  | reclaimOne
  | reincarnate
  | dispatchReady (outputLen : ℕ)
  | dispatchExact (expectedEpoch : ℕ) (requests : List RequestId)
  | complete (completion : ℕ) (accepted : List ℕ)

inductive OpError where
  | engine (error : EngineError)
  | dispatch (error : M1ExactDispatchError)
  | completion (failure : CompletionFailure)
  deriving DecidableEq

/-- The error reports a broken invariant. The errors of an exact dispatch cannot. -/
def OpError.IsViolation : OpError → Prop
  | .engine error => error.IsViolation
  | .dispatch _ => False
  | .completion failure => failure.error.IsViolation

inductive Reply where
  | done
  | request (request : Option RequestId)
  | batch (batch : Option DispatchBatch)
  | completed (count : ℕ)
  deriving DecidableEq

variable {C : ℕ}

/-- The result of a call as the result of an operation. -/
def label {ε α : Type} (f : ε → OpError) (g : α → Reply) (r : Outcome ε α × Engine C) :
    Outcome OpError Reply × Engine C := (mapErr f (r.1.map g), r.2)

/-- The call that is made. -/
def Op.exec (e : Engine C) : Op → Outcome OpError Reply × Engine C
  | .admission => label .engine (fun r => .request (some r)) (Engine.admitRequest.exec e)
  | .append request n =>
    label .engine (fun _ => .done) ((Engine.appendTentative request n).exec e)
  | .share source target n =>
    label .engine (fun _ => .done) ((Engine.shareCommittedPrefix source target n).exec e)
  | .retire request => label .engine (fun _ => .done) ((Engine.retire request).exec e)
  | .reclaimOne => label .engine .request (Engine.reclaimOne.exec e)
  | .reincarnate =>
    label .engine (fun r => .request (some r)) (Engine.reincarnateNextRetiring.exec e)
  | .dispatchReady outputLen => label .engine .batch ((Engine.dispatchReady outputLen).exec e)
  | .dispatchExact expectedEpoch requests =>
    label .dispatch (fun b => .batch (some b))
      ((Engine.dispatchM1ExactReady expectedEpoch requests).exec e)
  | .complete completion accepted =>
    label .completion .completed ((Engine.completeExact completion accepted).exec e)

/-- Engines of capacity `C`, constructed with any bounds, under any calls. -/
def engines (C : ℕ) : System (Engine C) Op where
  init e := ∃ pageCount pageTokens maxContextTokens,
    Engine.new C pageCount pageTokens maxContextTokens = .ok e
  step e op e' := e' = (op.exec e).2

/-! ### Pending batches -/

/-- The members of the pending batches, by their records. -/
def splitBatches : List BatchRecord → List RequestId → List DispatchBatch
  | [], _ => []
  | record :: rest, members =>
    ⟨record.epoch, members.take record.memberCount⟩ ::
      splitBatches rest (members.drop record.memberCount)

/-- The pending batches, oldest first, as the rings have them. -/
def Scheduler.pendingBatches (s : Scheduler C) : List DispatchBatch :=
  splitBatches (s.batches.toList C) (s.members.toList C)

/-- The batches after epoch `completed`. -/
def numbered (completed : ℕ) : List (List RequestId) → List DispatchBatch
  | [] => []
  | batch :: rest => ⟨completed + 1, batch⟩ :: numbered (completed + 1) rest

theorem splitBatches_records {completed : ℕ} {G : List (List RequestId)} :
    splitBatches (records completed G) G.flatten = numbered completed G := by
  induction G generalizing completed with
  | nil => rfl
  | cons g G ih =>
    rw [records, splitBatches, numbered, List.flatten_cons, List.take_left, List.drop_left, ih]

theorem Scheduler.Flight.pendingBatches_eq {s : Scheduler C} {G : List (List RequestId)}
    (h : s.Flight G) : s.pendingBatches = numbered s.completed G := by
  rw [Scheduler.pendingBatches, h.batch_ring.toList_eq, h.member_ring.toList_eq,
    splitBatches_records]

theorem head?_numbered {completed : ℕ} {G : List (List RequestId)} {batch : DispatchBatch} :
    (numbered completed G).head? = some batch ↔
      ∃ g G', G = g :: G' ∧ batch = ⟨completed + 1, g⟩ := by
  cases G with
  | nil => simp [numbered]
  | cons g G =>
    rw [numbered, List.head?_cons, Option.some_inj]
    constructor
    · rintro rfl
      exact ⟨g, G, rfl, rfl⟩
    · rintro ⟨_, _, heq, rfl⟩
      rw [(List.cons.inj heq).1]

/-! ### One call -/

namespace Engine

variable {e e' : Engine C} {F R : List ℕ} {G : List (List RequestId)}

/-- What a call that returned did. -/
def Returned (G : List (List RequestId)) (e e' : Engine C) : Op → Reply → Prop
  | .complete completion accepted, reply => ∃ g G', G = g :: G' ∧
      e.Completable g completion accepted ∧ reply = .completed g.length ∧
      Completed g accepted G' e e'
  | .dispatchReady _, reply => (reply = .batch none ∧ e' = e) ∨
      ∃ sel, reply = .batch (some ⟨e.scheduler.submitted + 1, sel⟩) ∧ Launched G sel e e'
  | .dispatchExact _ requests, reply =>
      reply = .batch (some ⟨e.scheduler.submitted + 1, requests⟩) ∧ Launched G requests e e'
  | .append request tokenCount, reply => reply = .done ∧ Worked G e e' ∧
      e'.scheduler = e.scheduler ∧ e.kv.Live request ∧
        KvPool.Appended request.slot tokenCount e.kv e'.kv
  | _, reply => (∀ batch, reply ≠ .batch batch) ∧ (∀ n, reply ≠ .completed n) ∧ Worked G e e'

/-- How a call that failed left the engine. -/
def Failed (G : List (List RequestId)) (e e' : Engine C) : Op → OpError → Prop
  | .complete completion accepted, error => ∃ f, error = .completion f ∧
      ((f.completion = some completion ∧ e' = e ∧
          ¬ ∃ g G', G = g :: G' ∧ e.Completable g completion accepted) ∨
        (f.completion = none ∧ ∃ g G', G = g :: G' ∧ e.Completable g completion accepted ∧
          Broken G' e e' ∧ Interrupted g accepted e e'))
  | _, _ => e' = e ∨ Broken G e e'

end Engine

open Engine

variable {e e' : Engine C} {F R : List ℕ} {G : List (List RequestId)}

theorem label_cases {ε α : Type} {f : ε → OpError} {g : α → Reply} {m : Action (Engine C) ε α}
    {Q : α → Engine C → Prop} {E : ε → Engine C → Prop} (h : Runs e m Q E)
    {P : Reply → Engine C → Prop} {D : OpError → Engine C → Prop} (hP : ∀ a e', Q a e' → P (g a) e')
    (hD : ∀ error e', E error e' → D (f error) e') :
    (∃ reply e', label f g (m.exec e) = (.ok reply, e') ∧ P reply e') ∨
      ∃ error e', label f g (m.exec e) = (.error (.err error), e') ∧ D error e' := by
  rcases h.cases with ⟨a, e', hx, hq⟩ | ⟨error, e', hx, he⟩
  · exact .inl ⟨g a, e', by rw [hx]; rfl, hP a e' hq⟩
  · exact .inr ⟨f error, e', by rw [hx]; rfl, hD error e' he⟩

theorem Op.exec_spec (h : e.Ok F R G) (op : Op) :
    (∃ reply e', op.exec e = (.ok reply, e') ∧ Returned G e e' op reply) ∨
      ∃ error e', op.exec e = (.error (.err error), e') ∧ ¬ error.IsViolation ∧
        Failed G e e' op error := by
  cases op with
  | admission =>
    exact label_cases (admitRequest_runs h) (fun _ _ hw => ⟨by simp, by simp, hw⟩) fun _ _ hf => hf
  | append request n =>
    exact label_cases (appendTentative_runs h request n) (fun _ _ hw => ⟨rfl, hw⟩)
      fun _ _ hf => hf.1
  | share source target n =>
    exact label_cases (shareCommittedPrefix_runs h source target n)
      (fun _ _ hw => ⟨by simp, by simp, hw.1⟩) fun _ _ hf => hf.1
  | retire request =>
    exact label_cases (retire_runs h request) (fun _ _ hw => ⟨by simp, by simp, hw⟩)
      fun _ _ hf => hf
  | reclaimOne =>
    exact label_cases (reclaimOne_runs h) (fun _ _ hw => ⟨by simp, by simp, hw⟩) fun _ _ hf => hf
  | reincarnate =>
    exact label_cases (reincarnateNextRetiring_runs h) (fun _ _ hw => ⟨by simp, by simp, hw⟩)
      fun _ _ hf => hf
  | dispatchReady outputLen =>
    refine label_cases (dispatchReady_runs h outputLen) (fun batch e' hb => ?_)
      fun _ _ hf => ⟨hf.1, .inl hf.2⟩
    rcases hb with ⟨rfl, rfl⟩ | ⟨sel, rfl, hlaunched⟩
    · exact .inl ⟨rfl, rfl⟩
    · exact .inr ⟨sel, rfl, hlaunched⟩
  | dispatchExact expectedEpoch requests =>
    refine label_cases (dispatchM1ExactReady_runs h expectedEpoch requests)
      (fun batch e' hb => ?_) fun _ _ hf => ⟨id, .inl hf⟩
    obtain ⟨rfl, hlaunched⟩ := hb
    exact ⟨rfl, hlaunched⟩
  | complete completion accepted =>
    refine label_cases (completeExact_runs h completion accepted) (fun count e' hq => ?_)
      fun f e' hf => ⟨hf.1, f, rfl, hf.2⟩
    obtain ⟨g, G', rfl, hc, rfl, hcompleted⟩ := hq
    exact ⟨g, G', rfl, hc, rfl, hcompleted⟩

/-- A faulted engine refuses every call. -/
theorem Op.exec_faulted (h : e.faulted = true) (op : Op) :
    ∃ error, op.exec e = (.error (.err error), e) := by
  have hguard : ∀ {α : Type} (f : Unit → Action (Engine C) EngineError α),
      (requireHealthy >>= f).exec e = (.error (.err .faulted), e) := by
    intro α f
    have hx : requireHealthy.exec e = (.error (.err .faulted), e) := by
      rw [requireHealthy, exec_bind, exec_get]
      simp only [h, Action.failIf]
      rfl
    rw [exec_bind, hx]
  cases op with
  | admission => exact ⟨_, by rw [Op.exec, Engine.admitRequest, hguard]; rfl⟩
  | append request n => exact ⟨_, by rw [Op.exec, appendTentative, hguard]; rfl⟩
  | share source target n => exact ⟨_, by rw [Op.exec, shareCommittedPrefix, hguard]; rfl⟩
  | retire request => exact ⟨_, by rw [Op.exec, Engine.retire, hguard]; rfl⟩
  | reclaimOne => exact ⟨_, by rw [Op.exec, Engine.reclaimOne, hguard]; rfl⟩
  | reincarnate => exact ⟨_, by rw [Op.exec, reincarnateNextRetiring, hguard]; rfl⟩
  | dispatchReady outputLen => exact ⟨_, by rw [Op.exec, Engine.dispatchReady, hguard]; rfl⟩
  | dispatchExact expectedEpoch requests =>
    refine ⟨.dispatch .faulted, ?_⟩
    rw [Op.exec, Engine.dispatchM1ExactReady, exec_bind, exec_get]
    simp only [h, Action.failIf, if_true]
    rfl
  | complete completion accepted =>
    refine ⟨.completion ⟨.faulted, some completion⟩, ?_⟩
    have hpre : e.preflightCompleteExact completion accepted = .error (.err .faulted) := by
      rw [preflightCompleteExact, Ferric.failIf, if_pos h]
      rfl
    rw [Op.exec, Engine.completeExact, exec_bind, exec_query, hpre]
    rfl

/-! ### All runs -/

/-- Every reachable engine, with its pending batches. -/
structure Engine.Sound (e : Engine C) (G : List (List RequestId)) : Prop where
  kv : e.kv.WellFormed
  flight : e.scheduler.Flight G
  live : ∀ x ∈ G.flatten, e.kv.Live x
  status : (e.faulted = true ∧ Exhausted e.kv) ∨ ∃ F R, e.Ok F R G

theorem Engine.Ok.sound (h : e.Ok F R G) : e.Sound G :=
  ⟨h.kv, h.scheduler.flight, fun _ hx => h.live_flying (List.mem_append_right _ hx),
    .inr ⟨F, R, h⟩⟩

theorem Engine.Broken.sound (hb : Broken G e e') (hlive : ∀ x ∈ G.flatten, e.kv.Live x) :
    e'.Sound G := by
  refine ⟨hb.kv, hb.flight, fun x hx => ?_, .inl ⟨hb.faulted, hb.exhausted⟩⟩
  obtain ⟨h1, h2, h3⟩ := hlive x hx
  rw [← hb.keeps.requests x hx] at h2 h3
  exact ⟨h1, h2, h3⟩

theorem new_ok {pageCount pageTokens maxContextTokens : UInt32}
    (h : Engine.new C pageCount pageTokens maxContextTokens = .ok e) :
    e.Ok (List.range C) [] [] := by
  rw [Engine.new] at h
  obtain ⟨s, hs, h⟩ := bind_eq_ok.mp h
  obtain ⟨p, hp, h⟩ := bind_eq_ok.mp h
  obtain rfl := Except.ok.inj h
  obtain ⟨hok, hslots⟩ := (Scheduler.new_ensures C).of_ok (mapErr_eq_ok.mp hs)
  obtain ⟨hwf, hempty, -⟩ := (newBounded_ensures _ _ _).of_ok (mapErr_eq_ok.mp hp)
  refine ⟨⟨hok, hwf, ⟨fun i _ => ?_, fun i _ => ?_⟩, rfl⟩, fun _ _ => rfl⟩
  · rw [hempty, hslots]
    simp [RequestSlot.empty, Slot.initial]
  · rw [hempty, hslots]
    rfl

theorem new_submitted {pageCount pageTokens maxContextTokens : UInt32}
    (h : Engine.new C pageCount pageTokens maxContextTokens = .ok e) :
    e.scheduler.submitted = 0 := by
  rw [Engine.new] at h
  obtain ⟨s, hs, h⟩ := bind_eq_ok.mp h
  obtain ⟨p, -, h⟩ := bind_eq_ok.mp h
  obtain rfl := Except.ok.inj h
  have hs := mapErr_eq_ok.mp hs
  rw [Scheduler.new] at hs
  obtain ⟨-, -, hs⟩ := bind_eq_ok.mp hs
  obtain ⟨-, -, hs⟩ := bind_eq_ok.mp hs
  obtain rfl := Except.ok.inj hs
  rfl

/-- What one call does to the pending batches. -/
inductive Engine.Transition (e : Engine C) (op : Op) :
    List (List RequestId) → List (List RequestId) → Prop
  | stay {G : List (List RequestId)} (keeps : Keeps G e (op.exec e).2)
      (completed : (op.exec e).2.scheduler.completed = e.scheduler.completed)
      (submitted : (op.exec e).2.scheduler.submitted = e.scheduler.submitted)
      (quiet : ∀ reply, (op.exec e).1 = .ok reply →
        (∀ batch, reply ≠ .batch (some batch)) ∧ ∀ n, reply ≠ .completed n) : Transition e op G G
  | launch {G : List (List RequestId)} {sel : List RequestId}
      (result : (op.exec e).1 = .ok (.batch (some ⟨e.scheduler.submitted + 1, sel⟩)))
      (kv : (op.exec e).2.kv = e.kv)
      (completed : (op.exec e).2.scheduler.completed = e.scheduler.completed)
      (submitted : (op.exec e).2.scheduler.submitted = e.scheduler.submitted + 1) :
      Transition e op G (G ++ [sel])
  | finish {g : List RequestId} {G : List (List RequestId)} {accepted : List ℕ}
      (op_eq : op = .complete (e.scheduler.completed + 1) accepted)
      (result : (op.exec e).1 = .ok (.completed g.length) ∨
        ((op.exec e).2.faulted = true ∧ ∃ error, (op.exec e).1 = .error (.err error)))
      (keeps : Keeps G e (op.exec e).2)
      (completed : (op.exec e).2.scheduler.completed = e.scheduler.completed + 1)
      (submitted : (op.exec e).2.scheduler.submitted = e.scheduler.submitted) :
      Transition e op (g :: G) G

/-- A call that changes nothing and reports an error. -/
theorem Engine.transition_of_refused {op : Op} {error : OpError}
    (hx : op.exec e = (.error (.err error), e)) : Transition e op G G := by
  refine .stay ?_ ?_ ?_ ?_ <;> rw [hx]
  · exact .refl G e
  · intro reply hr
    simp at hr

theorem Engine.transition_of_broken {op : Op} {error : OpError}
    (hx : op.exec e = (.error (.err error), e')) (hflight : e.scheduler.Flight G)
    (hb : Broken G e e') : Transition e op G G := by
  have h1 := hflight.submitted_eq
  have h2 := hb.flight.submitted_eq
  have h3 := hb.submitted
  refine .stay ?_ ?_ ?_ ?_ <;> rw [hx]
  · exact hb.keeps
  · show e'.scheduler.completed = _
    omega
  · exact h3
  · intro reply hr
    simp at hr

theorem Engine.transition_of_worked {op : Op} {reply : Reply} (hx : op.exec e = (.ok reply, e'))
    (hw : Worked G e e') (hquiet : (∀ batch, reply ≠ .batch (some batch)) ∧
      ∀ n, reply ≠ .completed n) : Transition e op G G := by
  obtain ⟨hkeeps, hcompleted, hsubmitted, -⟩ := hw
  refine .stay ?_ ?_ ?_ ?_ <;> rw [hx]
  · exact hkeeps
  · exact hcompleted
  · exact hsubmitted
  · rintro _ hr
    obtain rfl := Except.ok.inj hr
    exact hquiet

theorem Engine.transition_of_launched {op : Op} {sel : List RequestId}
    (hx : op.exec e = (.ok (.batch (some ⟨e.scheduler.submitted + 1, sel⟩)), e'))
    (hl : Launched G sel e e') : Transition e op G (G ++ [sel]) := by
  obtain ⟨hkv, hcompleted, hsubmitted, -⟩ := hl
  exact .launch (by rw [hx]) (by rw [hx]; exact hkv) (by rw [hx]; exact hcompleted)
    (by rw [hx]; exact hsubmitted)

/-- **One call** keeps an engine sound. -/
theorem Engine.Sound.step (h : e.Sound G) (op : Op) :
    ∃ G', (op.exec e).2.Sound G' ∧ Transition e op G G' := by
  rcases h.status with ⟨hf, -⟩ | ⟨F, R, hok⟩
  · obtain ⟨error, hx⟩ := op.exec_faulted hf
    refine ⟨G, ?_, transition_of_refused hx⟩
    rw [hx]
    exact h
  have hsnd : ∀ {r e'}, op.exec e = (r, e') → ∀ {G'}, e'.Sound G' → (op.exec e).2.Sound G' := by
    intro r e' hx G' hs
    rw [hx]
    exact hs
  rcases op.exec_spec hok with ⟨reply, e', hx, hr⟩ | ⟨error, e', hx, -, hf⟩
  · cases op with
    | complete completion accepted =>
      obtain ⟨g, G', rfl, hc, rfl, hdone⟩ := hr
      obtain ⟨F', R', hok'⟩ := hdone.ok
      refine ⟨G', hsnd hx hok'.sound, ?_⟩
      exact .finish (by rw [hc.epoch]) (.inl (by rw [hx])) (by rw [hx]; exact hdone.keeps)
        (by rw [hx]; exact hdone.completed) (by rw [hx]; exact hdone.submitted)
    | dispatchReady outputLen =>
      rcases hr with ⟨rfl, rfl⟩ | ⟨sel, rfl, hl⟩
      · exact ⟨G, hsnd hx h, transition_of_worked hx (.refl hok) (by simp)⟩
      · obtain ⟨-, -, -, F', R', hok'⟩ := id hl
        exact ⟨G ++ [sel], hsnd hx hok'.sound, transition_of_launched hx hl⟩
    | dispatchExact expectedEpoch requests =>
      obtain ⟨rfl, hl⟩ := hr
      obtain ⟨-, -, -, F', R', hok'⟩ := id hl
      exact ⟨G ++ [requests], hsnd hx hok'.sound, transition_of_launched hx hl⟩
    | append request n =>
      obtain ⟨rfl, hw, -⟩ := hr
      obtain ⟨-, -, -, F', R', hok'⟩ := id hw
      exact ⟨G, hsnd hx hok'.sound, transition_of_worked hx hw (by simp)⟩
    | _ =>
      obtain ⟨hbatch, hcompleted, hw⟩ := hr
      obtain ⟨-, -, -, F', R', hok'⟩ := id hw
      exact ⟨G, hsnd hx hok'.sound, transition_of_worked hx hw ⟨fun b => hbatch _, hcompleted⟩⟩
  · cases op with
    | complete completion accepted =>
      obtain ⟨f, -, ⟨-, rfl, -⟩ | ⟨-, g, G', rfl, hc, hb, -⟩⟩ := hf
      · exact ⟨G, hsnd hx h, transition_of_refused hx⟩
      · have h1 := h.flight.submitted_eq
        have h2 := hb.flight.submitted_eq
        have h3 := hb.submitted
        rw [List.length_cons] at h1
        refine ⟨G', hsnd hx (hb.sound fun x hx => h.live x (List.mem_append_right _ hx)), ?_⟩
        refine .finish (by rw [hc.epoch]) (.inr ⟨by rw [hx]; exact hb.faulted, error, by rw [hx]⟩)
          (by rw [hx]; exact hb.keeps) ?_ (by rw [hx]; exact h3)
        rw [hx]
        show e'.scheduler.completed = _
        omega
    | _ =>
      rcases hf with rfl | hb
      · exact ⟨G, hsnd hx h, transition_of_refused hx⟩
      · exact ⟨G, hsnd hx (hb.sound h.live), transition_of_broken hx h.flight hb⟩

theorem sound_of_reachable (h : (engines C).Reachable e) : ∃ G, e.Sound G := by
  refine System.Reachable.induction (I := fun e => ∃ G, e.Sound G) ?_ ?_ h
  · rintro e ⟨a, b, c, hnew⟩
    exact ⟨[], (new_ok hnew).sound⟩
  · rintro e op e' - ⟨G, hs⟩ rfl
    obtain ⟨G', hs', -⟩ := hs.step op
    exact ⟨G', hs'⟩

/-- The oldest batch can be completed, told by the states of its members. -/
theorem completable_iff (hs : e.Sound G) (hok : e.Ok F R G) (hfresh : ¬ Exhausted e.kv)
    {completion : ℕ} {accepted : List ℕ} :
    (∃ g G', G = g :: G' ∧ e.Completable g completion accepted) ↔
      ∃ batch, e.scheduler.pendingBatches.head? = some batch ∧
        completion = e.scheduler.completed + 1 ∧ accepted.length = batch.members.length ∧
        ∀ (k : ℕ) (x : RequestId) (a : ℕ), batch.members[k]? = some x →
          accepted[k]? = some a → e.state x = some .inFlight →
            (e.kv.requests x.slot).committedTokens + a ≤
              (e.kv.requests x.slot).residentTokens := by
  rw [hs.flight.pendingBatches_eq]
  simp only [head?_numbered]
  constructor
  · rintro ⟨g, G', rfl, hc⟩
    refine ⟨_, ⟨g, G', rfl, rfl⟩, hc.epoch, hc.length, fun k x a hx ha hstate => ?_⟩
    have hmem : x ∈ [] ++ (g :: G').flatten :=
      hok.scheduler.mem_flying (k := 0) rfl (List.mem_of_getElem? hx)
    rw [Engine.state, (hok.scheduler.state_flying hmem).1] at hstate
    exact (hc.settleable k x a hx ha).fits (Option.some.inj hstate)
  · rintro ⟨_, ⟨g, G', rfl, rfl⟩, hepoch, hlen, hfits⟩
    refine ⟨g, G', rfl, hepoch, hlen, fun k x a hx ha => ⟨fun hstate => ?_, fun _ => ?_⟩⟩
    all_goals
      have hmem : x ∈ [] ++ (g :: G').flatten :=
        hok.scheduler.mem_flying (k := 0) rfl (List.mem_of_getElem? hx)
    · refine hfits k x a hx ha ?_
      rw [Engine.state, (hok.scheduler.state_flying hmem).1, hstate]
    · have hl := hs.live x hmem
      have hne : x.generation ≠ u32Max := fun hmax =>
        hfresh (.inr ⟨x.slot, hl.1, hl.2.2.trans hmax⟩)
      have hlt := (hok.kv.request _ hl.1).generation_lt
      rw [hl.2.2] at hlt
      rw [u32Max] at hne ⊢
      omega

/-- **No fault by itself, exact completion.** As long as no generation has reached its maximum, a
reachable engine is not faulted and no call reports a violation. A completion succeeds exactly for
the next epoch, one result for each member of the oldest batch, and no more accepted tokens than the
members in flight have; otherwise it returns the authority and changes nothing. Success settles
every member of that batch, counts them, and touches nobody else. -/
theorem reachable_completion (h : (engines C).Reachable e) (hfresh : ¬ Exhausted e.kv) :
    e.faulted = false ∧
      (∀ op : Op, (∃ reply, (op.exec e).1 = .ok reply) ∨
        ∃ error, (op.exec e).1 = .error (.err error) ∧ ¬ error.IsViolation) ∧
      ∀ completion accepted,
        ((∃ count e', (Engine.completeExact completion accepted).exec e = (.ok count, e')) ↔
          ∃ batch, e.scheduler.pendingBatches.head? = some batch ∧
            completion = e.scheduler.completed + 1 ∧ accepted.length = batch.members.length ∧
            ∀ (k : ℕ) (x : RequestId) (a : ℕ), batch.members[k]? = some x →
              accepted[k]? = some a → e.state x = some .inFlight →
                (e.kv.requests x.slot).committedTokens + a ≤
                  (e.kv.requests x.slot).residentTokens) ∧
        (∀ count e', (Engine.completeExact completion accepted).exec e = (.ok count, e') →
          ∃ batch G, e.scheduler.pendingBatches.head? = some batch ∧
            count = batch.members.length ∧ Engine.Completed batch.members accepted G e e') ∧
        (∀ fault e', (Engine.completeExact completion accepted).exec e = (.error fault, e') →
          e' = e ∧ ∃ f, fault = .err f ∧ f.completion = some completion) ∧
        (e.preflightCompleteExact completion accepted = .ok () →
          ∃ count e', (Engine.completeExact completion accepted).exec e = (.ok count, e')) := by
  obtain ⟨G, hs⟩ := sound_of_reachable h
  rcases hs.status with ⟨-, hex⟩ | ⟨F, R, hok⟩
  · exact absurd hex hfresh
  refine ⟨hok.healthy, fun op => ?_, fun completion accepted => ?_⟩
  · rcases op.exec_spec hok with ⟨reply, e', hx, -⟩ | ⟨error, e', hx, hv, -⟩
    · exact .inl ⟨reply, by rw [hx]⟩
    · exact .inr ⟨error, by rw [hx], hv⟩
  -- without an exhausted generation the settlement cannot fail
  have hcases : (∃ count e', (Engine.completeExact completion accepted).exec e = (.ok count, e') ∧
        ∃ g G', G = g :: G' ∧ e.Completable g completion accepted ∧ count = g.length ∧
          Engine.Completed g accepted G' e e') ∨
      ∃ f, (Engine.completeExact completion accepted).exec e = (.error (.err f), e) ∧
        f.completion = some completion ∧
        ¬ ∃ g G', G = g :: G' ∧ e.Completable g completion accepted := by
    rcases (completeExact_runs hok completion accepted).cases with
      ⟨count, e', hx, hdone⟩ | ⟨f, e', hx, -, ⟨hsome, rfl, hno⟩ | ⟨-, g, G', hG, -, -, hw⟩⟩
    · exact .inl ⟨count, e', hx, hdone⟩
    · exact .inr ⟨f, hx, hsome, hno⟩
    · obtain ⟨j, x, hx, hw, -⟩ := hw
      have hmem : x ∈ G.flatten := by
        rw [hG, List.flatten_cons]
        exact List.mem_append_left _ (List.mem_of_getElem? hx)
      exact absurd (exhausted_of_worn hok.kv (hs.live x hmem) (.inr hw)) hfresh
  refine ⟨?_, fun count e' hx => ?_, fun fault e' hx => ?_, fun hpre => ?_⟩
  · rw [← completable_iff hs hok hfresh]
    rcases hcases with ⟨count, e', hx, g, G', hG, hc, -⟩ | ⟨f, hx, -, hno⟩
    · exact iff_of_true ⟨count, e', hx⟩ ⟨g, G', hG, hc⟩
    · refine iff_of_false ?_ hno
      rintro ⟨count, e', hx'⟩
      rw [hx] at hx'
      simp at hx'
  · rcases hcases with ⟨count', e'', hx', g, G', rfl, -, hcount, hdone⟩ | ⟨f, hx', -, -⟩
    · obtain ⟨hok', rfl⟩ := Prod.mk.inj (hx.symm.trans hx')
      obtain rfl := Except.ok.inj hok'
      refine ⟨⟨e.scheduler.completed + 1, g⟩, G', ?_, hcount, hdone⟩
      rw [hs.flight.pendingBatches_eq, head?_numbered]
      exact ⟨g, G', rfl, rfl⟩
    · rw [hx] at hx'
      simp at hx'
  · rcases hcases with ⟨count, e'', hx', -⟩ | ⟨f, hx', hsome, -⟩
    · rw [hx] at hx'
      simp at hx'
    · obtain ⟨hfault, rfl⟩ := Prod.mk.inj (hx.symm.trans hx')
      exact ⟨rfl, f, Except.error.inj hfault, hsome⟩
  · have hc := (preflightCompleteExact_ensures hok completion accepted).of_ok hpre
    rcases hcases with ⟨count, e', hx, -⟩ | ⟨f, hx, -, hno⟩
    · exact ⟨count, e', hx⟩
    · exact absurd hc hno

/-- A run of calls. -/
def Engine.applyAll (e : Engine C) (ops : List Op) : Engine C :=
  ops.foldl (fun e op => (op.exec e).2) e

theorem reachable_applyAll {ops : List Op} (h : (engines C).Reachable e) :
    (engines C).Reachable (e.applyAll ops) := by
  induction ops generalizing e with
  | nil => exact h
  | cons op ops ih => exact ih (.step h (a := op) rfl)

instance {p : KvPool} : Decidable (Exhausted p) :=
  inferInstanceAs (Decidable ((∃ k < p.pageLimit, (p.pages k).generation = u32Max) ∨
    ∃ i < maxRequestSlots, (p.requests i).generation = u32Max))

/-- Two request slots over four pages of two tokens. -/
def twoSlots : Engine 2 where
  scheduler := ⟨fun _ => .initial, ⟨id, 0, 2⟩, ⟨fun _ => 0, 0, 0⟩, ⟨fun _ => ⟨0, 0⟩, 0, 0⟩,
    ⟨fun _ => ⟨0, 0⟩, 0, 0⟩, 0, 0, 0, 0⟩
  kv := fourPages
  permits := fun _ => none
  faulted := false

theorem new_twoSlots : Engine.new 2 4 2 8 = .ok twoSlots := by
  rw [Engine.new, newBounded_four]
  rfl

/-- Request 0 is in flight with three tokens, request 1 retired before it was dispatched. -/
def dispatchedRun : Engine 2 :=
  twoSlots.applyAll [.admission, .admission, .append ⟨0, 1⟩ 3, .retire ⟨1, 1⟩, .dispatchReady 2]

theorem reachable_completion_dispatchedRun :
    dispatchedRun.faulted = false ∧
      (∃ count e', (Engine.completeExact 1 [2]).exec dispatchedRun = (.ok count, e') ∧
        count = 1) ∧
      ∀ fault e', (Engine.completeExact 2 [2]).exec dispatchedRun = (.error fault, e') →
        e' = dispatchedRun := by
  have hr : (engines 2).Reachable dispatchedRun :=
    reachable_applyAll (.init ⟨4, 2, 8, new_twoSlots⟩)
  have hfresh : ¬ Exhausted dispatchedRun.kv := by decide +kernel
  have hhead : dispatchedRun.scheduler.pendingBatches.head? = some ⟨1, [⟨0, 1⟩]⟩ := by
    decide +kernel
  have hcompleted : dispatchedRun.scheduler.completed = 0 := by decide +kernel
  have hfits : (dispatchedRun.kv.requests 0).committedTokens + 2 ≤
      (dispatchedRun.kv.requests 0).residentTokens := by decide +kernel
  generalize dispatchedRun = e at *
  obtain ⟨hhealthy, -, hcomplete⟩ := reachable_completion hr hfresh
  obtain ⟨hiff, hdone, -⟩ := hcomplete 1 [2]
  obtain ⟨count, e', hx⟩ : ∃ count e', (Engine.completeExact 1 [2]).exec e = (.ok count, e') := by
    refine hiff.mpr ⟨_, hhead, by rw [hcompleted], rfl, ?_⟩
    rintro (_ | k) x a hx ha -
    · obtain rfl := Option.some.inj hx
      obtain rfl := Option.some.inj ha
      exact hfits
    · simp at hx
  obtain ⟨batch, G, hbatch, hcount, -⟩ := hdone count e' hx
  obtain rfl := Option.some.inj (hhead.symm.trans hbatch)
  exact ⟨hhealthy, ⟨count, e', hx, hcount⟩,
    fun fault e' hx => ((hcomplete 2 [2]).2.2.1 fault e' hx).1⟩

end EngineCore

end Ferric
