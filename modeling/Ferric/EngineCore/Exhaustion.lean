import Ferric.EngineCore.Frozen

/-!
# A completion that faults

The checks before a completion do not look at the generations of the pages. When the page of the
second member is in its last generation, the first member is settled before the second one fails, so
a completion that does not succeed can change a chain that is in flight.

Such an engine is reached by appending a token to one request and completing it with none accepted,
over and over: every round gives the page back under its next generation, and the epochs stay behind
the generations.
-/

namespace Ferric

namespace EngineCore

open Spec Cache Ferric.Action Engine

/-- The engine after calls among which no completion of the epoch succeeds. -/
inductive Waits {C : ℕ} (epoch : ℕ) (e : Engine C) : Engine C → Prop
  | refl : Waits epoch e e
  | step {e' : Engine C} {op : Op} (h : Waits epoch e e')
    (hop : ¬ ((∃ accepted, op = .complete epoch accepted) ∧ ∃ reply, (op.exec e').1 = .ok reply)) :
    Waits epoch e (op.exec e').2

/-- Two request slots over two pages of one token. -/
def twoPages : Engine 2 where
  scheduler := ⟨fun _ => .initial, ⟨id, 0, 2⟩, ⟨fun _ => 0, 0, 0⟩, ⟨fun _ => ⟨0, 0⟩, 0, 0⟩,
    ⟨fun _ => ⟨0, 0⟩, 0, 0⟩, 0, 0, 0, 0⟩
  kv := match KvPool.newBounded 2 1 4 with
    | .ok pool => pool
    | .error _ => fourPages
  permits := fun _ => none
  faulted := false

theorem new_twoPages : Engine.new 2 2 1 4 = .ok twoPages := rfl

/-- Request 0 holds page 0, and request 1 holds nothing. -/
structure Cycle (e : Engine 2) : Prop where
  reachable : (engines 2).Reachable e
  ok : ∃ F R, e.Ok F R []
  ready₀ : e.state ⟨0, 1⟩ = some .ready
  ready₁ : e.state ⟨1, 1⟩ = some .ready
  pageTokens : e.kv.pageTokens = 1
  maxContextTokens : e.kv.maxContextTokens = 4
  pageLimit : e.kv.pageLimit = 2
  count₀ : (e.kv.requests 0).pageCount = 1
  page₀ : (e.kv.requests 0).pages 0 = ⟨0, 1⟩
  resident₀ : (e.kv.requests 0).residentTokens = 1
  committed₀ : (e.kv.requests 0).committedTokens = 0
  resident₁ : (e.kv.requests 1).residentTokens = 0
  idle : ∀ i < maxRequestSlots, 2 ≤ i → (e.kv.requests i).pageCount = 0
  behind : e.scheduler.submitted < (e.kv.pages 1).generation

/-- The start of the rounds. -/
def heldRun : Engine 2 := twoPages.applyAll [.admission, .admission, .append ⟨0, 1⟩ 1]

theorem cycle_heldRun : Cycle heldRun := by
  have hr : (engines 2).Reachable heldRun := reachable_applyAll (.init ⟨2, 1, 4, new_twoPages⟩)
  have hnone : heldRun.scheduler.pendingBatches = [] := by decide +kernel
  have hhealthy : heldRun.faulted = false := by decide +kernel
  refine ⟨hr, ?_, by decide +kernel, by decide +kernel, by decide +kernel, by decide +kernel,
    by decide +kernel, by decide +kernel, by decide +kernel, by decide +kernel, by decide +kernel,
    by decide +kernel, by decide +kernel, by decide +kernel⟩
  obtain ⟨G, hs⟩ := sound_of_reachable hr
  rcases hs.status with ⟨hf, -⟩ | ⟨F, R, hok⟩
  · exact absurd (hf.symm.trans hhealthy) (by simp)
  · rw [hs.flight.pendingBatches_eq] at hnone
    cases G with
    | nil => exact ⟨F, R, hok⟩
    | cons g G => simp [numbered] at hnone

variable {e : Engine 2}

theorem Cycle.live (h : Cycle e) {i : ℕ} (hi : e.state ⟨i, 1⟩ = some .ready) :
    e.kv.Live ⟨i, 1⟩ := by
  obtain ⟨F, R, hok⟩ := h.ok
  obtain ⟨hlt, hready, hgen, -⟩ := hok.ready_of_state hi
  have hl := hok.live hlt (by rw [hready]; simp)
  rw [hgen] at hl
  exact hl

/-- A pool of two pages whose second page is in no chain. -/
theorem free_of_unheld {p : KvPool} (h : p.WellFormed) (hlimit : p.pageLimit = 2)
    (hno : ∀ s < maxRequestSlots, ¬ p.Holds s 1) : (p.pages 1).state = .free := by
  by_contra hne
  have hpage := h.page 1 (by omega)
  obtain ⟨s, hs⟩ := ne_zero_iff_getLsbD.mp (hpage.of_not_free hne)
  exact hno s (lt_of_getLsbD hs) (hpage.held s hs)

theorem Cycle.count₁ (h : Cycle e) : (e.kv.requests 1).pageCount = 0 := by
  obtain ⟨F, R, hok⟩ := h.ok
  have htight := (hok.kv.request 1 (by decide)).tight
  rw [h.resident₁, h.pageTokens] at htight
  omega

theorem Cycle.page_free (h : Cycle e) : (e.kv.pages 1).state = .free := by
  obtain ⟨F, R, hok⟩ := h.ok
  refine free_of_unheld hok.kv h.pageLimit ?_
  rintro s hs ⟨i, hi, hindex⟩
  rcases Nat.lt_or_ge s 2 with hlt | hge
  · obtain rfl | rfl : s = 0 ∨ s = 1 := by omega
    · rw [h.count₀] at hi
      obtain rfl : i = 0 := by omega
      rw [h.page₀] at hindex
      exact absurd hindex (by decide)
    · rw [h.count₁] at hi
      exact absurd hi (Nat.not_lt_zero i)
  · rw [h.idle s hs hge] at hi
    exact absurd hi (Nat.not_lt_zero i)

/-- Request 1 takes page 1. -/
structure Taken (e e' : Engine 2) : Prop where
  reachable : (engines 2).Reachable e'
  ok : ∃ F R, e'.Ok F R []
  scheduler : e'.scheduler = e.scheduler
  geometry : KvPool.SameGeometry e.kv e'.kv
  others : ∀ j, j ≠ 1 → e'.kv.requests j = e.kv.requests j
  resident : (e'.kv.requests 1).residentTokens = 1
  committed : (e'.kv.requests 1).committedTokens = 0
  count : (e'.kv.requests 1).pageCount = 1
  index : ((e'.kv.requests 1).pages 0).index = 1
  generation : (e'.kv.pages 1).generation = (e.kv.pages 1).generation

theorem Cycle.take (h : Cycle e) : ∃ e', Taken e e' := by
  obtain ⟨F, R, hok⟩ := h.ok
  have hwf := hok.kv
  have hl := h.live h.ready₁
  have hroom : 0 < e.kv.freeLen := by
    obtain ⟨i, hi, -⟩ := (hwf.stack.mem_iff 1 (by rw [h.pageLimit]; decide)).mp
      ((hwf.page 1 (by rw [h.pageLimit]; decide)).bitmap.mp h.page_free)
    exact Nat.zero_lt_of_lt hi
  have happendable : Appendable e.kv ⟨1, 1⟩ 1 := by
    refine ⟨hl, ?_, ?_⟩
    · show (e.kv.requests 1).residentTokens + 1 ≤ _
      rw [h.resident₁, h.maxContextTokens]
      decide
    · show (e.kv.requests 1).residentTokens + 1 ≤ ((e.kv.requests 1).pageCount + _) * _
      rw [h.resident₁, h.pageTokens]
      omega
  rcases (appendTentative_runs hok ⟨1, 1⟩ 1).cases with
    ⟨_, e', hx, ⟨-, -, -, F', R', hok'⟩, hscheduler, -, happ⟩ | ⟨_, e', hx, -, hno⟩
  · have hstep : e' = ((Op.append ⟨1, 1⟩ 1).exec e).2 := by
      rw [Op.exec, hx]
      rfl
    have hresident : (e'.kv.requests 1).residentTokens = 1 :=
      happ.resident.trans (by rw [h.resident₁])
    have hpt : e'.kv.pageTokens = 1 := happ.evolves.geometry.1.trans h.pageTokens
    have hreq := hok'.kv.request 1 (by decide)
    have hcovered := hreq.covered
    have htight := hreq.tight
    rw [hresident, hpt] at hcovered htight
    have hcount : (e'.kv.requests 1).pageCount = 1 := by omega
    have hcommitted : (e.kv.requests 1).committedTokens = 0 := by
      have := (hwf.request 1 (by decide)).committed_le
      rw [h.resident₁] at this
      omega
    refine ⟨e', .step h.reachable (a := .append ⟨1, 1⟩ 1) hstep, ⟨F', R', hok'⟩, hscheduler,
      happ.evolves.geometry, happ.evolves.others, hresident,
      happ.committed.trans hcommitted, hcount,
      ?_, happ.generations 1⟩
    -- the new page was free, so it is not page 0
    have hlt := hok'.kv.index_lt 1 (by decide) 0 (by rw [hcount]; decide)
    rw [happ.evolves.geometry.2.2, h.pageLimit] at hlt
    have hfresh := happ.fresh 0 (by rw [hcount]; decide) (by rw [h.count₁])
    have hheld := (hwf.serves 0 (by decide) 0 (by rw [h.count₀]; decide)).not_free
    rw [h.page₀] at hheld
    have hne : ((e'.kv.requests 1).pages 0).index ≠ 0 := fun he => hheld (he ▸ hfresh)
    omega
  · exact absurd ⟨h.ready₁, happendable⟩ hno

/-- Ready requests are dispatched when nothing is in flight. -/
theorem dispatch_of_ready {F R : List ℕ} (hok : e.Ok F R []) (requests : List RequestId)
    (hready : ∀ x ∈ requests, e.state x = some .ready)
    (hnd : (requests.map RequestId.slot).Nodup) (hne : requests ≠ []) (hlen : requests.length ≤ 2)
    (hlt : e.scheduler.submitted + 1 < 2 ^ 64) :
    ∃ e', (Op.dispatchExact (e.scheduler.submitted + 1) requests).exec e =
        (.ok (.batch (some ⟨e.scheduler.submitted + 1, requests⟩)), e') ∧
      Launched [] requests e e' ∧
        e'.scheduler = e.scheduler.launched requests e.scheduler.cursor := by
  have hsel : e.scheduler.Selectable requests :=
    ⟨hnd, fun x hx => (hok.ready_of_state (hready x hx)).1,
      fun x hx => (hok.ready_of_state (hready x hx)).2.1,
      fun x hx => (hok.ready_of_state (hready x hx)).2.2.1⟩
  have hroom : ([] : List RequestId).length + requests.length ≤ 2 := by simpa using hlen
  have heq := Scheduler.dispatchM1ExactReady_eq hok.scheduler hsel hne
    (hlen.trans (by decide)) (by decide) hroom hlt
  have hlaunch := hok.scheduler.launch hsel hne (by decide) hroom hlt hok.scheduler.cursor_lt
  refine ⟨{ e with scheduler := e.scheduler.launched requests e.scheduler.cursor }, ?_,
    hok.launch hsel hlaunch, rfl⟩
  have hexec : (Engine.dispatchM1ExactReady (e.scheduler.submitted + 1) requests).exec e =
      (.ok ⟨e.scheduler.submitted + 1, requests⟩,
        { e with scheduler := e.scheduler.launched requests e.scheduler.cursor }) := by
    rw [Engine.dispatchM1ExactReady, exec_bind, exec_get]
    simp only [hok.healthy, Action.failIf, Bool.false_eq_true, if_false, pure_bind]
    rw [exec_bind, onScheduler, exec_attempt]
    simp only [heq]
    rw [hok.healthy]
    rfl
  rw [Op.exec, hexec]
  rfl

/-- The requests of a launched batch may be settled with no accepted tokens. -/
theorem completable_zero {F R : List ℕ} {requests : List RequestId} {e' : Engine 2}
    (hok : e'.Ok F R [requests]) (hscheduler : e'.scheduler =
      e.scheduler.launched requests e.scheduler.cursor) (accepted : List ℕ)
    (hlen : accepted.length = requests.length) (hzero : ∀ a ∈ accepted, a = 0) :
    e'.Completable requests (e'.scheduler.completed + 1) accepted := by
  refine ⟨rfl, hlen, fun k x a hx ha => ⟨fun _ => ?_, fun hstate => ?_⟩⟩
  · have hmem : x ∈ [] ++ [requests].flatten :=
      hok.scheduler.mem_flying (k := 0) rfl (List.mem_of_getElem? hx)
    rw [hzero a (List.mem_of_getElem? ha)]
    exact (hok.kv.request _ (hok.live_flying hmem).1).committed_le
  · rw [hscheduler, Scheduler.launched_of_mem
      (List.mem_map_of_mem (List.mem_of_getElem? hx))] at hstate
    exact absurd hstate (by simp)

theorem generation_le {p : KvPool} (h : p.WellFormed) {k : ℕ} (hk : k < p.pageLimit) :
    (p.pages k).generation ≤ u32Max := by
  have := (h.page k hk).generation_lt
  rw [u32Max]
  omega

/-- When page 1 is back on the stack, its generation went up. -/
theorem lt_of_given_back {p p' : KvPool} (hp : (p.pages 1).state ≠ .free)
    (hp' : (p'.pages 1).state = .free) (hstamp : p.pageStamp 1 ≤ p'.pageStamp 1) :
    (p.pages 1).generation < (p'.pages 1).generation := by
  rw [KvPool.pageStamp, KvPool.pageStamp, if_neg hp, if_pos hp'] at hstamp
  omega

theorem Taken.not_free {e' : Engine 2} (h : Taken e e') : (e'.kv.pages 1).state ≠ .free := by
  obtain ⟨F, R, hok⟩ := h.ok
  have := (hok.kv.serves 1 (by decide) 0 (by rw [h.count]; decide)).not_free
  rwa [h.index] at this

theorem Taken.not_worn {e' : Engine 2} (h : Taken e e')
    (hmax : (e.kv.pages 1).generation ≠ u32Max) : ¬ e'.kv.Worn 1 := by
  obtain ⟨F, R, hok⟩ := h.ok
  rintro ⟨i, hi, hworn⟩
  rw [h.count] at hi
  obtain rfl : i = 0 := by omega
  have hgen := (hok.kv.serves 1 (by decide) 0 (by rw [h.count]; decide)).generation
  rw [h.index, h.generation] at hgen
  exact hmax (hgen.trans hworn)

/-- One round brings page 1 to a later generation. -/
theorem Cycle.round (h : Cycle e) (hmax : (e.kv.pages 1).generation ≠ u32Max) :
    ∃ e', Cycle e' ∧ (e.kv.pages 1).generation < (e'.kv.pages 1).generation := by
  obtain ⟨e₁, t⟩ := h.take
  obtain ⟨F₁, R₁, hok₁⟩ := t.ok
  have hbound : e₁.scheduler.submitted + 1 < 2 ^ 64 := by
    have h1 := h.behind
    have h2 := generation_le hok₁.kv (k := 1) (by rw [t.geometry.2.2, h.pageLimit]; decide)
    rw [t.generation, u32Max] at h2
    rw [t.scheduler]
    omega
  have hstate : ∀ x, e₁.state x = e.state x := fun x => by
    rw [Engine.state, Engine.state, t.scheduler]
  obtain ⟨e₂, hx₂, ⟨hkv₂, hcompleted₂, hsubmitted₂, F₂, R₂, hok₂⟩, hs₂⟩ :=
    dispatch_of_ready hok₁ [⟨1, 1⟩]
      (fun x hx => by rw [List.mem_singleton.mp hx, hstate]; exact h.ready₁) (by decide) (by decide)
      (by decide) hbound
  have hr₂ : (engines 2).Reachable e₂ :=
    .step t.reachable (a := .dispatchExact (e₁.scheduler.submitted + 1) [⟨1, 1⟩])
      (by show e₂ = _; rw [hx₂])
  have hc := completable_zero hok₂ hs₂ [0] rfl (by simp)
  rcases (completeExact_runs hok₂ (e₂.scheduler.completed + 1) [0]).cases with
    ⟨count, e₃, hx₃, g, G', hG, -, -, hdone⟩ |
      ⟨f, e₃, hx₃, -, ⟨-, -, hno⟩ | ⟨-, g, G', hG, -, -, hi⟩⟩
  · obtain ⟨rfl, rfl⟩ := List.cons.inj hG
    obtain ⟨F₃, R₃, hok₃⟩ := hdone.ok
    have hgeometry : KvPool.SameGeometry e.kv e₃.kv :=
      t.geometry.trans (hkv₂ ▸ hdone.keeps.geometry)
    have hother : ∀ j, j ≠ 1 → e₃.kv.requests j = e.kv.requests j := fun j hj => by
      rw [hdone.requests j (by simpa using hj), hkv₂, t.others j hj]
    have hslot₀ : e₃.scheduler.slots 0 = e.scheduler.slots 0 := by
      rw [hdone.slots 0 (by decide), hs₂, Scheduler.launched_of_not_mem (by decide), t.scheduler]
    have hflown : e₂.scheduler.slots 1 = { e.scheduler.slots 1 with
        state := .inFlight, activeEpoch := e.scheduler.submitted + 1 } := by
      rw [hs₂, Scheduler.launched_of_mem (by decide), t.scheduler]
    obtain ⟨hready, hgen, hresident, -⟩ :=
      (hdone.settled 0 ⟨1, 1⟩ 0 rfl rfl).finalized (by rw [hflown])
    obtain ⟨-, -, hgen₁, -⟩ := (h.ok.choose_spec.choose_spec).ready_of_state h.ready₁
    have hzero : (e₃.kv.requests 1).residentTokens = 0 := by
      rw [hresident, hkv₂, t.committed]
    have hcycle : ∀ hb : e₃.scheduler.submitted < (e₃.kv.pages 1).generation, Cycle e₃ := fun hb =>
      { reachable := .step hr₂ (a := .complete (e₂.scheduler.completed + 1) [0])
          (by show e₃ = _; rw [Op.exec, hx₃]; rfl)
        ok := ⟨F₃, R₃, hok₃⟩
        ready₀ := by
          rw [← h.ready₀, Engine.state, Engine.state, Scheduler.state, Scheduler.state, hslot₀]
        ready₁ := by
          rw [Engine.state, Scheduler.state, if_neg (by decide)]
          simp only [hgen, hflown, hgen₁, hready, if_true]
        pageTokens := hgeometry.1.trans h.pageTokens
        maxContextTokens := hgeometry.2.1.trans h.maxContextTokens
        pageLimit := hgeometry.2.2.trans h.pageLimit
        count₀ := by rw [hother 0 (by decide), h.count₀]
        page₀ := by rw [hother 0 (by decide), h.page₀]
        resident₀ := by rw [hother 0 (by decide), h.resident₀]
        committed₀ := by rw [hother 0 (by decide), h.committed₀]
        resident₁ := hzero
        idle := fun i hi hge => by rw [hother i (by omega), h.idle i hi hge]
        behind := hb }
    -- `page_free` does not depend on how far behind the epochs are
    have hfree : (e₃.kv.pages 1).state = .free := by
      refine free_of_unheld hok₃.kv (hgeometry.2.2.trans h.pageLimit) ?_
      rintro s hs ⟨i, hi, hindex⟩
      by_cases hone : s = 1
      · subst hone
        have htight := (hok₃.kv.request 1 (by decide)).tight
        rw [hzero, hgeometry.1, h.pageTokens] at htight
        omega
      · rw [hother s hone] at hi hindex
        have := (h.ok.choose_spec.choose_spec).kv
        refine (this.serves s hs i hi).not_free ?_
        rw [hindex]
        exact h.page_free
    have hgt := lt_of_given_back t.not_free hfree (hkv₂ ▸ hdone.stamp 1)
    rw [t.generation] at hgt
    refine ⟨e₃, hcycle ?_, hgt⟩
    have := h.behind
    rw [hdone.submitted, hsubmitted₂, t.scheduler]
    omega
  · exact absurd ⟨_, _, rfl, hc⟩ hno
  · obtain ⟨rfl, rfl⟩ := List.cons.inj hG
    obtain ⟨j, x, hj, hw, -⟩ := hi
    cases j with
    | zero =>
      obtain rfl := Option.some.inj hj
      rw [hkv₂] at hw
      exact absurd hw (t.not_worn hmax)
    | succ j => simp at hj

/-- Rounds bring page 1 to its last generation. -/
theorem exists_worn_cycle : ∃ e, Cycle e ∧ (e.kv.pages 1).generation = u32Max := by
  have haux : ∀ n (e : Engine 2), Cycle e → u32Max - (e.kv.pages 1).generation ≤ n →
      ∃ e, Cycle e ∧ (e.kv.pages 1).generation = u32Max := by
    intro n
    induction n with
    | zero =>
      intro e h hn
      obtain ⟨F, R, hok⟩ := h.ok
      have hle := generation_le hok.kv (k := 1) (by rw [h.pageLimit]; decide)
      exact ⟨e, h, by omega⟩
    | succ n ih =>
      intro e h hn
      by_cases hmax : (e.kv.pages 1).generation = u32Max
      · exact ⟨e, h, hmax⟩
      · obtain ⟨e', h', hlt⟩ := h.round hmax
        exact ih e' h' (by omega)
  exact haux _ heldRun cycle_heldRun le_rfl

/-- **A failed completion can settle.** Until a completion of its epoch *succeeds*, a member of a
dispatched batch need not stay as it was. -/
theorem not_frozen_until_success :
    ¬ ∀ (e₀ e₁ e : Engine 2) (op : Op) (batch : DispatchBatch) (x : RequestId),
      (engines 2).Reachable e₀ → op.exec e₀ = (.ok (.batch (some batch)), e₁) →
        Waits batch.epoch e₁ e → x ∈ batch.members →
          (e.kv.requests x.slot).residentTokens = (e₀.kv.requests x.slot).residentTokens := by
  intro hclaim
  obtain ⟨e, h, hmax⟩ := exists_worn_cycle
  obtain ⟨e₁, t⟩ := h.take
  obtain ⟨F₁, R₁, hok₁⟩ := t.ok
  have hbound : e₁.scheduler.submitted + 1 < 2 ^ 64 := by
    have h1 := h.behind
    rw [hmax, u32Max] at h1
    rw [t.scheduler]
    omega
  have hstate : ∀ x, e₁.state x = e.state x := fun x => by
    rw [Engine.state, Engine.state, t.scheduler]
  obtain ⟨e₂, hx₂, ⟨hkv₂, hcompleted₂, hsubmitted₂, F₂, R₂, hok₂⟩, hs₂⟩ :=
    dispatch_of_ready hok₁ [⟨0, 1⟩, ⟨1, 1⟩] (fun x hx => by
      rw [hstate]
      rcases List.mem_pair.mp hx with rfl | rfl
      · exact h.ready₀
      · exact h.ready₁) (by decide) (by decide) (by decide) hbound
  have hc := completable_zero hok₂ hs₂ [0, 0] rfl (by simp)
  have hepoch : e₂.scheduler.completed + 1 = e₁.scheduler.submitted + 1 := by
    have h1 := hok₁.scheduler.submitted_eq
    rw [List.length_nil] at h1
    omega
  have hflown : ∀ i, i < 2 → (e₂.scheduler.slots i).state = .inFlight := by
    intro i hi
    rw [hs₂, Scheduler.launched_of_mem (by
      obtain rfl | rfl : i = 0 ∨ i = 1 := by omega
      · decide
      · decide)]
  have hresident : (e₂.kv.requests 0).residentTokens = 1 := by
    rw [hkv₂, t.others 0 (by decide), h.resident₀]
  have hcommitted : (e₂.kv.requests 0).committedTokens = 0 := by
    rw [hkv₂, t.others 0 (by decide), h.committed₀]
  rcases (completeExact_runs hok₂ (e₂.scheduler.completed + 1) [0, 0]).cases with
    ⟨count, e₃, hx₃, g, G', hG, -, -, hdone⟩ |
      ⟨f, e₃, hx₃, -, ⟨-, -, hno⟩ | ⟨-, g, G', hG, -, -, hi⟩⟩
  · -- the last generation cannot be given back
    obtain ⟨rfl, rfl⟩ := List.cons.inj hG
    obtain ⟨F₃, R₃, hok₃⟩ := hdone.ok
    have hgeometry : KvPool.SameGeometry e.kv e₃.kv :=
      t.geometry.trans (hkv₂ ▸ hdone.keeps.geometry)
    obtain ⟨-, -, hzero, -⟩ := (hdone.settled 1 ⟨1, 1⟩ 0 rfl rfl).finalized (hflown 1 (by decide))
    obtain ⟨-, -, hzero₀, -⟩ := (hdone.settled 0 ⟨0, 1⟩ 0 rfl rfl).finalized (hflown 0 (by decide))
    have hfree : (e₃.kv.pages 1).state = .free := by
      refine free_of_unheld hok₃.kv (hgeometry.2.2.trans h.pageLimit) ?_
      rintro s hs ⟨i, hi, hindex⟩
      have hempty : (e₃.kv.requests s).residentTokens = 0 → False := fun hz => by
        have htight := (hok₃.kv.request s hs).tight
        rw [hz, hgeometry.1, h.pageTokens] at htight
        omega
      rcases Nat.lt_or_ge s 2 with hlt | hge
      · obtain rfl | rfl : s = 0 ∨ s = 1 := by omega
        · exact hempty (by rw [hzero₀, hcommitted])
        · exact hempty (by rw [hzero, hkv₂, t.committed])
      · rw [hdone.requests s (by simp; omega), hkv₂, t.others s (by omega), h.idle s hs hge] at hi
        exact absurd hi (Nat.not_lt_zero i)
    have hgt := lt_of_given_back t.not_free hfree (hkv₂ ▸ hdone.stamp 1)
    have hle := generation_le hok₃.kv (k := 1) (by rw [hgeometry.2.2, h.pageLimit]; decide)
    rw [t.generation, hmax] at hgt
    omega
  · exact absurd ⟨_, _, rfl, hc⟩ hno
  · obtain ⟨rfl, rfl⟩ := List.cons.inj hG
    obtain ⟨j, x, hj, hw, hbefore⟩ := hi
    have hj₁ : j ≠ 0 := by
      rintro rfl
      obtain rfl := Option.some.inj hj
      obtain ⟨i, hlt, hworn⟩ := hw
      have hsame : e₂.kv.requests 0 = e.kv.requests 0 := by rw [hkv₂, t.others 0 (by decide)]
      rw [hsame, h.count₀] at hlt
      obtain rfl : i = 0 := by omega
      rw [hsame, h.page₀] at hworn
      exact absurd hworn (by decide)
    obtain ⟨-, -, hzero, -⟩ :=
      (hbefore 0 (Nat.pos_of_ne_zero hj₁) ⟨0, 1⟩ 0 rfl rfl).finalized (hflown 0 (by decide))
    have hfail : (Op.complete (e₁.scheduler.submitted + 1) [0, 0]).exec e₂ =
        (.error (.err (.completion f)), e₃) := by
      rw [← hepoch, Op.exec, hx₃]
      rfl
    have hwaits : Waits (e₁.scheduler.submitted + 1) e₂ e₃ := by
      have hstep : ¬ ((∃ accepted, Op.complete (e₁.scheduler.submitted + 1) [0, 0] =
          .complete (e₁.scheduler.submitted + 1) accepted) ∧ ∃ reply,
            ((Op.complete (e₁.scheduler.submitted + 1) [0, 0]).exec e₂).1 = .ok reply) := by
        rw [hfail]
        simp
      have hnext := Waits.step (.refl (e := e₂)) hstep
      rw [hfail] at hnext
      exact hnext
    have hsame := hclaim e₁ e₂ e₃ _ ⟨_, _⟩ ⟨0, 1⟩ t.reachable hx₂ hwaits (by simp)
    rw [show (e₃.kv.requests (⟨0, 1⟩ : RequestId).slot).residentTokens = 0 from
      hzero.trans (by rw [hcommitted]), ← hkv₂, hresident] at hsame
    exact absurd hsame (by decide)

end EngineCore

end Ferric
