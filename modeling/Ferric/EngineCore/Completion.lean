import Ferric.EngineCore.Calls

/-!
# Exact completion

`Completable` is the condition that `preflight_complete_exact` checks. It is exact: the check passes
if and only if the oldest batch is completable, and then the second check and the completion in the
scheduler go through. The settlement of a member can still fail, but only when a page of its own
chain is in its last generation.

## Main results

* `preflightCompleteExact_ensures` — the check is exact
* `settleMembers_runs` — the loop over the members
* `completeExact_runs` — the contract of the call
-/

namespace Ferric

namespace EngineCore

open Spec Cache Ferric.Action

theorem residentTokens_eq {p : KvPool} {request : RequestId} (h : p.Live request) :
    residentTokens p request = some (p.requests request.slot).residentTokens := by
  rw [residentTokens, if_neg (not_le.mpr h.1)]
  simp [h.2.1, h.2.2]

theorem committedTokens_eq {p : KvPool} {request : RequestId} (h : p.Live request) :
    committedTokens p request = some (p.requests request.slot).committedTokens := by
  rw [committedTokens, if_neg (not_le.mpr h.1)]
  simp [h.2.1, h.2.2]

namespace Engine

variable {C : ℕ} {e e' : Engine C} {F R : List ℕ} {G : List (List RequestId)}
  {g P : List RequestId} {x : RequestId} {accepted : List ℕ} {epoch : ℕ}

/-- A member of a batch may be settled with `a` accepted tokens. -/
structure Settleable (e : Engine C) (x : RequestId) (a : ℕ) : Prop where
  fits : (e.scheduler.slots x.slot).state = .inFlight →
    (e.kv.requests x.slot).committedTokens + a ≤ (e.kv.requests x.slot).residentTokens
  fresh : (e.scheduler.slots x.slot).state = .retiring → x.generation < u32Max

/-- The batch may be completed under `epoch` with these results. -/
structure Completable (e : Engine C) (g : List RequestId) (epoch : ℕ) (accepted : List ℕ) :
    Prop where
  epoch : epoch = e.scheduler.completed + 1
  length : accepted.length = g.length
  settleable : ∀ (k : ℕ) (x : RequestId) (a : ℕ), g[k]? = some x → accepted[k]? = some a →
    e.Settleable x a

theorem Core.live_flying (h : e.Core F R G P) (hx : x ∈ P ++ G.flatten) : e.kv.Live x := by
  obtain ⟨hlt, hgen⟩ := h.scheduler.flying x hx
  have hl := h.live hlt (by
    rcases (h.scheduler.state_flying hx).2 with hstate | hstate <;> rw [hstate] <;> simp)
  rw [hgen] at hl
  exact hl

theorem tentativeTokens_eq (h : e.kv.WellFormed) (hl : e.kv.Live x) :
    e.tentativeTokens x = .ok ((e.kv.requests x.slot).residentTokens -
      (e.kv.requests x.slot).committedTokens) := by
  rw [tentativeTokens, residentTokens_eq hl, committedTokens_eq hl]
  simp only [orErr, ok_bind]
  rw [checkedSub_of_le (h.request _ hl.1).committed_le]

/-! ### The check -/

theorem preflightMember_ensures (h : e.Ok F R (g :: G)) {k a : ℕ} (hk : g[k]? = some x)
    (ha : accepted[k]? = some a) :
    Ensures (e.preflightMember (e.scheduler.completed + 1) accepted k)
      (fun error => ¬ error.IsViolation ∧ ¬ e.Settleable x a) fun _ => e.Settleable x a := by
  have hx : x ∈ [] ++ (g :: G).flatten :=
    h.scheduler.mem_flying (k := 0) rfl (List.mem_of_getElem? hk)
  obtain ⟨hs, hstate⟩ := h.scheduler.state_flying hx
  have hl := h.live_flying hx
  have hcommitted := (h.kv.request _ hl.1).committed_le
  rw [preflightMember, h.scheduler.pendingMember_eq, hk]
  simp only [orErr, ok_bind, hs]
  rcases hstate with hstate | hstate <;> rw [hstate]
  · simp only [tentativeTokens_eq h.kv hl, ha, orPanic, ok_bind]
    refine ensures_failIf (fun hgt => ⟨id, fun hset => ?_⟩) fun hle => ⟨fun _ => by omega, ?_⟩
    · have := hset.fits hstate
      omega
    · rw [hstate]
      exact fun hx => absurd hx (by simp)
  · simp only [h.scheduler.pendingRetirementReady_eq hk hstate]
    refine ensures_failIf (fun hnot => ?_) fun hlt => ⟨?_, fun _ => by simpa using hlt⟩
    · have hge : ¬ x.generation < u32Max := by simpa using hnot
      have hgen := (h.scheduler.flying x hx).2
      have hlt := (h.scheduler.generation _ (h.scheduler.flying x hx).1).2
      rw [hgen] at hlt
      have hmax : x.generation = u32Max := by
        rw [u32Max] at hge ⊢
        omega
      rw [if_pos hmax]
      exact ⟨id, fun hset => hge (hset.fresh hstate)⟩
    · rw [hstate]
      exact fun hx => absurd hx (by simp)

theorem preflightCompleteExact_ensures (h : e.Ok F R G) (epoch : ℕ) (accepted : List ℕ) :
    Ensures (e.preflightCompleteExact epoch accepted)
      (fun error => ¬ error.IsViolation ∧
        ¬ ∃ g G', G = g :: G' ∧ e.Completable g epoch accepted)
      fun _ => ∃ g G', G = g :: G' ∧ e.Completable g epoch accepted := by
  rw [preflightCompleteExact, h.scheduler.pendingBatchMemberCount_eq]
  refine (ensures_failIf (Q := fun _ => True) (fun hf => ?_) fun _ => trivial).bind fun _ _ _ => ?_
  · rw [h.healthy] at hf
    exact absurd hf (by simp)
  cases G with
  | nil =>
    refine (ensures_failIf (Q := fun _ => True) (fun _ => ⟨id, by simp⟩) fun _ => trivial).bind
      fun _ _ _ => ?_
    exact (ensures_failIf (Q := fun _ => False) (fun _ => ⟨id, by simp⟩)
      fun hne => absurd rfl hne).bind fun _ _ hno => hno.elim
  | cons g G =>
    have hne : g.length ≠ 0 := fun he =>
      h.scheduler.nonempty g List.mem_cons_self (List.length_eq_zero_iff.mp he)
    have hroom : e.scheduler.completed + 1 < 2 ^ 64 := by
      have h1 := h.scheduler.submitted_eq
      have h2 := h.scheduler.submitted_lt
      rw [List.length_cons] at h1
      omega
    have hadd : checkedAdd 64 e.scheduler.completed 1 = some (e.scheduler.completed + 1) :=
      if_pos hroom
    simp only [List.head?_cons, Option.getD_some]
    refine (ensures_failIf (Q := fun _ => accepted.length = g.length) (fun hlen => ⟨id, ?length⟩)
      not_not.mp).bind fun _ _ hlen => ?_
    case length =>
      rintro ⟨_, _, heq, hc⟩
      obtain ⟨rfl, rfl⟩ := List.cons.inj heq
      exact hlen hc.length
    refine (ensures_failIf (Q := fun _ => True) (fun hz => absurd hz hne) fun _ => trivial).bind
      fun _ _ _ => ?_
    refine (ensures_failIf (Q := fun _ => epoch = e.scheduler.completed + 1)
      (fun hepoch => ⟨id, ?order⟩)
      fun hepoch => ?_).bind fun _ _ hepoch => ?_
    case order =>
      rintro ⟨_, _, heq, hc⟩
      rw [hadd, hc.epoch] at hepoch
      exact hepoch rfl
    · rw [hadd, not_not] at hepoch
      exact (Option.some.inj hepoch).symm
    subst hepoch
    refine (ensures_foldlM (d := []) (I := fun done rest _ => (∀ k ∈ rest, k < g.length) ∧
      ∀ k ∈ done, ∀ (x : RequestId) (a : ℕ), g[k]? = some x → accepted[k]? = some a →
        e.Settleable x a)
      ⟨fun k hk => List.mem_range.mp hk, by simp⟩ ?_).mono (fun _ he => he) fun _ _ hdone => ?_
    · rintro done k rest _ ⟨hrest, hdone⟩
      have hk := hrest k List.mem_cons_self
      have hx : g[k]? = some g[k] := List.getElem?_eq_getElem hk
      obtain ⟨a, ha⟩ : ∃ a, accepted[k]? = some a := ⟨_, List.getElem?_eq_getElem (by omega)⟩
      refine (preflightMember_ensures h hx ha).mono (fun error herr => ⟨herr.1, ?_⟩)
        fun _ _ hset => ⟨fun j hj => hrest j (List.mem_cons_of_mem _ hj), fun j hj => ?_⟩
      · rintro ⟨_, _, heq, hc⟩
        obtain ⟨rfl, rfl⟩ := List.cons.inj heq
        exact herr.2 (hc.settleable k _ _ hx ha)
      · rcases List.mem_append.mp hj with hj | hj
        · exact hdone j hj
        · rintro y b hy hb
          rw [List.mem_singleton.mp hj] at hy hb
          rw [hx] at hy
          rw [ha] at hb
          obtain rfl := Option.some.inj hy
          obtain rfl := Option.some.inj hb
          exact hset
    · refine ⟨g, G, rfl, rfl, hlen, fun k x a hx ha => hdone.2 k ?_ x a hx ha⟩
      exact List.mem_range.mpr (List.getElem?_eq_some_iff.mp hx).1

/-- The second check of a completable batch passes. -/
theorem recheckMembers_runs (h : e.Ok F R (g :: G)) {completion : ℕ}
    (hc : e.Completable g epoch accepted) {ks : List ℕ} (hks : ∀ k ∈ ks, k < g.length) :
    Runs e (recheckMembers completion accepted ks) (fun _ e' => e' = e) fun _ _ => False := by
  induction ks with
  | nil => exact runs_pure rfl
  | cons k ks ih =>
    rw [recheckMembers]
    have hk := hks k List.mem_cons_self
    have hx : g[k]? = some g[k] := List.getElem?_eq_getElem hk
    obtain ⟨a, ha⟩ : ∃ a, accepted[k]? = some a :=
      ⟨_, List.getElem?_eq_getElem (by rw [hc.length]; exact hk)⟩
    have hmem : g[k] ∈ [] ++ (g :: G).flatten :=
      h.scheduler.mem_flying (k := 0) rfl (List.mem_of_getElem? hx)
    have hl := h.live_flying hmem
    have hone : Runs e (recheckMember completion accepted k) (fun _ e' => e' = e)
        fun _ _ => False := by
      rw [recheckMember]
      refine runs_get ?_
      rw [h.scheduler.pendingMember_eq, hx]
      simp only [(h.scheduler.state_flying hmem).1]
      split
      · rename_i hstate
        simp only [tentativeTokens_eq h.kv hl]
        refine runs_query (R := fun b => b = a) ?_ ?_
        · rw [ha]
          rfl
        rintro b - rfl
        have hfits := (hc.settleable k _ _ hx ha).fits (Option.some.inj hstate)
        rw [Action.failIf, if_neg (by omega)]
        exact runs_pure rfl
      · exact runs_pure rfl
    refine hone.bind ?_
    rintro _ _ - rfl
    exact ih fun j hj => hks j (List.mem_cons_of_mem _ hj)

/-! ### The settlement -/

/-- What an abandoned settlement leaves. -/
def abandoned (e : Engine C) : Engine C :=
  { e with faulted := true, permits := fun k => if k < C then none else e.permits k }

theorem runs_abandon {α : Type} {error : EngineError} {Q : α → Engine C → Prop}
    {E : CompletionFailure → Engine C → Prop} (h : E ⟨error, none⟩ e.abandoned) :
    Runs e (abandon error) Q E := by
  rw [abandon]
  exact runs_modify (runs_modify (runs_fail h))

theorem runs_orAbandon {δ α β : Type} {f : δ → EngineError} {y : Except δ α}
    {m : α → Action (Engine C) CompletionFailure β} {Q : β → Engine C → Prop}
    {E : CompletionFailure → Engine C → Prop} (hok : ∀ a, y = .ok a → Runs e (m a) Q E)
    (herr : ∀ d, y = .error d → E ⟨f d, none⟩ e.abandoned) :
    Runs e (orAbandon f y >>= m) Q E := by
  cases y with
  | ok a => exact hok a rfl
  | error d =>
    have habandon : Runs e (abandon (f d) : Action (Engine C) CompletionFailure α)
        (fun _ _ => False) E := runs_abandon (herr d rfl)
    exact habandon.bind fun _ _ _ hno => hno.elim

/-- What the settlement of a member with `a` accepted tokens does to its slot. -/
structure Settled (x : RequestId) (a : ℕ) (e e' : Engine C) : Prop where
  finalized : (e.scheduler.slots x.slot).state = .inFlight →
    (e'.scheduler.slots x.slot).state = .ready ∧
      (e'.scheduler.slots x.slot).generation = (e.scheduler.slots x.slot).generation ∧
      (e'.kv.requests x.slot).residentTokens = (e.kv.requests x.slot).committedTokens + a ∧
      (e'.kv.requests x.slot).committedTokens = (e.kv.requests x.slot).committedTokens + a
  released : (e.scheduler.slots x.slot).state = .retiring →
    (e'.scheduler.slots x.slot).state = .vacant

/-- One member is settled; or its chain is worn out. -/
theorem settleMember_runs {k a : ℕ} (h : e.Core F R G (x :: P))
    (hpermit : e.permits k = some ⟨x, .completedExact e.scheduler.completed⟩)
    (ha : accepted[k]? = some a) (hset : e.Settleable x a) :
    Runs e (settleMember accepted k)
      (fun _ e' => ∃ F' R', e'.Core F' R' G P ∧ KvPool.Evolves x.slot e.kv e'.kv ∧
        Scheduler.Touches x.slot e.scheduler e'.scheduler ∧
        e'.permits = Function.update e.permits k none ∧ Settled x a e e')
      fun f e' => f.completion = none ∧ ¬ f.error.IsViolation ∧ e.kv.Worn x.slot ∧
        e'.kv = e.kv ∧ e'.scheduler = e.scheduler ∧ e'.faulted = true := by
  have hx : x ∈ (x :: P) ++ G.flatten := List.mem_cons_self
  obtain ⟨hlt, hgen⟩ := h.scheduler.flying x hx
  obtain ⟨hs, hstate⟩ := h.scheduler.state_flying hx
  have hl := h.live_flying hx
  rw [settleMember]
  refine runs_get ?_
  rw [hpermit]
  refine runs_modify (runs_get ?_)
  simp only [hs]
  rcases hstate with hstate | hstate <;> rw [hstate]
  · refine runs_query (R := fun b => b = a) ?_ ?_
    · rw [ha]
      rfl
    rintro b - rfl
    refine runs_onKv (finalizeTentative_runs h.kv hl rfl) (fun d p' hp' => ?_) fun f p' hf => ?_
    · obtain ⟨rfl, hfinal⟩ := hp'
      refine runs_orAbandon (fun d hd => ?_) fun _ hx => absurd hx (by simp)
      obtain rfl := Except.ok.inj hd
      obtain ⟨t, heq, htouch, hok, hready, hsame⟩ := Scheduler.acceptFinalized_eq h.scheduler hstate
      have hreply : noReply (Scheduler.acceptFinalized · ⟨x, .completedExact e.scheduler.completed⟩)
          e.scheduler = .ok ((), t) := by
        rw [noReply, heq]
        rfl
      refine runs_onScheduler_eq hreply (show Runs _ (pure ()) _ _ from runs_pure ?_)
      refine ⟨F, R, ⟨hok, hfinal.wellFormed, ?_, h.healthy⟩, hfinal.evolves, htouch, rfl, ?_, ?_⟩
      · refine h.agree.setOne htouch.others hfinal.evolves.others ?_ ?_
        · rw [hfinal.live, hl.2.1, hready]
          simp
        · rw [hfinal.generation, hsame]
          exact h.agree.generation _ hlt
      · exact fun _ => ⟨hready, hsame, hfinal.resident, hfinal.committed⟩
      · rw [hstate]
        exact fun hx => absurd hx (by simp)
    · refine runs_orAbandon (fun _ hx => absurd hx (by simp)) fun d hx => ?_
      obtain rfl := Except.error.inj hx
      obtain ⟨rfl, hviolation, hw⟩ := hf
      exact ⟨rfl, hviolation, hw (hset.fits hstate), rfl, rfl, rfl⟩
  · have hmax := hset.fresh hstate
    refine runs_onKv (releaseRequest_runs h.kv hl rfl) (fun d p' hp' => ?_) fun f p' hf => ?_
    · obtain ⟨rfl, hreleased⟩ := hp'
      refine runs_orAbandon (fun d hd => ?_) fun _ hx => absurd hx (by simp)
      obtain rfl := Except.ok.inj hd
      obtain ⟨heq, hok⟩ := Scheduler.reclaimDetached_settled h.scheduler hstate hmax
      have hself : (e.scheduler.vacated x.slot).slots x.slot =
          { Slot.initial with generation := (e.scheduler.slots x.slot).generation + 1 } :=
        Scheduler.setSlot_self
      refine runs_onScheduler_eq heq (runs_orFault (fun _ _ => runs_pure ?_)
        fun _ hx => absurd hx (by simp))
      have htouch : Scheduler.Touches x.slot e.scheduler (e.scheduler.vacated x.slot) :=
        ⟨fun j hj => Scheduler.setSlot_of_ne hj, rfl, rfl, rfl, rfl, rfl⟩
      refine ⟨_, R, ⟨hok, hreleased.wellFormed, ?_, h.healthy⟩, hreleased.evolves, htouch, rfl, ?_,
        fun _ => ?_⟩
      · refine h.agree.setOne htouch.others hreleased.evolves.others ?_ ?_
        · rw [hreleased.dead, hself]
          simp [Slot.initial]
        · rw [hreleased.generation, hself, h.agree.generation _ hlt]
      · rw [hstate]
        exact fun hx => absurd hx (by simp)
      · show ((e.scheduler.vacated x.slot).slots x.slot).state = .vacant
        rw [hself]
        rfl
    · refine runs_orAbandon (fun _ hx => absurd hx (by simp)) fun d hx => ?_
      obtain rfl := Except.error.inj hx
      obtain ⟨rfl, hviolation, hw⟩ := hf
      exact ⟨rfl, hviolation, hw.resolve_left hmax.ne, rfl, rfl, rfl⟩

/-- Nothing happened outside the slots `T`. -/
structure Apart (T : List ℕ) (e e' : Engine C) : Prop where
  geometry : KvPool.SameGeometry e.kv e'.kv
  requests : ∀ i, i ∉ T → e'.kv.requests i = e.kv.requests i
  slots : ∀ i, i ∉ T → e'.scheduler.slots i = e.scheduler.slots i
  stamp : ∀ k, e.kv.pageStamp k ≤ e'.kv.pageStamp k
  completed : e'.scheduler.completed = e.scheduler.completed
  submitted : e'.scheduler.submitted = e.scheduler.submitted

theorem Apart.refl (T : List ℕ) (e : Engine C) : Apart T e e :=
  ⟨⟨rfl, rfl, rfl⟩, fun _ _ => rfl, fun _ _ => rfl, fun _ => le_rfl, rfl, rfl⟩

theorem Apart.cons {e'' : Engine C} {i : ℕ} {T : List ℕ} (hev : KvPool.Evolves i e.kv e'.kv)
    (ht : Scheduler.Touches i e.scheduler e'.scheduler) (h : Apart T e' e'') :
    Apart (i :: T) e e'' where
  geometry := hev.geometry.trans h.geometry
  requests := fun j hj => (h.requests j fun hx => hj (List.mem_cons_of_mem _ hx)).trans
    (hev.others j fun hx => hj (hx ▸ List.mem_cons_self))
  slots := fun j hj => (h.slots j fun hx => hj (List.mem_cons_of_mem _ hx)).trans
    (ht.others j fun hx => hj (hx ▸ List.mem_cons_self))
  stamp := fun k => (hev.stamp k).trans (h.stamp k)
  completed := h.completed.trans ht.completed
  submitted := h.submitted.trans ht.submitted

theorem Apart.keeps {T : List ℕ} (h : Apart T e e') (hd : ∀ x ∈ G.flatten, x.slot ∉ T) :
    Keeps G e e' :=
  ⟨h.geometry, fun x hx => h.requests _ (hd x hx)⟩

/-- Later settlements do not touch the slot. -/
theorem Settled.extend {e₁ : Engine C} {a : ℕ} {T : List ℕ} (h : Settled x a e e₁)
    (hapart : Apart T e₁ e') (hx : x.slot ∉ T) : Settled x a e e' := by
  refine ⟨fun hst => ?_, fun hst => ?_⟩
  · rw [hapart.slots _ hx, hapart.requests _ hx]
    exact h.finalized hst
  · rw [hapart.slots _ hx]
    exact h.released hst

/-- Earlier settlements did not touch the slot. -/
theorem Settled.rebase {e₁ : Engine C} {a : ℕ} (h : Settled x a e₁ e')
    (hreq : e₁.kv.requests x.slot = e.kv.requests x.slot)
    (hslot : e₁.scheduler.slots x.slot = e.scheduler.slots x.slot) : Settled x a e e' := by
  refine ⟨fun hst => ?_, fun hst => ?_⟩
  · rw [← hreq, ← hslot]
    exact h.finalized (by rw [hslot]; exact hst)
  · exact h.released (by rw [hslot]; exact hst)

theorem worn_congr {p p' : KvPool} {i : ℕ} (h : p'.requests i = p.requests i) :
    p'.Worn i ↔ p.Worn i := by
  rw [KvPool.Worn, KvPool.Worn, h]

/-- **Settlement loop.** From index `k` on, every member is settled; or the chain of one of them was
worn out before the loop began. -/
theorem settleMembers_runs {k : ℕ} (h : e.Core F R G P)
    (hpermits : ∀ j < C, e.permits j =
      if j < k then none else Scheduler.permitsOf e.scheduler.completed P (j - k))
    (hlen : k + P.length ≤ C)
    (hset : ∀ (j : ℕ) (x : RequestId), P[j]? = some x →
      ∃ a, accepted[k + j]? = some a ∧ e.Settleable x a) :
    Runs e (settleMembers accepted (List.range' k P.length))
      (fun _ e' => (∃ F' R', e'.Ok F' R' G) ∧ Apart (P.map RequestId.slot) e e' ∧
        ∀ (j : ℕ) (x : RequestId) (a : ℕ), P[j]? = some x → accepted[k + j]? = some a →
          Settled x a e e')
      fun f e' => f.completion = none ∧ ¬ f.error.IsViolation ∧
        Broken G e e' ∧ Apart (P.map RequestId.slot) e e' ∧
        ∃ (j : ℕ) (x : RequestId), P[j]? = some x ∧ e.kv.Worn x.slot ∧
          ∀ i < j, ∀ (y : RequestId) (a : ℕ), P[i]? = some y → accepted[k + i]? = some a →
            Settled y a e e' := by
  induction P generalizing e F R k with
  | nil =>
    refine runs_pure ⟨⟨F, R, h, fun j hj => ?_⟩, .refl _ e, fun j x a hx => by simp at hx⟩
    rw [hpermits j hj]
    split <;> rfl
  | cons x P ih =>
    rw [List.length_cons, List.range'_succ, settleMembers]
    rw [List.length_cons] at hlen
    have hnd := h.scheduler.flying_nodup
    rw [List.cons_append, List.map_cons, List.nodup_cons] at hnd
    have hfar : ∀ y ∈ P ++ G.flatten, y.slot ≠ x.slot := fun y hy he =>
      hnd.1 (he ▸ List.mem_map_of_mem hy)
    obtain ⟨a, ha, hsettle⟩ := hset 0 x rfl
    have hpermit : e.permits k = some ⟨x, .completedExact e.scheduler.completed⟩ := by
      rw [hpermits k (by omega), if_neg (lt_irrefl k), Nat.sub_self]
      rfl
    refine ((settleMember_runs h hpermit ha hsettle).mono (fun _ _ _ hx => hx)
      fun f e' _ hf => ?_).bind fun _ e₁ _ he₁ => ?_
    · obtain ⟨hnone, hviolation, hw, hkv, hs, hfaulted⟩ := hf
      refine ⟨hnone, hviolation, ⟨⟨by rw [hkv]; exact ⟨rfl, rfl, rfl⟩, fun y _ => by rw [hkv]⟩,
        hfaulted, hkv ▸ h.kv, ?_, ?_, by rw [hs]⟩,
        ⟨by rw [hkv]; exact ⟨rfl, rfl, rfl⟩, fun _ _ => by rw [hkv], fun _ _ => by rw [hs],
          fun _ => by rw [hkv], by rw [hs], by rw [hs]⟩, 0, x, rfl, hw,
        fun i hi => absurd hi (Nat.not_lt_zero i)⟩
      · rw [hkv]
        exact exhausted_of_worn h.kv (h.live_flying List.mem_cons_self) (.inr hw)
      · rw [hs]
        exact h.scheduler.flight
    obtain ⟨F₁, R₁, hcore, hev, htouch, hperm₁, hsettled⟩ := he₁
    -- the rest of the loop works for other slots
    have hx : x.slot ∉ P.map RequestId.slot := fun hmem =>
      hnd.1 (by rw [List.map_append]; exact List.mem_append_left _ hmem)
    have hreq : ∀ y ∈ P ++ G.flatten, e₁.kv.requests y.slot = e.kv.requests y.slot :=
      fun y hy => hev.others _ (hfar y hy)
    have hslot : ∀ y ∈ P ++ G.flatten, e₁.scheduler.slots y.slot = e.scheduler.slots y.slot :=
      fun y hy => htouch.others _ (hfar y hy)
    refine (ih hcore (fun j hj => ?_) (by omega) fun j y hy => ?_).mono (fun _ e' _ he' => ?_)
      fun f e' _ hf => ?_
    · rw [hperm₁, htouch.completed]
      by_cases hjk : j = k
      · rw [hjk, Function.update_self, if_pos (Nat.lt_succ_self k)]
      · rw [Function.update_of_ne hjk, hpermits j hj]
        rcases Nat.lt_or_gt_of_ne hjk with hlt | hgt
        · rw [if_pos hlt, if_pos (by omega)]
        · rw [if_neg (by omega), if_neg (by omega), show j - k = (j - (k + 1)) + 1 by omega]
          rfl
    · obtain ⟨b, hb, hsb⟩ := hset (j + 1) y hy
      have hmem : y ∈ P ++ G.flatten := List.mem_append_left _ (List.mem_of_getElem? hy)
      refine ⟨b, by rw [← hb]; congr 1; omega, fun hst => ?_, fun hst => ?_⟩
      · rw [hreq y hmem]
        exact hsb.fits (hslot y hmem ▸ hst)
      · exact hsb.fresh (hslot y hmem ▸ hst)
    · obtain ⟨hok, hapart, hall⟩ := he'
      refine ⟨hok, .cons hev htouch hapart, fun j y b hy hb => ?_⟩
      cases j with
      | zero =>
        obtain rfl : x = y := by simpa using hy
        obtain rfl : a = b := Option.some.inj (ha.symm.trans hb)
        exact hsettled.extend hapart hx
      | succ j =>
        have hmem : y ∈ P ++ G.flatten := List.mem_append_left _ (List.mem_of_getElem? hy)
        have hone := hall j y b hy (by rw [← hb]; congr 1; omega)
        exact hone.rebase (hreq y hmem) (hslot y hmem)
    · obtain ⟨hnone, hviolation, hbroken, hapart, j, y, hy, hw, hbefore⟩ := hf
      have hmem : ∀ {i z}, P[i]? = some z → z ∈ P ++ G.flatten := fun hz =>
        List.mem_append_left _ (List.mem_of_getElem? hz)
      refine ⟨hnone, hviolation, ⟨⟨hev.geometry.trans hbroken.keeps.geometry, fun z hz => ?_⟩,
        hbroken.faulted, hbroken.kv, hbroken.exhausted, hbroken.flight,
        hbroken.submitted.trans htouch.submitted⟩, .cons hev htouch hapart, j + 1, y, hy,
        (worn_congr (hreq y (hmem hy))).mp hw, fun i hi z b hz hb => ?_⟩
      · exact (hbroken.keeps.requests z hz).trans (hreq z (List.mem_append_right _ hz))
      · cases i with
        | zero =>
          obtain rfl : x = z := by simpa using hz
          obtain rfl : a = b := Option.some.inj (ha.symm.trans hb)
          exact hsettled.extend hapart hx
        | succ i =>
          have hone := hbefore i (Nat.lt_of_succ_lt_succ hi) z b hz (by rw [← hb]; congr 1; omega)
          exact hone.rebase (hreq z (hmem hz)) (hslot z (hmem hz))

/-- The oldest batch was completed. -/
structure Completed (g : List RequestId) (accepted : List ℕ) (G : List (List RequestId))
    (e e' : Engine C) : Prop where
  ok : ∃ F R, e'.Ok F R G
  keeps : Keeps G e e'
  completed : e'.scheduler.completed = e.scheduler.completed + 1
  submitted : e'.scheduler.submitted = e.scheduler.submitted
  requests : ∀ i, i ∉ g.map RequestId.slot → e'.kv.requests i = e.kv.requests i
  slots : ∀ i, i ∉ g.map RequestId.slot → e'.scheduler.slots i = e.scheduler.slots i
  stamp : ∀ k, e.kv.pageStamp k ≤ e'.kv.pageStamp k
  settled : ∀ (j : ℕ) (x : RequestId) (a : ℕ), g[j]? = some x → accepted[j]? = some a →
    Settled x a e e'

/-- The settlement stopped at a member whose chain is worn out. -/
def Interrupted (g : List RequestId) (accepted : List ℕ) (e e' : Engine C) : Prop :=
  ∃ (j : ℕ) (x : RequestId), g[j]? = some x ∧ e.kv.Worn x.slot ∧
    ∀ i < j, ∀ (y : RequestId) (a : ℕ), g[i]? = some y → accepted[i]? = some a → Settled y a e e'

/-- **Exact completion.** A completable batch is completed, unless a chain of one of its members is
worn out; every other call leaves the engine alone and returns the authority. -/
theorem completeExact_runs (h : e.Ok F R G) (completion : ℕ) (accepted : List ℕ) :
    Runs e (completeExact completion accepted)
      (fun count e' => ∃ g G', G = g :: G' ∧ e.Completable g completion accepted ∧
        count = g.length ∧ Completed g accepted G' e e')
      fun f e' => ¬ f.error.IsViolation ∧
        ((f.completion = some completion ∧ e' = e ∧
            ¬ ∃ g G', G = g :: G' ∧ e.Completable g completion accepted) ∨
          (f.completion = none ∧ ∃ g G', G = g :: G' ∧ e.Completable g completion accepted ∧
            Broken G' e e' ∧ Interrupted g accepted e e')) := by
  rw [Engine.completeExact]
  refine runs_query (ensures_mapErr ((preflightCompleteExact_ensures h completion accepted).mono
    (fun d hd => ⟨hd.1, .inl ⟨rfl, rfl, hd.2⟩⟩) fun _ _ hq => hq)) ?_
  rintro _ - ⟨g, G, rfl, hc⟩
  refine runs_get ?_
  refine runs_failIf (fun hf => ?_) fun _ => ?_
  · rw [h.healthy] at hf
    exact absurd hf (by simp)
  have hcount := h.scheduler.pendingBatchMemberCount_eq
  simp only [List.head?_cons, Option.getD_some] at hcount
  simp only [hcount]
  refine runs_failIf (fun hlen => absurd (hc.length.trans hcount.symm) hlen) fun _ => ?_
  refine ((recheckMembers_runs h hc fun k hk => List.mem_range.mp hk).mono (fun _ _ _ hx => hx)
    fun _ _ _ hno => hno.elim).bind fun _ e₀ _ he₀ => ?_
  rw [he₀]
  obtain ⟨permits, heq, hpermits⟩ := Scheduler.completeExact_eq h.scheduler h.permits
  have hepoch := hc.epoch
  have hexec : (completeScheduler completion).exec e =
      (.ok g.length, { e with scheduler := e.scheduler.finished g, permits := permits }) := by
    rw [completeScheduler, exec_bind, exec_get]
    simp only [hepoch, heq]
    rfl
  set e₁ : Engine C := { e with scheduler := e.scheduler.finished g, permits := permits } with he₁
  have hcore : e₁.Core F R G g := ⟨h.scheduler.finish, h.kv,
    ⟨h.agree.live, h.agree.generation⟩, h.healthy⟩
  have hroom : 0 + g.length ≤ C := by
    have := h.scheduler.member_ring.le
    rw [List.flatten_cons, List.length_append] at this
    omega
  rw [Runs, exec_bind, hexec]
  show Runs e₁ (settleMembers accepted (List.range g.length) >>= fun _ => pure g.length) _ _
  rw [List.range_eq_range']
  refine ((settleMembers_runs (k := 0) hcore (fun j hj => ?_) hroom fun j x hx => ?_).bind
    (P := fun count e' => count = g.length ∧ Completed g accepted G e e')
    fun _ e' _ he' => runs_pure ⟨rfl, ?_⟩).mono ?_ ?_
  · rw [if_neg (Nat.not_lt_zero j)]
    exact hpermits j hj
  · obtain ⟨a, ha⟩ : ∃ a, accepted[j]? = some a :=
      ⟨_, List.getElem?_eq_getElem (by rw [hc.length]; exact (List.getElem?_eq_some_iff.mp hx).1)⟩
    rw [Nat.zero_add]
    have hset := hc.settleable j x a hx ha
    exact ⟨a, ha, hset.fits, hset.fresh⟩
  · obtain ⟨hok, hapart, hall⟩ := he'
    have hnd := hcore.scheduler.flying_nodup
    rw [List.map_append] at hnd
    have hfar : ∀ x ∈ G.flatten, x.slot ∉ g.map RequestId.slot := fun x hx hmem =>
      (List.nodup_append.mp hnd).2.2 _ hmem _ (List.mem_map_of_mem hx) rfl
    have hkeeps : Keeps G e₁ e' := hapart.keeps hfar
    refine ⟨hok, ⟨hkeeps.geometry, hkeeps.requests⟩, hapart.completed, hapart.submitted,
      hapart.requests, hapart.slots, hapart.stamp, fun j x a hx ha => ?_⟩
    have hone := hall j x a hx (by rw [Nat.zero_add]; exact ha)
    exact ⟨hone.finalized, hone.released⟩
  · rintro count e' - ⟨rfl, hcompleted⟩
    exact ⟨g, G, rfl, hc, rfl, hcompleted⟩
  · rintro f e' - ⟨hnone, hviolation, hb, -, j, x, hx, hw, hbefore⟩
    refine ⟨hviolation, .inr ⟨hnone, g, G, rfl, hc, ⟨⟨hb.keeps.geometry, hb.keeps.requests⟩,
      hb.faulted, hb.kv, hb.exhausted, hb.flight, hb.submitted⟩, j, x, hx, hw,
      fun i hi y a hy ha => ?_⟩⟩
    have hone := hbefore i hi y a hy (by rw [Nat.zero_add]; exact ha)
    exact ⟨hone.finalized, hone.released⟩

end Engine

end EngineCore

end Ferric
