import Ferric.EngineCore.Slots

/-!
# What the scheduler's methods do

One contract for each method of the scheduler, from its invariant. A method that works for one slot
`Touches` it and moves it between the lists; a dispatch launches the requests it selected; a
completion finishes the oldest batch.

The members of a finished batch and the slots taken from the reclaim ring are settled by
`accept_finalized`, `reclaim_detached` and `reincarnate_detached`. Their checks cannot fail on the
evidence that the engine hands in.
-/

namespace Ferric

namespace EngineCore

open Spec Cache

variable {C : ℕ}

/-- The errors that report a broken invariant. -/
def SchedulerError.IsViolation : SchedulerError → Prop
  | .invariantViolation => True
  | .finalizationMismatch => True
  | _ => False

namespace Scheduler

variable {s s' : Scheduler C} {F F' R R' : List ℕ} {G : List (List RequestId)}
  {g P : List RequestId} {x : RequestId}

/-! ### One slot -/

theorem admitRequest_ensures (h : s.Ok F R G P) :
    Ensures s.admitRequest (fun e => ¬ e.IsViolation) fun r => ∃ i F', F = i :: F' ∧
      r.1 = ⟨i, (s.slots i).generation⟩ ∧ Touches i s r.2 ∧ r.2.Ok F' R G P ∧
      (r.2.slots i).state = .ready ∧ (r.2.slots i).generation = (s.slots i).generation := by
  rw [admitRequest]
  refine (ensures_failIf (Q := fun _ => F ≠ []) (fun _ => id) fun hne => ?_).bind
    fun _ _ hF => ?_
  · rintro rfl
    exact hne h.free_ring.len
  obtain ⟨i, F', rfl⟩ := List.exists_cons_of_ne_nil hF
  obtain ⟨hstate, hr, hfly, hepoch, hreclaim⟩ := h.vacant List.mem_cons_self
  have hi : i < C := h.free_lt i List.mem_cons_self
  have hnd := List.nodup_cons.mp h.free_nodup
  have hlive := h.live
  rw [List.length_cons] at hlive
  simp only [h.free_ring.buf_head, slotAt_of_lt hi, ok_bind]
  have ht : Touches i s (({ s with free := s.free.pop C, liveCount := s.liveCount + 1 } :
      Scheduler C).setSlot i { s.slots i with state := .ready, inFreeRing := false }) :=
    ⟨fun j hj => setSlot_of_ne hj, rfl, rfl, rfl, rfl, rfl⟩
  refine ensures_pure.mpr ⟨i, F', rfl, rfl, ht, ?_, by rw [setSlot_self], by rw [setSlot_self]⟩
  refine h.setOne hi ht h.free_ring.pop h.reclaim_ring ?_ hnd.2 h.reclaim_nodup (fun j hj => ?_)
    (fun _ _ => Iff.rfl) (List.Sublist.refl P) (fun _ _ => Iff.rfl) ?_ ?_ fun hx => absurd hx hfly
  · show s.liveCount + 1 + F'.length = C
    omega
  · rw [List.mem_cons]
    exact (or_iff_right hj).symm
  · rw [setSlot_self]
    exact ⟨hnd.1, hr, hfly, hepoch, hreclaim⟩
  · rw [setSlot_self]
    exact h.generation i hi

theorem retire_ensures (h : s.Ok F R G P) (request : RequestId) :
    Ensures (s.retire request) (fun e => ¬ e.IsViolation) fun s' =>
      Touches request.slot s s' ∧ request.slot < C ∧ (s.slots request.slot).state ≠ .vacant ∧
        (s'.slots request.slot).state = .retiring ∧
        (s'.slots request.slot).generation = (s.slots request.slot).generation ∧
        ∃ R', s'.Ok F R' G P := by
  rw [retire]
  refine (ensures_failIf (Q := fun _ => request.slot < C) (fun _ => id) not_le.mp).bind
    fun _ _ hi => ?_
  rw [slotAt_of_lt hi, ok_bind]
  refine (ensures_failIf (Q := fun _ => True) (fun _ => id) fun _ => trivial).bind fun _ _ _ => ?_
  generalize hreq : request.slot = i at hi ⊢
  cases hstate : (s.slots i).state with
  | vacant => exact id
  | retiring => exact id
  | inFlight =>
    obtain ⟨hf, hr, hfly, hepoch, hreclaim⟩ := h.inFlight hi hstate
    have ht : Touches i s (s.setSlot i { s.slots i with state := .retiring }) :=
      ⟨fun j hj => setSlot_of_ne hj, rfl, rfl, rfl, rfl, rfl⟩
    refine ensures_pure.mpr ⟨ht, hi, by simp, by rw [setSlot_self], by rw [setSlot_self], R, ?_⟩
    refine h.setOne hi ht h.free_ring h.reclaim_ring h.live h.free_nodup h.reclaim_nodup
      (fun _ _ => Iff.rfl) (fun _ _ => Iff.rfl) (List.Sublist.refl P) (fun _ _ => Iff.rfl) ?_ ?_
      fun _ => ?_
    · rw [setSlot_self]
      exact ⟨hf, .inr ⟨hr, hfly, hepoch, hreclaim⟩⟩
    · rw [setSlot_self]
      exact h.generation i hi
    · rw [setSlot_self]
      exact ⟨rfl, rfl⟩
  | ready =>
    obtain ⟨hf, hr, hfly, hepoch, hreclaim⟩ := h.ready hi hstate
    have hlen := length_lt_of_nodup_of_not_mem h.reclaim_nodup h.reclaim_lt hi hr
    have ht : Touches i s (({ s with reclaim := s.reclaim.push C i } : Scheduler C).setSlot i
        { s.slots i with state := .retiring, activeEpoch := noEpoch, inReclaimRing := true }) :=
      ⟨fun j hj => setSlot_of_ne hj, rfl, rfl, rfl, rfl, rfl⟩
    refine ensures_pure.mpr ⟨ht, hi, by simp, by rw [setSlot_self], by rw [setSlot_self],
      R ++ [i], ?_⟩
    refine h.setOne hi ht h.free_ring (h.reclaim_ring.push hlen i) h.live h.free_nodup ?_
      (fun _ _ => Iff.rfl) (fun j hj => ?_) (List.Sublist.refl P) (fun _ _ => Iff.rfl) ?_ ?_
      fun hx => absurd hx hfly
    · exact List.nodup_append.mpr ⟨h.reclaim_nodup, List.nodup_singleton i,
        fun a ha b hb he => hr (List.mem_singleton.mp hb ▸ he ▸ ha)⟩
    · rw [List.mem_append, List.mem_singleton]
      exact or_iff_left hj
    · rw [setSlot_self]
      exact ⟨hf, .inl ⟨List.mem_append_right _ (List.mem_singleton_self i), hfly, rfl, rfl⟩⟩
    · rw [setSlot_self]
      exact h.generation i hi

/-! ### Dispatch -/

theorem flown_nil : s.flown [] = s := by
  show ({ s with slots := fun i => _, members := s.members } : Scheduler C) = s
  cases s
  simp

/-- One more request is written to the member ring and its slot. -/
theorem setSlot_flown {sel : List RequestId} :
    ({ s.flown sel with members := (s.flown sel).members.push C x } : Scheduler C).setSlot x.slot
        { (s.flown sel).slots x.slot with state := .inFlight, activeEpoch := s.submitted + 1 } =
      s.flown (sel ++ [x]) := by
  have hslots : Function.update (s.flown sel).slots x.slot
      { (s.flown sel).slots x.slot with state := .inFlight, activeEpoch := s.submitted + 1 } =
      (s.flown (sel ++ [x])).slots := by
    funext i
    by_cases hi : i = x.slot
    · rw [hi, Function.update_self]
      simp only [flown, List.map_append, List.map_singleton, List.mem_append,
        List.mem_singleton, or_true, if_true]
      split <;> rfl
    · rw [Function.update_of_ne hi]
      simp only [flown, List.map_append, List.map_singleton, List.mem_append,
        List.mem_singleton, hi,
        or_false]
  have hmembers : (s.flown sel).members.push C x = (s.flown (sel ++ [x])).members := by
    simp only [flown, Ring.pushAll, List.foldl_append, List.foldl_cons, List.foldl_nil]
  show ({ s.flown sel with slots := _, members := _ } : Scheduler C) = _
  rw [hslots, hmembers]
  rfl

theorem flown_of_not_mem {sel : List RequestId} {i : ℕ} (h : i ∉ sel.map RequestId.slot) :
    (s.flown sel).slots i = s.slots i := if_neg h

/-- **Scan loop.** It selects ready requests, each once, and at most `limit` of them. -/
theorem dispatchScan_eq (limit left : ℕ) (sel : List RequestId) {slotIndex : ℕ}
    (hi : slotIndex < C) (hsel : s.Selectable sel) (hle : sel.length ≤ limit) :
    ∃ sel' index, dispatchScan limit (s.submitted + 1) left slotIndex sel (s.flown sel) =
        (sel', index, s.flown sel') ∧
      s.Selectable sel' ∧ sel'.length ≤ limit ∧ index < C := by
  induction left generalizing slotIndex sel with
  | zero => exact ⟨sel, slotIndex, rfl, hsel, hle, hi⟩
  | succ left ih =>
    rw [dispatchScan]
    by_cases hlt : sel.length < limit
    · rw [if_pos hlt]
      cases hstate : ((s.flown sel).slots slotIndex).state with
      | vacant => exact ih sel (Ring.ringNext_lt hi) hsel hle
      | inFlight => exact ih sel (Ring.ringNext_lt hi) hsel hle
      | retiring => exact ih sel (Ring.ringNext_lt hi) hsel hle
      | ready =>
        -- the slots taken so far are in flight
        have hnew : slotIndex ∉ sel.map RequestId.slot := by
          intro hmem
          rw [flown] at hstate
          simp only [if_pos hmem] at hstate
          exact absurd hstate (by simp)
        rw [flown_of_not_mem hnew] at hstate
        have hsel' : s.Selectable (sel ++ [⟨slotIndex, (s.slots slotIndex).generation⟩]) := by
          refine ⟨?_, fun x hx => ?_, fun x hx => ?_, fun x hx => ?_⟩
          · rw [List.map_append]
            refine hsel.nodup.append (List.nodup_singleton _) fun j hj hmem => ?_
            rw [List.mem_singleton.mp hmem] at hj
            exact hnew hj
          all_goals rcases List.mem_append.mp hx with hx | hx
          · exact hsel.lt x hx
          · exact List.mem_singleton.mp hx ▸ hi
          · exact hsel.ready x hx
          · exact List.mem_singleton.mp hx ▸ hstate
          · exact hsel.generation x hx
          · exact List.mem_singleton.mp hx ▸ rfl
        have hone : (s.flown sel).dispatchOneSelected slotIndex (s.submitted + 1) =
            (⟨slotIndex, (s.slots slotIndex).generation⟩,
              s.flown (sel ++ [⟨slotIndex, (s.slots slotIndex).generation⟩])) := by
          rw [dispatchOneSelected, ← setSlot_flown]
          simp only [flown_of_not_mem hnew]
        simp only [hone]
        exact ih _ (Ring.ringNext_lt hi) hsel' (by simp; omega)
    · rw [if_neg hlt]
      exact ⟨sel, slotIndex, rfl, hsel, hle, hi⟩

theorem selectable_nil : s.Selectable [] := ⟨List.nodup_nil, by simp, by simp, by simp⟩

theorem dispatchReady_ensures (h : s.Ok F R G P) (outputLen : ℕ) :
    Ensures (s.dispatchReady outputLen) (fun e => ¬ e.IsViolation) fun r => r = (none, s) ∨
      ∃ sel cursor, r = (some ⟨s.submitted + 1, sel⟩, s.launched sel cursor) ∧
        s.Selectable sel ∧ (s.launched sel cursor).Ok F R (G ++ [sel]) P := by
  rw [dispatchReady]
  refine (ensures_failIf (Q := fun _ => True) (fun _ => id) fun _ => trivial).bind fun _ _ _ => ?_
  refine (ensures_orErr (Q := fun n => s.submitted + 1 < 2 ^ 64 ∧ n = s.submitted + 1)
    (fun _ => id) fun n hn => ?_).bind fun n _ hn => ?_
  · obtain ⟨hlt, heq⟩ := checkedAdd_eq_some.mp hn
    exact ⟨hlt, heq.symm⟩
  obtain ⟨hlt, rfl⟩ := hn
  split
  · exact .inl rfl
  rename_i hroom
  obtain ⟨hb, hm⟩ := not_or.mp hroom
  obtain ⟨sel, index, hscan, hsel, hle, hindex⟩ := dispatchScan_eq (s := s)
    (min outputLen (C - s.members.len)) C [] h.cursor_lt selectable_nil (Nat.zero_le _)
  rw [flown_nil] at hscan
  simp only [hscan]
  by_cases hne : sel.length = 0
  · rw [if_pos hne]
    obtain rfl := List.length_eq_zero_iff.mp hne
    rw [flown_nil]
    exact .inl rfl
  rw [if_neg hne]
  have hlen := h.member_ring.len
  have hmle := h.member_ring.le
  have hblen := h.batch_ring.len
  have hble := h.batch_ring.le
  rw [length_records] at hblen hble
  exact .inr ⟨sel, index, rfl, hsel, h.launch hsel (fun he => hne (by rw [he]; rfl)) (by omega)
    (by omega) hlt hindex⟩

theorem checkLane_ensures {requests : List RequestId} {lane : ℕ} :
    Ensures (s.checkLane requests x lane) (fun _ => True) fun _ => True := by
  rw [checkLane]
  split
  · trivial
  · split <;> trivial

/-- The lanes of a roster that passes the check may be dispatched. -/
theorem selectable_of_checkLane {requests : List RequestId}
    (h : ∀ y ∈ requests.zipIdx, s.checkLane requests y.1 y.2 = .ok ()) : s.Selectable requests := by
  have hlane : ∀ k y, requests[k]? = some y →
      (∀ first ∈ requests.take k, first.slot ≠ y.slot) ∧ s.state y = some .ready := by
    intro k y hy
    have hcheck := h (y, k) (List.mem_zipIdx_iff_getElem?.mpr hy)
    rw [checkLane] at hcheck
    split at hcheck
    · exact absurd hcheck (by simp)
    · rename_i hfind
      refine ⟨fun first hfirst => ?_, ?_⟩
      · simpa using List.findIdx?_eq_none_iff.mp hfind first hfirst
      · split at hcheck
        · exact absurd hcheck (by simp)
        · assumption
        · exact absurd hcheck (by simp)
  have hready : ∀ y ∈ requests, y.slot < C ∧ (s.slots y.slot).state = .ready ∧
      (s.slots y.slot).generation = y.generation := by
    intro y hy
    obtain ⟨k, hk⟩ := List.mem_iff_getElem?.mp hy
    have hstate := (hlane k y hk).2
    rw [state] at hstate
    split at hstate
    · exact absurd hstate (by simp)
    · split at hstate
      · split at hstate
        · exact absurd hstate (by simp)
        · exact ⟨not_le.mp ‹_›, Option.some.inj hstate, ‹_›⟩
      · exact absurd hstate (by simp)
  refine ⟨?_, fun y hy => (hready y hy).1, fun y hy => (hready y hy).2.1,
    fun y hy => (hready y hy).2.2⟩
  rw [List.Nodup, List.pairwise_map, List.pairwise_iff_getElem]
  intro i j hi hj hij
  refine (hlane j requests[j] (List.getElem?_eq_getElem hj)).1 requests[i] ?_
  exact List.mem_take_iff_getElem.mpr ⟨i, by omega, rfl⟩

/-- **Commit loop.** -/
theorem commitLanes_eq {requests : List RequestId} (sel : List RequestId)
    (h : ∀ y ∈ requests, y.slot < C) :
    requests.foldlM (commitLane (s.submitted + 1)) (s.flown sel) =
      .ok (s.flown (sel ++ requests)) := by
  induction requests generalizing sel with
  | nil =>
    rw [List.append_nil]
    rfl
  | cons y requests ih =>
    rw [List.foldlM_cons, commitLane, slotAt_of_lt (h y List.mem_cons_self), ok_bind]
    simp only [setSlot_flown]
    have := ih (sel ++ [y]) fun z hz => h z (List.mem_cons_of_mem _ hz)
    rw [List.append_assoc] at this
    exact this

theorem dispatchM1ExactReady_ensures (h : s.Ok F R G P) (expectedEpoch : ℕ)
    (requests : List RequestId) :
    Ensures (s.dispatchM1ExactReady expectedEpoch requests) (fun _ => True) fun r =>
      r = (⟨s.submitted + 1, requests⟩, s.launched requests s.cursor) ∧ s.Selectable requests ∧
        (s.launched requests s.cursor).Ok F R (G ++ [requests]) P := by
  rw [dispatchM1ExactReady]
  refine (ensures_failIf (Q := fun _ => requests ≠ []) (fun _ => trivial) fun hne he =>
    hne (by rw [he]; rfl)).bind fun _ _ hne => ?_
  refine (ensures_failIf (Q := fun _ => True) (fun _ => trivial) fun _ => trivial).bind
    fun _ _ _ => ?_
  refine (ensures_orErr (Q := fun n => s.submitted + 1 < 2 ^ 64 ∧ n = s.submitted + 1)
    (fun _ => trivial) fun n hn => ?_).bind fun n _ hn => ?_
  · obtain ⟨hlt, heq⟩ := checkedAdd_eq_some.mp hn
    exact ⟨hlt, heq.symm⟩
  obtain ⟨hlt, rfl⟩ := hn
  refine (ensures_failIf (Q := fun _ => True) (fun _ => trivial) fun _ => trivial).bind
    fun _ _ _ => ?_
  refine (ensures_failIf (Q := fun _ => s.batches.len ≠ C) (fun _ => trivial) id).bind
    fun _ _ hb => ?_
  refine (ensures_failIf (Q := fun _ => requests.length ≤ C - s.members.len) (fun _ => trivial)
    not_lt.mp).bind fun _ _ hm => ?_
  refine (ensures_foldlM (d := []) (E := fun _ => True) (I := fun done _ _ =>
    ∀ y ∈ done, s.checkLane requests y.1 y.2 = .ok ()) (by simp) ?_).bind fun _ _ hchecked => ?_
  · intro done y rest _ hdone
    refine checkLane_ensures.mono (fun _ _ => trivial) fun _ hy _ z hz => ?_
    rcases List.mem_append.mp hz with hz | hz
    · exact hdone z hz
    · rw [List.mem_singleton.mp hz]
      exact hy
  have hsel : s.Selectable requests := selectable_of_checkLane hchecked
  have hcommit := commitLanes_eq (s := s) [] hsel.lt
  rw [flown_nil, List.nil_append] at hcommit
  rw [hcommit, ok_bind]
  have hlen := h.member_ring.len
  have hmle := h.member_ring.le
  have hblen := h.batch_ring.len
  have hble := h.batch_ring.le
  rw [length_records] at hblen hble
  exact ensures_pure.mpr ⟨rfl, hsel, h.launch hsel hne (by omega) (by omega) hlt h.cursor_lt⟩

/-- The lanes of a selectable roster pass the check. -/
theorem checkLane_of_selectable {requests : List RequestId} (h : s.Selectable requests) {lane : ℕ}
    (hx : requests[lane]? = some x) : s.checkLane requests x lane = .ok () := by
  have hmem := List.mem_of_getElem? hx
  obtain ⟨hlt, rfl⟩ := List.getElem?_eq_some_iff.mp hx
  have hfirst : (requests.take lane).findIdx? (fun y => y.slot = requests[lane].slot) = none := by
    refine List.findIdx?_eq_none_iff.mpr fun y hy => ?_
    obtain ⟨i, hi, rfl⟩ := List.mem_take_iff_getElem.mp hy
    have hnd := h.nodup
    rw [List.Nodup, List.pairwise_map, List.pairwise_iff_getElem] at hnd
    simpa using hnd i lane (by omega) hlt (by omega)
  have hstate : s.state requests[lane] = some .ready := by
    rw [state, if_neg (not_le.mpr (h.lt _ hmem)), if_pos (h.generation _ hmem), h.ready _ hmem]
  rw [checkLane, hfirst]
  simp only [hstate]

/-- A selectable roster that fits the rings is dispatched. -/
theorem dispatchM1ExactReady_eq (h : s.Ok F R G P) {requests : List RequestId}
    (hsel : s.Selectable requests) (hne : requests ≠ [])
    (hlen : requests.length ≤ maxActiveSequences) (hbatches : G.length < C)
    (hmembers : G.flatten.length + requests.length ≤ C) (hlt : s.submitted + 1 < 2 ^ 64) :
    s.dispatchM1ExactReady (s.submitted + 1) requests =
      .ok (⟨s.submitted + 1, requests⟩, s.launched requests s.cursor) := by
  have hadd : checkedAdd 64 s.submitted 1 = some (s.submitted + 1) := if_pos hlt
  have hb := h.batch_ring.len
  have hm := h.member_ring.len
  rw [length_records] at hb
  have hchecks : requests.zipIdx.foldlM (fun _ lane => s.checkLane requests lane.1 lane.2) () =
      .ok () :=
    foldlM_checks_eq_ok.mpr fun lane hlane =>
      checkLane_of_selectable hsel (List.mem_zipIdx_iff_getElem?.mp hlane)
  have hcommit := commitLanes_eq (s := s) [] hsel.lt
  rw [flown_nil, List.nil_append] at hcommit
  rw [dispatchM1ExactReady, failIf_of_not (fun he => hne (List.length_eq_zero_iff.mp he)), ok_bind,
    failIf_of_not hlen.not_gt, ok_bind, hadd]
  simp only [orErr, ok_bind]
  rw [failIf_of_not (not_not.mpr rfl), ok_bind, failIf_of_not (by omega), ok_bind,
    failIf_of_not (by omega), ok_bind, hchecks, ok_bind, hcommit]
  rfl

/-! ### Completion -/

theorem Ok.batches_len (h : s.Ok F R G P) : s.batches.len = G.length := by
  rw [h.batch_ring.len, length_records]

theorem Ok.member_at (h : s.Ok F R (g :: G) P) {k : ℕ} (hk : g[k]? = some x) :
    s.members.buf (ringTail C s.members.head k) = x := by
  refine h.member_ring.cell k x ?_
  rw [List.flatten_cons, List.getElem?_append_left (List.getElem?_eq_some_iff.mp hk).1]
  exact hk

theorem Ok.pendingBatchMemberCount_eq (h : s.Ok F R G P) :
    s.pendingBatchMemberCount = (G.head?.getD []).length := by
  rw [pendingBatchMemberCount, h.batches_len]
  cases G with
  | nil => rfl
  | cons g G => rw [if_neg (by simp), h.batch_ring.buf_head]; rfl

theorem Ok.pendingMember_eq (h : s.Ok F R (g :: G) P) (k : ℕ) : s.pendingMember k = g[k]? := by
  rw [pendingMember, h.batches_len, h.batch_ring.buf_head]
  by_cases hk : k < g.length
  · rw [if_neg (by simpa using hk), h.member_at (List.getElem?_eq_getElem hk),
      List.getElem?_eq_getElem hk]
  · rw [if_pos (.inr (not_lt.mp hk)), List.getElem?_eq_none (not_lt.mp hk)]

theorem Ok.mem_flying (_h : s.Ok F R G P) {k : ℕ} (hk : G[k]? = some g) (hx : x ∈ g) :
    x ∈ P ++ G.flatten :=
  List.mem_append_right _ (List.mem_flatten.mpr ⟨g, List.mem_of_getElem? hk, hx⟩)

/-- A handle that is in flight names a live slot. -/
theorem Ok.state_flying (h : s.Ok F R G P) (hx : x ∈ P ++ G.flatten) :
    s.state x = some (s.slots x.slot).state ∧
      ((s.slots x.slot).state = .inFlight ∨ (s.slots x.slot).state = .retiring) := by
  obtain ⟨hlt, hgen⟩ := h.flying x hx
  obtain ⟨-, -, -, -, hstate⟩ := h.flies hlt (List.mem_map_of_mem hx)
  refine ⟨?_, hstate⟩
  rw [state, if_neg (not_le.mpr hlt), if_pos hgen]
  rcases hstate with hstate | hstate <;> rw [hstate]

theorem Ok.pendingRetirementReady_eq (h : s.Ok F R (g :: G) P) {k : ℕ} (hk : g[k]? = some x)
    (hstate : (s.slots x.slot).state = .retiring) :
    s.pendingRetirementReady k x (s.completed + 1) = decide (x.generation < u32Max) := by
  have hx := h.mem_flying (k := 0) rfl (List.mem_of_getElem? hk)
  obtain ⟨hlt, hgen⟩ := h.flying x hx
  obtain ⟨-, -, -, hreclaim, -⟩ := h.flies hlt (List.mem_map_of_mem hx)
  have hepoch := h.epoch 0 g rfl x (List.mem_of_getElem? hk)
  rw [pendingRetirementReady, h.pendingMember_eq, if_neg]
  · simp [hgen, hstate, hepoch, hreclaim]
  · rintro (hne | hge)
    · exact hne hk
    · exact absurd hlt (not_lt.mpr hge)

/-- The permits of a batch, by position. -/
def permitsOf (epoch : ℕ) (batch : List RequestId) (k : ℕ) : Option KvQuiescencePermit :=
  batch[k]?.map fun request => ⟨request, .completedExact epoch⟩

theorem Ok.checkMember_eq (h : s.Ok F R (g :: G) P) {permits : ℕ → Option KvQuiescencePermit}
    {k : ℕ} (hk : k < g.length) (hp : permits k = none) :
    s.checkMember (s.completed + 1) permits k = .ok () := by
  have hget : g[k]? = some g[k] := List.getElem?_eq_getElem hk
  have hx := h.mem_flying (k := 0) rfl (List.mem_of_getElem? hget)
  obtain ⟨hlt, hgen⟩ := h.flying _ hx
  obtain ⟨-, hstate⟩ := h.state_flying hx
  have hepoch := h.epoch 0 g rfl _ (List.mem_of_getElem? hget)
  rw [checkMember, hp, failIf_of_not (by simp), ok_bind]
  simp only [h.member_at hget]
  rw [failIf_of_not (not_le.mpr hlt), ok_bind, slotAt_of_lt hlt, ok_bind, failIf_of_not, ok_bind,
    failIf_of_not]
  · rintro ⟨h1, h2⟩
    exact hstate.elim h1 h2
  · rintro (hne | hne)
    · exact hne hgen
    · exact hne hepoch

/-- The next exact completion of a pending batch goes through. -/
theorem completeExact_eq (h : s.Ok F R (g :: G) P) {permits : ℕ → Option KvQuiescencePermit}
    (hp : ∀ k < C, permits k = none) :
    ∃ permits', s.completeExact (s.completed + 1) C permits =
        .ok (g.length, permits', s.finished g) ∧
      ∀ k < C, permits' k = permitsOf (s.completed + 1) g k := by
  have hlen : g.length ≤ C := by
    have := h.member_ring.le
    rw [List.flatten_cons, List.length_append] at this
    omega
  have hne : g.length ≠ 0 := fun he =>
    h.nonempty g List.mem_cons_self (List.length_eq_zero_iff.mp he)
  have hlt : s.completed + 1 < 2 ^ 64 := by
    have h1 := h.submitted_eq
    have h2 := h.submitted_lt
    rw [List.length_cons] at h1
    omega
  refine ⟨s.writePermits (s.completed + 1) g.length permits, ?_, fun k hk => ?_⟩
  · have hadd : checkedAdd 64 s.completed 1 = some (s.completed + 1) := if_pos hlt
    have hloop : (List.range g.length).foldlM
        (fun _ k => s.checkMember (s.completed + 1) permits k) () = .ok () := by
      refine foldlM_checks_eq_ok.mpr fun k hk => ?_
      have hk := List.mem_range.mp hk
      exact h.checkMember_eq hk (hp k (hk.trans_le hlen))
    rw [completeExact, h.batches_len, failIf_of_not (by simp), ok_bind, hadd]
    simp only [orErr, ok_bind, h.batch_ring.buf_head]
    rw [failIf_of_not (not_not.mpr rfl), ok_bind, failIf_of_not, ok_bind,
      failIf_of_not (not_lt.mpr hlen), ok_bind, hloop, ok_bind]
    · rfl
    · exact fun hx => hx.elim (fun hx => hx rfl) hne
  · rw [writePermits, permitsOf]
    by_cases hlt' : k < g.length
    · rw [if_pos hlt', h.member_at (List.getElem?_eq_getElem hlt'), List.getElem?_eq_getElem hlt']
      rfl
    · rw [if_neg hlt', List.getElem?_eq_none (not_lt.mp hlt'), hp k hk]
      rfl

/-! ### Settlement -/

theorem succ_lt_of_lt_u32Max {n : ℕ} (h : n < u32Max) : n + 1 < 2 ^ 32 := by
  rw [u32Max] at h
  omega

/-- A member of a finished batch that is still in flight is ready again. -/
theorem acceptFinalized_eq (h : s.Ok F R G (x :: P))
    (hstate : (s.slots x.slot).state = .inFlight) :
    ∃ s', s.acceptFinalized ⟨x, .completedExact s.completed⟩ = .ok s' ∧ Touches x.slot s s' ∧
      s'.Ok F R G P ∧ (s'.slots x.slot).state = .ready ∧
      (s'.slots x.slot).generation = (s.slots x.slot).generation := by
  obtain ⟨hlt, hgen⟩ := h.flying x List.mem_cons_self
  obtain ⟨hf, hr, -, hepoch, hreclaim⟩ := h.inFlight hlt hstate
  have hactive := h.settled x List.mem_cons_self
  have hnd := h.flying_nodup
  rw [List.cons_append, List.map_cons, List.nodup_cons] at hnd
  have ht : Touches x.slot s (s.setSlot x.slot { s.slots x.slot with
      state := .ready, activeEpoch := noEpoch, lastQuiescentEpoch := s.completed }) :=
    ⟨fun j hj => setSlot_of_ne hj, rfl, rfl, rfl, rfl, rfl⟩
  refine ⟨_, ?_, ht, ?_, by rw [setSlot_self], by rw [setSlot_self]⟩
  · rw [acceptFinalized]
    simp only [ok_bind]
    rw [failIf_of_not (not_le.mpr hlt), ok_bind, slotAt_of_lt hlt, ok_bind,
      failIf_of_not (not_not.mpr hgen), ok_bind, failIf_of_not (not_not.mpr hstate), ok_bind,
      failIf_of_not hepoch, ok_bind, failIf_of_not (by omega), ok_bind,
      failIf_of_not (not_not.mpr hactive), ok_bind]
    rfl
  · refine h.setOne hlt ht h.free_ring h.reclaim_ring h.live h.free_nodup h.reclaim_nodup
      (fun _ _ => Iff.rfl) (fun _ _ => Iff.rfl) (List.sublist_cons_self x P) (fun j hj => ?_) ?_ ?_
      fun hx => absurd hx hnd.1
    · rw [List.map_cons, List.mem_cons]
      exact (or_iff_right hj).symm
    · rw [setSlot_self]
      exact ⟨hf, hr, hnd.1, rfl, hreclaim⟩
    · rw [setSlot_self]
      exact h.generation _ hlt

/-- The slot goes back to the free ring under its next generation. -/
def vacated (s : Scheduler C) (i : ℕ) : Scheduler C :=
  ({ s with free := s.free.push C i, liveCount := s.liveCount - 1 } : Scheduler C).setSlot i
    { Slot.initial with generation := (s.slots i).generation + 1 }

theorem reclaimDetached_eq {origin : KvQuiescenceOrigin} (hlt : x.slot < C)
    (hgen : (s.slots x.slot).generation = x.generation)
    (hstate : (s.slots x.slot).state = .retiring)
    (hreclaim : (s.slots x.slot).inReclaimRing = false)
    (horigin : s.originMatches (s.slots x.slot) origin = true) (hmax : x.generation < u32Max)
    (hfree : s.free.len < C) (hlive : 0 < s.liveCount) :
    s.reclaimDetached ⟨x, origin⟩ = .ok (x, s.vacated x.slot) := by
  have hnext : (s.slots x.slot).generation + 1 < 2 ^ 32 := succ_lt_of_lt_u32Max (hgen ▸ hmax)
  rw [reclaimDetached]
  simp only
  rw [failIf_of_not (not_le.mpr hlt), ok_bind, slotAt_of_lt hlt, ok_bind,
    failIf_of_not (not_not.mpr hgen), ok_bind, failIf_of_not (not_not.mpr hstate), ok_bind,
    failIf_of_not (by simp [hreclaim, horigin]), ok_bind, reclaimNextGeneration, slotAt_of_lt hlt,
    ok_bind, failIf_of_not (by rw [hgen]; exact hmax.ne), ok_bind, checkedAdd, if_pos hnext]
  simp only [orPanic, ok_bind]
  rw [failIf_of_not hfree.ne, ok_bind, checkedSub_of_le hlive]
  rfl

/-- A slot that is neither free nor in flight any more becomes free. -/
theorem Ok.vacate (h : s.Ok F R G P) {i : ℕ} {P' : List RequestId} (hi : i < C) (hf : i ∉ F)
    (hmax : (s.slots i).generation < u32Max) (ht : Touches i s s')
    (hfree : s'.free = s.free.push C i) (hlive : s'.liveCount = s.liveCount - 1)
    (hself : s'.slots i = { Slot.initial with generation := (s.slots i).generation + 1 })
    (hreclaim : s'.reclaim.Spells C R') (hrn : R'.Nodup) (hr : i ∉ R')
    (hR : ∀ j, j ≠ i → (j ∈ R' ↔ j ∈ R)) (hP : P'.Sublist P)
    (hkept : ∀ j, j ≠ i → (j ∈ P'.map RequestId.slot ↔ j ∈ P.map RequestId.slot))
    (hfly : i ∉ (P' ++ G.flatten).map RequestId.slot) : s'.Ok (F ++ [i]) R' G P' := by
  have hlen := length_lt_of_nodup_of_not_mem h.free_nodup h.free_lt hi hf
  have hcount := h.live
  refine h.setOne hi ht (hfree ▸ h.free_ring.push hlen i) hreclaim ?_ ?_ hrn (fun j hj => ?_) hR hP
    hkept ?_ ?_ fun hx => absurd hx hfly
  · rw [hlive, List.length_append, List.length_singleton]
    omega
  · exact List.nodup_append.mpr ⟨h.free_nodup, List.nodup_singleton i,
      fun a ha b hb he => hf (List.mem_singleton.mp hb ▸ he ▸ ha)⟩
  · rw [List.mem_append, List.mem_singleton]
    exact or_iff_left hj
  · rw [hself]
    exact ⟨List.mem_append_right _ (List.mem_singleton_self i), hr, hfly, rfl, rfl⟩
  · rw [hself]
    exact ⟨Nat.succ_pos _, succ_lt_of_lt_u32Max hmax⟩

/-- A member of a finished batch that retired meanwhile is free again. -/
theorem reclaimDetached_settled (h : s.Ok F R G (x :: P))
    (hstate : (s.slots x.slot).state = .retiring) (hmax : x.generation < u32Max) :
    s.reclaimDetached ⟨x, .completedExact s.completed⟩ = .ok (x, s.vacated x.slot) ∧
      (s.vacated x.slot).Ok (F ++ [x.slot]) R G P := by
  obtain ⟨hlt, hgen⟩ := h.flying x List.mem_cons_self
  obtain ⟨hf, hr, hepoch, hreclaim, -⟩ := h.flies hlt (List.mem_map_of_mem List.mem_cons_self)
  have hactive := h.settled x List.mem_cons_self
  have hnd := h.flying_nodup
  rw [List.cons_append, List.map_cons, List.nodup_cons] at hnd
  have hlen := length_lt_of_nodup_of_not_mem h.free_nodup h.free_lt hlt hf
  have hcount := h.live
  refine ⟨reclaimDetached_eq hlt hgen hstate hreclaim ?_ hmax ?_ (by omega), ?_⟩
  · simp only [originMatches, hactive]
    rw [hactive] at hepoch
    simp [hepoch]
  · rw [h.free_ring.len]
    exact hlen
  · refine h.vacate hlt hf (hgen ▸ hmax) ⟨fun j hj => setSlot_of_ne hj, rfl, rfl, rfl, rfl, rfl⟩ rfl
      rfl setSlot_self h.reclaim_ring h.reclaim_nodup hr (fun _ _ => Iff.rfl)
      (List.sublist_cons_self x P) (fun j hj => ?_) hnd.1
    rw [List.map_cons, List.mem_cons]
    exact (or_iff_right hj).symm

/-- The slot at the head of the reclaim ring is off the ring. -/
def unparked (s : Scheduler C) (i : ℕ) : Scheduler C :=
  ({ s with reclaim := s.reclaim.pop C } : Scheduler C).setSlot i
    { s.slots i with inReclaimRing := false }

/-- The origin of the permit for a parked slot. -/
def parkedOrigin (slot : Slot) : KvQuiescenceOrigin :=
  if slot.lastQuiescentEpoch = noEpoch then .neverSubmitted
  else .completedExact slot.lastQuiescentEpoch

theorem takeRetiringPermit_nil (h : s.Ok F [] G P) : s.takeRetiringPermit = .ok (none, s) := by
  rw [takeRetiringPermit, if_pos (show s.reclaim.len = 0 from h.reclaim_ring.len)]
  rfl

theorem takeRetiringPermit_cons {i : ℕ} (h : s.Ok F (i :: R) G P) :
    s.takeRetiringPermit = .ok (some ⟨⟨i, (s.slots i).generation⟩, parkedOrigin (s.slots i)⟩,
      s.unparked i) := by
  obtain ⟨hstate, -, -, hepoch, hreclaim⟩ := h.parked List.mem_cons_self
  have hi := h.reclaim_lt i List.mem_cons_self
  rw [takeRetiringPermit, if_neg (by rw [h.reclaim_ring.len]; simp)]
  simp only [h.reclaim_ring.buf_head]
  rw [failIf_of_not (not_le.mpr hi), ok_bind, slotAt_of_lt hi, ok_bind,
    failIf_of_not (not_not.mpr hstate), ok_bind, failIf_of_not (not_not.mpr hepoch), ok_bind,
    failIf_of_not (by simp [hreclaim]), ok_bind]
  rfl

theorem reclaimDetached_parked {i : ℕ} (h : s.Ok F (i :: R) G P)
    (hmax : (s.slots i).generation < u32Max) :
    (s.unparked i).reclaimDetached ⟨⟨i, (s.slots i).generation⟩, parkedOrigin (s.slots i)⟩ =
        .ok (⟨i, (s.slots i).generation⟩, (s.unparked i).vacated i) ∧
      Touches i s ((s.unparked i).vacated i) ∧
      ((s.unparked i).vacated i).slots i =
        { Slot.initial with generation := (s.slots i).generation + 1 } ∧
      ((s.unparked i).vacated i).Ok (F ++ [i]) R G P := by
  obtain ⟨hstate, hf, hfly, hepoch, -⟩ := h.parked List.mem_cons_self
  have hi := h.reclaim_lt i List.mem_cons_self
  have hself : (s.unparked i).slots i = { s.slots i with inReclaimRing := false } := setSlot_self
  have hslot : ((s.unparked i).vacated i).slots i =
      { Slot.initial with generation := (s.slots i).generation + 1 } := by
    rw [vacated, setSlot_self, hself]
  have ht : Touches i s ((s.unparked i).vacated i) :=
    ⟨fun j hj => (setSlot_of_ne hj).trans (setSlot_of_ne hj), rfl, rfl, rfl, rfl, rfl⟩
  have hnd := List.nodup_cons.mp h.reclaim_nodup
  have hlen := length_lt_of_nodup_of_not_mem h.free_nodup h.free_lt hi hf
  have hcount := h.live
  refine ⟨reclaimDetached_eq hi ?_ ?_ ?_ ?_ hmax ?_ (show 0 < s.liveCount by omega), ht, hslot, ?_⟩
  · rw [hself]
  · rw [hself]
    exact hstate
  · rw [hself]
  · rw [hself, parkedOrigin]
    split
    · simp [originMatches, *]
    · simp [originMatches, hepoch]
  · show s.free.len < C
    rw [h.free_ring.len]
    exact hlen
  · refine h.vacate hi hf hmax ht rfl rfl hslot h.reclaim_ring.pop hnd.2 hnd.1 (fun j hj => ?_)
      (List.Sublist.refl P) (fun _ _ => Iff.rfl) hfly
    rw [List.mem_cons]
    exact (or_iff_right hj).symm

theorem preflightNextReincarnation_ensures (h : s.Ok F R G P) :
    Ensures s.preflightNextReincarnation (fun e => ¬ e.IsViolation) fun r =>
      ∃ i R', R = i :: R' ∧ r = ⟨i, (s.slots i).generation⟩ ∧ (s.slots i).generation < u32Max := by
  rw [preflightNextReincarnation]
  refine (ensures_failIf (Q := fun _ => R ≠ []) (fun _ => id) fun hne => ?_).bind
    fun _ _ hR => ?_
  · rintro rfl
    exact hne h.reclaim_ring.len
  obtain ⟨i, R', rfl⟩ := List.exists_cons_of_ne_nil hR
  have hi := h.reclaim_lt i List.mem_cons_self
  simp only [h.reclaim_ring.buf_head, slotAt_of_lt hi, ok_bind]
  refine (ensures_failIf (Q := fun _ => (s.slots i).generation ≠ u32Max) (fun _ => id) id).bind
    fun _ _ hmax => ensures_pure.mpr ⟨i, R', rfl, rfl, ?_⟩
  have := (h.generation i hi).2
  rw [u32Max] at hmax ⊢
  omega

theorem reincarnateDetached_parked {ε : Type} {i : ℕ} {origin : KvQuiescenceOrigin}
    (h : s.Ok F (i :: R) G P) (hmax : (s.slots i).generation < u32Max) :
    ∃ s', ((s.unparked i).reincarnateDetached ⟨⟨i, (s.slots i).generation⟩, origin⟩ :
          Outcome ε (RequestId × Scheduler C)) =
        .ok (⟨i, (s.slots i).generation + 1⟩, s') ∧ Touches i s s' ∧
      (s'.slots i).generation = (s.slots i).generation + 1 ∧ (s'.slots i).state = .ready ∧
      s'.Ok F R G P := by
  obtain ⟨-, hf, hfly, -, -⟩ := h.parked List.mem_cons_self
  have hi := h.reclaim_lt i List.mem_cons_self
  have hnd := List.nodup_cons.mp h.reclaim_nodup
  have hnext : (s.slots i).generation + 1 < 2 ^ 32 := succ_lt_of_lt_u32Max hmax
  have hself : (s.unparked i).slots i = { s.slots i with inReclaimRing := false } := setSlot_self
  have ht : Touches i s ((s.unparked i).setSlot i { Slot.initial with
      generation := (s.slots i).generation + 1, state := .ready, inFreeRing := false }) :=
    ⟨fun j hj => (setSlot_of_ne hj).trans (setSlot_of_ne hj), rfl, rfl, rfl, rfl, rfl⟩
  refine ⟨_, ?_, ht, by rw [setSlot_self], by rw [setSlot_self], ?_⟩
  · rw [reincarnateDetached]
    simp only
    rw [slotAt_of_lt hi, ok_bind, hself]
    simp only
    rw [if_neg hmax.ne, checkedAdd, if_pos hnext]
    rfl
  · refine h.setOne hi ht h.free_ring h.reclaim_ring.pop h.live h.free_nodup hnd.2
      (fun _ _ => Iff.rfl) (fun j hj => ?_) (List.Sublist.refl P) (fun _ _ => Iff.rfl) ?_ ?_
      fun hx => absurd hx hfly
    · rw [List.mem_cons]
      exact (or_iff_right hj).symm
    · rw [setSlot_self]
      exact ⟨hf, hnd.1, hfly, rfl, rfl⟩
    · rw [setSlot_self]
      exact ⟨Nat.succ_pos _, hnext⟩

end Scheduler

end EngineCore

end Ferric
