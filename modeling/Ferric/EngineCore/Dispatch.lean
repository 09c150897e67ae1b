import Ferric.EngineCore.Runs

/-!
# What a dispatch selects

A dispatch looks at the slots in their cyclic order from the cursor, takes the ready ones until the
batch is full, and leaves the cursor where it stopped. So it takes the first ready slots of that
order, and a ready slot that it did not take is nearer to the cursor afterwards.

## Main definitions

* `Scheduler.readySlots` — the ready slots in their cyclic order from the cursor
* `distance` — from the cursor to a slot

## Main results

* `Scheduler.dispatchReady_eq_ok` — what a dispatch returns
* `Scheduler.distance_lt_of_dispatch` — a ready slot that is passed over comes nearer
-/

namespace Ferric

namespace EngineCore

open Spec Cache

variable {C : ℕ}

/-- How far a slot is ahead of a cursor, in the cyclic order of the slots. -/
def distance (C cursor slot : ℕ) : ℕ :=
  if cursor ≤ slot then slot - cursor else slot + C - cursor

theorem distance_lt {cursor slot : ℕ} (hc : cursor < C) (hs : slot < C) :
    distance C cursor slot < C := by
  rw [distance]
  split <;> omega

/-- The slot at a distance. -/
theorem ringTail_distance {cursor slot : ℕ} (hc : cursor < C) (hs : slot < C) :
    ringTail C cursor (distance C cursor slot) = slot := by
  rw [ringTail, distance]
  split <;> split <;> omega

/-- The distance of a slot from a cursor that has moved on. -/
theorem distance_ringTail {cursor slot k : ℕ} (hc : cursor < C) (hs : slot < C)
    (hk : k ≤ distance C cursor slot) :
    distance C (ringTail C cursor k) slot = distance C cursor slot - k := by
  have hlt := distance_lt hc hs
  rw [distance] at hk hlt
  rw [ringTail, distance, distance]
  split at hk <;> split <;> split <;> omega

namespace Scheduler

variable {s s' : Scheduler C} {k n : ℕ}

/-- The request in a slot. -/
def handle (s : Scheduler C) (slot : ℕ) : RequestId := ⟨slot, (s.slots slot).generation⟩

/-- The ready slots among `count` of them from position `start` after the cursor on. -/
def readyBetween (s : Scheduler C) (start count : ℕ) : List ℕ :=
  ((List.range' start count).map (ringTail C s.cursor)).filter
    fun slot => (s.slots slot).state = .ready

/-- The ready slots in their cyclic order from the cursor. -/
def readySlots (s : Scheduler C) : List ℕ := s.readyBetween 0 C

theorem readyBetween_succ :
    s.readyBetween k (n + 1) =
      (if (s.slots (ringTail C s.cursor k)).state = .ready then [ringTail C s.cursor k] else []) ++
        s.readyBetween (k + 1) n := by
  rw [readyBetween, readyBetween, List.range'_succ, List.map_cons, List.filter_cons]
  by_cases h : (s.slots (ringTail C s.cursor k)).state = .ready
  · simp [h]
  · simp [h]

theorem readyBetween_append (m : ℕ) :
    s.readyBetween k (n + m) = s.readyBetween k n ++ s.readyBetween (k + n) m := by
  rw [readyBetween, readyBetween, readyBetween, ← List.filter_append, ← List.map_append,
    List.range'_append_1]

/-- **Scan loop.** It stops after some positions, having taken the ready slots among them: when the
batch is full, or at the end. -/
theorem dispatchScan_spec (limit : ℕ) (sel : List RequestId) (hc : s.cursor < C) (hk : k + n = C)
    (hnew : ∀ i, k ≤ i → i < C → ringTail C s.cursor i ∉ sel.map RequestId.slot)
    (hle : sel.length ≤ limit) :
    ∃ count, count ≤ n ∧
      (count = n ∨ (sel ++ (s.readyBetween k count).map s.handle).length = limit) ∧
      (sel ++ (s.readyBetween k count).map s.handle).length ≤ limit ∧
      dispatchScan limit (s.submitted + 1) n (ringTail C s.cursor k) sel (s.flown sel) =
        (sel ++ (s.readyBetween k count).map s.handle, ringTail C s.cursor (k + count),
          s.flown (sel ++ (s.readyBetween k count).map s.handle)) := by
  induction n generalizing k sel with
  | zero =>
    refine ⟨0, le_rfl, .inl rfl, ?_, ?_⟩
    · simpa [readyBetween] using hle
    · simp [readyBetween, dispatchScan]
  | succ n ih =>
    have hnext : ringNext C (ringTail C s.cursor k) = ringTail C s.cursor (k + 1) :=
      Ring.ringNext_ringTail hc (by omega)
    have hslot := hnew k le_rfl (by omega)
    by_cases hlt : sel.length < limit
    · rw [dispatchScan, if_pos hlt, hnext, flown_of_not_mem hslot]
      by_cases hready : (s.slots (ringTail C s.cursor k)).state = .ready
      · -- the slot is taken
        have hone : (s.flown sel).dispatchOneSelected (ringTail C s.cursor k) (s.submitted + 1) =
            (s.handle (ringTail C s.cursor k),
              s.flown (sel ++ [s.handle (ringTail C s.cursor k)])) := by
          rw [dispatchOneSelected, ← setSlot_flown]
          simp only [flown_of_not_mem hslot, handle]
        obtain ⟨count, hcount, hstop, hlen, heq⟩ := ih
          (sel ++ [s.handle (ringTail C s.cursor k)]) (k := k + 1) (by omega) (by
            intro i hi hiC hmem
            rw [List.map_append, List.mem_append] at hmem
            rcases hmem with hmem | hmem
            · exact hnew i (by omega) hiC hmem
            · rw [List.map_singleton, List.mem_singleton] at hmem
              have heq : i = k := Ring.ringTail_inj hc hiC (show k < C by omega) hmem
              omega) (by rw [List.length_append, List.length_singleton]; omega)
        have hsel : sel ++ [s.handle (ringTail C s.cursor k)] ++
            (s.readyBetween (k + 1) count).map s.handle =
            sel ++ (s.readyBetween k (count + 1)).map s.handle := by
          rw [readyBetween_succ, if_pos hready, List.append_assoc, List.map_append]
          rfl
        rw [hsel] at hstop hlen heq
        refine ⟨count + 1, by omega, hstop.imp_left (by omega), hlen, ?_⟩
        rw [hready]
        simp only [hone]
        rw [heq, show k + 1 + count = k + (count + 1) by omega]
      · -- the slot is skipped
        obtain ⟨count, hcount, hstop, hlen, heq⟩ := ih sel (k := k + 1) (by omega)
          (fun i hi hiC => hnew i (by omega) hiC) hle
        have hsel : s.readyBetween (k + 1) count = s.readyBetween k (count + 1) := by
          rw [readyBetween_succ, if_neg hready, List.nil_append]
        rw [hsel] at hstop hlen heq
        refine ⟨count + 1, by omega, hstop.imp_left (by omega), hlen, ?_⟩
        rw [show k + (count + 1) = k + 1 + count by omega, ← heq]
        cases hstate : (s.slots (ringTail C s.cursor k)).state with
        | ready => exact absurd hstate hready
        | vacant | inFlight | retiring => rfl
    · refine ⟨0, Nat.zero_le _, .inr ?_, ?_, ?_⟩
      · have : sel.length = limit := by omega
        simpa [readyBetween] using this
      · simpa [readyBetween] using hle
      · rw [dispatchScan, if_neg hlt]
        simp [readyBetween]

theorem mem_readyBetween {slot : ℕ} : slot ∈ s.readyBetween k n ↔
    (s.slots slot).state = .ready ∧ ∃ i, k ≤ i ∧ i < k + n ∧ ringTail C s.cursor i = slot := by
  rw [readyBetween, List.mem_filter, decide_eq_true_iff, List.mem_map, and_comm]
  simp only [List.mem_range'_1, and_assoc]

theorem mem_readySlots (hc : s.cursor < C) {slot : ℕ} :
    slot ∈ s.readySlots ↔ slot < C ∧ (s.slots slot).state = .ready := by
  rw [readySlots, mem_readyBetween, and_comm]
  refine and_congr_left fun _ => ⟨?_, fun hslot => ?_⟩
  · rintro ⟨i, -, hi, rfl⟩
    exact Ring.ringTail_lt hc (by omega)
  · exact ⟨distance C s.cursor slot, Nat.zero_le _, by
      rw [Nat.zero_add]
      exact distance_lt hc hslot, ringTail_distance hc hslot⟩

/-- How many requests a dispatch may take. -/
def dispatchLimit (s : Scheduler C) (outputLen : ℕ) : ℕ := min outputLen (C - s.members.len)

/-- **What a dispatch returns.** It selects the
first ready slots in their cyclic order, as many as there is room for; where it selects none,
nothing has changed. Otherwise the cursor stops behind the slots that were looked at. -/
theorem dispatchReady_eq_ok (hc : s.cursor < C) {outputLen : ℕ} {r : Option DispatchBatch}
    (h : s.dispatchReady outputLen = .ok (r, s')) :
    (r = none ∧ s' = s ∧
      (s.batches.len = C ∨ s.members.len = C ∨
        (s.readySlots.take (s.dispatchLimit outputLen)) = [])) ∨
    (s.batches.len ≠ C ∧ s.members.len ≠ C ∧ ∃ count ≤ C,
      s.readyBetween 0 count = s.readySlots.take (s.dispatchLimit outputLen) ∧
      s.readyBetween 0 count ≠ [] ∧
      r = some ⟨s.submitted + 1, (s.readyBetween 0 count).map s.handle⟩ ∧
      s'.cursor = ringTail C s.cursor count) := by
  rw [dispatchReady] at h
  obtain ⟨_, -, h⟩ := bind_eq_ok.mp h
  obtain ⟨_, hepoch, h⟩ := bind_eq_ok.mp h
  obtain ⟨-, rfl⟩ := checkedAdd_eq_some.mp (orErr_eq_ok.mp hepoch)
  by_cases hfull : s.batches.len = C ∨ s.members.len = C
  · rw [if_pos hfull] at h
    cases h
    exact .inl ⟨rfl, rfl, hfull.elim .inl fun hm => .inr (.inl hm)⟩
  · rw [if_neg hfull] at h
    obtain ⟨hb, hm⟩ := not_or.mp hfull
    obtain ⟨count, hcount, hstop, hlen, hscan⟩ := dispatchScan_spec (s := s)
      (s.dispatchLimit outputLen) [] hc (Nat.zero_add C) (by simp) (Nat.zero_le _)
    rw [flown_nil, Ring.ringTail_zero hc, List.nil_append, Nat.zero_add] at hscan
    rw [List.nil_append, List.length_map] at hstop hlen
    have htake : s.readyBetween 0 count = s.readySlots.take (s.dispatchLimit outputLen) := by
      rcases hstop with rfl | hstop
      · exact (List.take_of_length_le hlen).symm
      · obtain ⟨rest, rfl⟩ := Nat.exists_eq_add_of_le hcount
        rw [readySlots, readyBetween_append, ← hstop, List.take_left]
    rw [dispatchLimit] at hscan
    simp only [hscan] at h
    by_cases hnone : ((s.readyBetween 0 count).map s.handle).length = 0
    · rw [if_pos hnone] at h
      cases h
      rw [List.length_map, List.length_eq_zero_iff] at hnone
      refine .inl ⟨rfl, ?_, .inr (.inr (htake ▸ hnone))⟩
      rw [hnone, List.map_nil, flown_nil]
    · rw [if_neg hnone] at h
      cases h
      refine .inr ⟨hb, hm, count, hcount, htake, fun hnil => hnone ?_, rfl, rfl⟩
      rw [hnil]
      rfl

/-- A dispatch returns when there is storage and a next epoch. -/
theorem dispatchReady_isOk {outputLen : ℕ} :
    (∃ r s', s.dispatchReady outputLen = .ok (r, s')) ↔
      outputLen ≠ 0 ∧ s.submitted + 1 < 2 ^ 64 := by
  constructor
  · rintro ⟨r, s', h⟩
    rw [dispatchReady] at h
    obtain ⟨_, hlen, h⟩ := bind_eq_ok.mp h
    obtain ⟨_, hepoch, -⟩ := bind_eq_ok.mp h
    exact ⟨failIf_eq_ok.mp hlen, (checkedAdd_eq_some.mp (orErr_eq_ok.mp hepoch)).1⟩
  · rintro ⟨hlen, hepoch⟩
    rw [dispatchReady, failIf_of_not hlen, ok_bind, checkedAdd, if_pos hepoch]
    by_cases hfull : s.batches.len = C ∨ s.members.len = C
    · exact ⟨none, s, if_pos hfull⟩
    · simp only [orErr, ok_bind, if_neg hfull]
      split <;> exact ⟨_, _, rfl⟩

/-- **A ready slot that is passed over comes nearer.** -/
theorem distance_lt_of_dispatch (hc : s.cursor < C) {outputLen slot : ℕ} {batch : DispatchBatch}
    (h : s.dispatchReady outputLen = .ok (some batch, s')) (hslot : slot < C)
    (hready : (s.slots slot).state = .ready)
    (hskipped : slot ∉ batch.members.map RequestId.slot) :
    distance C s'.cursor slot < distance C s.cursor slot := by
  rcases dispatchReady_eq_ok hc h with ⟨hnone, -⟩ | ⟨-, -, count, hcount, -, hne, hbatch, hcursor⟩
  · cases hnone
  · have hpos : 0 < count := by
      refine Nat.pos_of_ne_zero fun hzero => hne ?_
      rw [hzero]
      rfl
    have hle : count ≤ distance C s.cursor slot := by
      by_contra hlt
      refine hskipped ?_
      rw [Option.some.inj hbatch, List.map_map]
      refine List.mem_map.mpr ⟨slot, mem_readyBetween.mpr ⟨hready, _, Nat.zero_le _, ?_,
        ringTail_distance hc hslot⟩, rfl⟩
      omega
    rw [hcursor, distance_ringTail hc hslot hle]
    omega

/-- A dispatch that returns leaves the cursor in the array. -/
theorem cursor_lt_of_dispatch (hc : s.cursor < C) {outputLen : ℕ} {r : Option DispatchBatch}
    (h : s.dispatchReady outputLen = .ok (r, s')) : s'.cursor < C := by
  rcases dispatchReady_eq_ok hc h with ⟨-, rfl, -⟩ | ⟨-, -, count, hcount, -, -, -, hcursor⟩
  · exact hc
  · rw [hcursor]
    rcases Nat.lt_or_eq_of_le hcount with hlt | rfl
    · exact Ring.ringTail_lt hc hlt
    · rwa [Ring.ringTail_self hc]

end Scheduler

end EngineCore

end Ferric
