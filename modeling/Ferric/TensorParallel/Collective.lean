import Ferric.Lib.Rounds
import Ferric.Lib.System
import Ferric.TensorParallel.Model

/-!
# The ranks pass the collective barrier in lock-step

The barrier of a group, under any calls in any order: the ranks arrive with any keys, and `advance`
may be called at any time. The log of the calls that succeeded is a transcript of rounds over the
keys `keyAt`, so every rank has the same sequence of arrivals up to one round.

## Main results

* `Stands` — a barrier that has completed a number of rounds, in terms of its open round
* `Stands.arrive`, `Stands.advance` — what the two calls do to it
* `stands_of_reachable` — the invariant of all runs
* `ranks_in_step` — rounds, released keys and the arrivals of each rank
-/

namespace Ferric

namespace TensorParallel

open Spec Event

namespace CollectiveState

/-! ### The mask of the arrived ranks -/

theorem getLsbD_bit {rank i : ℕ} (hrank : rank < 8) :
    (1#8 <<< rank).getLsbD i = decide (i = rank) := by
  rw [BitVec.getLsbD_shiftLeft, BitVec.getLsbD_one]
  by_cases h : i = rank
  · subst h
    simp [hrank]
  · have hpos : i < rank ∨ i - rank ≠ 0 := by omega
    rcases hpos with hlt | hpos
    · simp [h, hlt]
    · simp [h, hpos]

theorem and_bit_ne_zero {mask : BitVec 8} {rank : ℕ} (hrank : rank < 8) :
    mask &&& 1#8 <<< rank ≠ 0 ↔ mask.getLsbD rank = true := by
  constructor
  · intro h
    by_contra hclear
    refine h (BitVec.eq_of_getLsbD_eq fun i _ => ?_)
    rw [BitVec.getLsbD_and, getLsbD_bit hrank]
    by_cases heq : i = rank
    · subst heq
      simpa using hclear
    · simp [heq]
  · intro h hzero
    have hbit : (mask &&& 1#8 <<< rank).getLsbD rank = true := by
      rw [BitVec.getLsbD_and, h, getLsbD_bit hrank]
      simp
    rw [hzero] at hbit
    simp at hbit

/-- The admitted sizes of a group. -/
def WorldSize (n : ℕ) : Prop := n = 1 ∨ n = 2 ∨ n = 8

theorem WorldSize.le {n : ℕ} (h : WorldSize n) : n ≤ 8 := by
  rcases h with rfl | rfl | rfl <;> decide

theorem getLsbD_allRanks {s : CollectiveState} (h : WorldSize s.worldSize) {i : ℕ} (hi : i < 8) :
    s.allRanks.getLsbD i = decide (i < s.worldSize) := by
  have key : ∀ i : Fin 8, (1#8).getLsbD i = decide (i.val < 1) ∧
      (3#8).getLsbD i = decide (i.val < 2) ∧ (255#8).getLsbD i = decide (i.val < 8) := by decide
  obtain ⟨hone, htwo, height⟩ := key ⟨i, hi⟩
  rw [allRanks]
  rcases h with h | h | h <;> rw [h]
  · exact hone
  · exact htwo
  · exact height

end CollectiveState

/-! ### The order of the keys -/

/-- The key of the `n`-th round after the start of an epoch: the attention sum and the feed-forward
sum of each layer, the layers in order, then the next epoch. -/
def keyAt (plan : Plan) (groupId epoch : ℕ) (n : ℕ) : CollectiveKey where
  groupId := groupId
  modelRole := plan.model.role
  epoch := epoch + n / (plan.model.layers * 2)
  layer := n % (plan.model.layers * 2) / 2
  operation := if n % (plan.model.layers * 2) % 2 = 0 then .attentionOutputSum
    else .feedForwardDownSum

theorem keyAt_injective {plan : Plan} {groupId epoch : ℕ} :
    Function.Injective (keyAt plan groupId epoch) := by
  intro n m h
  have hepoch : n / (plan.model.layers * 2) = m / (plan.model.layers * 2) := by
    have := congrArg CollectiveKey.epoch h
    simpa only [keyAt, Nat.add_left_cancel_iff] using this
  have hlayer : n % (plan.model.layers * 2) / 2 = m % (plan.model.layers * 2) / 2 :=
    congrArg CollectiveKey.layer h
  have hparity : n % (plan.model.layers * 2) % 2 = m % (plan.model.layers * 2) % 2 := by
    have hop : (if n % (plan.model.layers * 2) % 2 = 0 then Collective.attentionOutputSum
        else .feedForwardDownSum) =
        if m % (plan.model.layers * 2) % 2 = 0 then .attentionOutputSum else .feedForwardDownSum :=
      congrArg CollectiveKey.operation h
    rcases Nat.mod_two_eq_zero_or_one (n % (plan.model.layers * 2)) with hn | hn <;>
      rcases Nat.mod_two_eq_zero_or_one (m % (plan.model.layers * 2)) with hm | hm <;>
      simp [hn, hm] at hop ⊢
  have hmod : n % (plan.model.layers * 2) = m % (plan.model.layers * 2) := by
    rw [← Nat.div_add_mod (n % _) 2, hlayer, hparity, Nat.div_add_mod]
  rw [← Nat.div_add_mod n (plan.model.layers * 2), hepoch, hmod, Nat.div_add_mod]

/-! ### One call -/

/-- The barrier has completed `rounds` rounds and the ranks in `present` arrived since. -/
structure Stands (plan : Plan) (groupId epoch rounds : ℕ) (present : List ℕ)
    (s : CollectiveState) : Prop where
  groupId : s.groupId = groupId
  modelRole : s.modelRole = plan.model.role
  worldSize : s.worldSize = plan.worldSize
  layers : s.layers = plan.model.layers
  epoch : s.epoch = epoch + rounds / (plan.model.layers * 2)
  epoch_lt : s.epoch < 2 ^ 64
  ordinal : s.ordinal = rounds % (plan.model.layers * 2)
  arrived : ∀ rank < 8, s.arrived.getLsbD rank = decide (rank ∈ present)

variable {plan : Plan} {groupId epoch rounds : ℕ} {present : List ℕ} {s s' : CollectiveState}

theorem Stands.new (hepoch : epoch < 2 ^ 64) :
    Stands plan groupId epoch 0 [] (CollectiveState.new plan groupId epoch) where
  groupId := rfl
  modelRole := rfl
  worldSize := rfl
  layers := rfl
  epoch := by rw [Nat.zero_div]; rfl
  epoch_lt := hepoch
  ordinal := by rw [Nat.zero_mod]; rfl
  arrived rank _ := by simp [CollectiveState.new]

/-- The barrier expects the key of its open round. -/
theorem Stands.expected_eq (h : Stands plan groupId epoch rounds present s) :
    s.expected = keyAt plan groupId epoch rounds := by
  rw [CollectiveState.expected, keyAt, h.groupId, h.modelRole, h.epoch, h.ordinal]

/-- An arrival that succeeds is that of a new rank, with the key of the open round. -/
theorem Stands.arrive (h : Stands plan groupId epoch rounds present s)
    (hworld : CollectiveState.WorldSize plan.worldSize) {rank : ℕ} {key : CollectiveKey}
    (harrive : s.arrive rank key = .ok s') :
    rank < plan.worldSize ∧ rank ∉ present ∧ key = keyAt plan groupId epoch rounds ∧
      Stands plan groupId epoch rounds (present ++ [rank]) s' := by
  simp only [CollectiveState.arrive, bind_eq_ok, failIf_eq_ok] at harrive
  obtain ⟨-, hrank, -, hgroup, -, hepoch, -, -, -, horder, -, hbit, hs'⟩ := harrive
  obtain rfl := Except.ok.inj hs'
  obtain ⟨hgroupId, hrole⟩ := not_or.mp hgroup
  obtain ⟨hlayer, hoperation⟩ := not_or.mp horder
  have hlt : rank < plan.worldSize := by
    rw [← h.worldSize]
    exact Nat.lt_of_not_ge hrank
  have hrank8 : rank < 8 := Nat.lt_of_lt_of_le hlt hworld.le
  have hnew : rank ∉ present := by
    intro hmem
    refine hbit ((CollectiveState.and_bit_ne_zero hrank8).mpr ?_)
    rw [h.arrived rank hrank8]
    exact decide_eq_true hmem
  have hkey : key = s.expected := by
    have hparts : key.groupId = s.groupId ∧ key.modelRole = s.modelRole ∧ key.epoch = s.epoch ∧
        key.layer = s.expected.layer ∧ key.operation = s.expected.operation :=
      ⟨not_not.mp hgroupId, not_not.mp hrole, not_not.mp hepoch, not_not.mp hlayer,
        not_not.mp hoperation⟩
    cases key
    obtain ⟨rfl, rfl, rfl, rfl, rfl⟩ := hparts
    rfl
  refine ⟨hlt, hnew, hkey.trans h.expected_eq, { h with arrived := fun i hi => ?_ }⟩
  rw [BitVec.getLsbD_or, h.arrived i hi, CollectiveState.getLsbD_bit hrank8]
  simp

/-- The barrier advances when every rank is present, to the next round. -/
theorem Stands.advance (h : Stands plan groupId epoch rounds present s)
    (hworld : CollectiveState.WorldSize plan.worldSize) (hlayers : 0 < plan.model.layers)
    (hadvance : s.advance = .ok s') :
    (∀ rank < plan.worldSize, rank ∈ present) ∧ Stands plan groupId epoch (rounds + 1) [] s' := by
  simp only [CollectiveState.advance, bind_eq_ok, failIf_eq_ok] at hadvance
  obtain ⟨-, hall, hnext⟩ := hadvance
  have hmask : s.arrived = s.allRanks := not_not.mp hall
  have hpresent : ∀ rank < plan.worldSize, rank ∈ present := by
    intro rank hrank
    have hrank8 : rank < 8 := Nat.lt_of_lt_of_le hrank hworld.le
    have hmem : decide (rank ∈ present) = decide (rank < s.worldSize) := by
      rw [← h.arrived rank hrank8, hmask,
        CollectiveState.getLsbD_allRanks (h.worldSize ▸ hworld) hrank8]
    rw [h.worldSize] at hmem
    exact of_decide_eq_true (hmem.trans (decide_eq_true hrank))
  refine ⟨hpresent, ?_⟩
  have hempty : ∀ rank < 8, (0#8).getLsbD rank = decide (rank ∈ ([] : List ℕ)) := by simp
  have hpos : 0 < plan.model.layers * 2 := by omega
  have hlt : rounds % (plan.model.layers * 2) < plan.model.layers * 2 := Nat.mod_lt _ hpos
  split at hnext
  -- The last sum of an epoch.
  next hlast =>
    simp only [bind_eq_ok, orErr_eq_ok, checkedAdd_eq_some] at hnext
    obtain ⟨_, ⟨hbound, rfl⟩, hs'⟩ := hnext
    obtain rfl := Except.ok.inj hs'
    rw [h.ordinal, h.layers] at hlast
    have hdvd : plan.model.layers * 2 ∣ rounds + 1 := by
      rw [← Nat.div_add_mod rounds (plan.model.layers * 2), Nat.add_assoc, hlast]
      exact Nat.dvd_add (Nat.dvd_mul_right _ _) (Nat.dvd_refl _)
    refine { h with
      epoch := ?_, epoch_lt := hbound, ordinal := (Nat.mod_eq_zero_of_dvd hdvd).symm,
      arrived := hempty }
    show s.epoch + 1 = epoch + (rounds + 1) / (plan.model.layers * 2)
    rw [h.epoch, Nat.succ_div_of_dvd hdvd]
    omega
  next hlast =>
    obtain rfl := Except.ok.inj hnext
    rw [h.ordinal, h.layers] at hlast
    have hmod : (rounds + 1) % (plan.model.layers * 2) = rounds % (plan.model.layers * 2) + 1 := by
      rw [Nat.add_mod, Nat.mod_eq_of_lt (show 1 < plan.model.layers * 2 by omega)]
      exact Nat.mod_eq_of_lt (by omega)
    have hndvd : ¬ plan.model.layers * 2 ∣ rounds + 1 := by
      intro hdvd
      rw [Nat.mod_eq_zero_of_dvd hdvd] at hmod
      omega
    refine { h with epoch := ?_, ordinal := ?_, arrived := hempty }
    · show s.epoch = epoch + (rounds + 1) / (plan.model.layers * 2)
      rw [h.epoch, Nat.succ_div_of_not_dvd hndvd]
    · show s.ordinal + 1 = (rounds + 1) % (plan.model.layers * 2)
      rw [h.ordinal, hmod]

/-! ### Runs -/

/-- A call with its arguments. -/
inductive BarrierOp where
  | arrive (rank : ℕ) (key : CollectiveKey)
  | advance

/-- The state after a call, and the log with the call if it succeeded. -/
def BarrierOp.exec (s : CollectiveState) (log : List (Event ℕ CollectiveKey)) :
    BarrierOp → CollectiveState × List (Event ℕ CollectiveKey)
  | .arrive rank key =>
    match s.arrive rank key with
    | .ok s' => (s', log ++ [.arrived rank key])
    | .error _ => (s, log)
  | .advance =>
    match s.advance with
    | .ok s' => (s', log ++ [.released s.expected])
    | .error _ => (s, log)

/-- The barrier of a group, started at an epoch, under any calls. -/
def barrier (plan : Plan) (groupId epoch : ℕ) :
    System (CollectiveState × List (Event ℕ CollectiveKey)) BarrierOp where
  init state := state = (CollectiveState.new plan groupId epoch, [])
  step state op state' := state' = op.exec state.1 state.2

/-- What an accepted plan guarantees for its barrier. -/
theorem Plan.worldSize_of_new {model : ModelConfig} {worldSize : ℕ}
    (h : Plan.new model worldSize = .ok plan) :
    plan = ⟨model, worldSize⟩ ∧ CollectiveState.WorldSize worldSize ∧ 0 < model.layers := by
  simp only [Plan.new, bind_eq_ok, failIf_eq_ok] at h
  obtain ⟨-, -, -, hworld, -, hgeometry, hplan⟩ := h
  refine ⟨(Except.ok.inj hplan).symm, ?_, ?_⟩
  · rw [CollectiveState.WorldSize]
    omega
  · omega

/-- Reachable barriers stand at a round of the transcript of their log. -/
theorem stands_of_reachable {log : List (Event ℕ CollectiveKey)}
    (hworld : CollectiveState.WorldSize plan.worldSize) (hlayers : 0 < plan.model.layers)
    (hepoch : epoch < 2 ^ 64) (h : (barrier plan groupId epoch).Reachable (s, log)) :
    ∃ (rounds : List (List ℕ)) (present : List ℕ),
      log = transcript (keyAt plan groupId epoch) rounds present ∧
      InStep (List.range plan.worldSize) rounds present ∧
      Stands plan groupId epoch rounds.length present s := by
  let I (state : CollectiveState × List (Event ℕ CollectiveKey)) : Prop :=
    ∃ (rounds : List (List ℕ)) (present : List ℕ),
      state.2 = transcript (keyAt plan groupId epoch) rounds present ∧
      InStep (List.range plan.worldSize) rounds present ∧
      Stands plan groupId epoch rounds.length present state.1
  suffices hI : I (s, log) from hI
  refine h.induction (I := I) ?_ ?_
  · rintro _ rfl
    exact ⟨[], [], rfl, .nil _, .new hepoch⟩
  · rintro ⟨t, log⟩ op _ - ⟨rounds, present, hlog, hstep, hstands⟩ rfl
    have hlog : log = transcript (keyAt plan groupId epoch) rounds present := hlog
    have hstands : Stands plan groupId epoch rounds.length present t := hstands
    cases op with
    | arrive rank key =>
      cases hcall : t.arrive rank key with
      | error _ =>
        refine ⟨rounds, present, ?_, hstep, ?_⟩ <;> simpa only [BarrierOp.exec, hcall]
      | ok t' =>
        obtain ⟨hlt, hnew, hkey, hstands'⟩ := hstands.arrive hworld hcall
        refine ⟨rounds, present ++ [rank], ?_, hstep.arrive (List.mem_range.mpr hlt) hnew, ?_⟩
        · rw [transcript_arrive, ← hlog, ← hkey]
          simp only [BarrierOp.exec, hcall]
        · simpa only [BarrierOp.exec, hcall]
    | advance =>
      cases hcall : t.advance with
      | error _ =>
        refine ⟨rounds, present, ?_, hstep, ?_⟩ <;> simpa only [BarrierOp.exec, hcall]
      | ok t' =>
        obtain ⟨hpresent, hstands'⟩ := hstands.advance hworld hlayers hcall
        refine ⟨rounds ++ [present], [], ?_, ?_, ?_⟩
        · rw [transcript_release, ← hlog, ← hstands.expected_eq]
          simp only [BarrierOp.exec, hcall]
        · exact hstep.release List.nodup_range fun rank hrank =>
            hpresent rank (List.mem_range.mp hrank)
        · simpa only [BarrierOp.exec, hcall, List.length_append, List.length_singleton]

/-- **The ranks of a group are in lock-step.** In every run of the barrier of an accepted plan, the
log is made of rounds. Each rank arrives once in a complete round, all with the key that the round
releases; the keys are released in their order; and the arrivals of each rank are the keys in that
order, up to the same round or to the one before it. -/
theorem ranks_in_step {model : ModelConfig} {worldSize : ℕ} {log : List (Event ℕ CollectiveKey)}
    (hplan : Plan.new model worldSize = .ok plan) (hepoch : epoch < 2 ^ 64)
    (h : (barrier plan groupId epoch).Reachable (s, log)) :
    Function.Injective (keyAt plan groupId epoch) ∧
    ∃ (rounds : List (List ℕ)) (present : List ℕ),
      log = transcript (keyAt plan groupId epoch) rounds present ∧
      (∀ round ∈ rounds, round.Perm (List.range worldSize)) ∧
      present.Nodup ∧ (∀ rank ∈ present, rank < worldSize) ∧
      (∀ rank < 8, s.arrived.getLsbD rank = decide (rank ∈ present)) ∧
      s.expected = keyAt plan groupId epoch rounds.length ∧
      releases log = (List.range rounds.length).map (keyAt plan groupId epoch) ∧
      (∀ rank < worldSize, arrivals rank log =
        (List.range (rounds.length + if rank ∈ present then 1 else 0)).map
          (keyAt plan groupId epoch)) ∧
      ∀ rank < worldSize, ∀ other < worldSize,
        (arrivals rank log).length ≤ (arrivals other log).length + 1 := by
  obtain ⟨rfl, hworld, hlayers⟩ := Plan.worldSize_of_new hplan
  obtain ⟨rounds, present, rfl, hstep, hstands⟩ := stands_of_reachable hworld hlayers hepoch h
  refine ⟨keyAt_injective, rounds, present, rfl, hstep.complete, hstep.nodup, ?_, hstands.arrived,
    hstands.expected_eq, releases_transcript, ?_, ?_⟩
  · intro rank hrank
    exact List.mem_range.mp (hstep.subset rank hrank)
  · intro rank hrank
    exact hstep.arrivals_eq List.nodup_range (List.mem_range.mpr hrank)
  · intro rank hrank other hother
    exact hstep.length_arrivals_le List.nodup_range (List.mem_range.mpr hrank)
      (List.mem_range.mpr hother)

/-- The state and the log after some calls. -/
def BarrierOp.run (state : CollectiveState × List (Event ℕ CollectiveKey)) (ops : List BarrierOp) :
    CollectiveState × List (Event ℕ CollectiveKey) :=
  ops.foldl (fun state op => op.exec state.1 state.2) state

theorem reachable_run {state : CollectiveState × List (Event ℕ CollectiveKey)}
    (h : (barrier plan groupId epoch).Reachable state) (ops : List BarrierOp) :
    (barrier plan groupId epoch).Reachable (BarrierOp.run state ops) := by
  induction ops generalizing state with
  | nil => exact h
  | cons op ops ih => exact ih (.step (a := op) h rfl)

/-- Two ranks complete a round, and a stale arrival in the next one is rejected. -/
def twoRanks : CollectiveState × List (Event ℕ CollectiveKey) :=
  let key := keyAt ⟨draftModel, 2⟩ 7 3
  BarrierOp.run (CollectiveState.new ⟨draftModel, 2⟩ 7 3, [])
    [.arrive 1 (key 0), .arrive 0 (key 0), .advance, .arrive 0 (key 0), .arrive 1 (key 1)]

theorem ranks_in_step_twoRanks :
    releases twoRanks.2 = [keyAt ⟨draftModel, 2⟩ 7 3 0] ∧
      (arrivals 1 twoRanks.2).length = 2 ∧
      (arrivals 0 twoRanks.2).length ≤ (arrivals 1 twoRanks.2).length + 1 := by
  have hr : (barrier ⟨draftModel, 2⟩ 7 3).Reachable twoRanks := reachable_run (.init rfl) _
  have hreleases : releases twoRanks.2 = [keyAt ⟨draftModel, 2⟩ 7 3 0] := by rfl
  have hlength : (arrivals 1 twoRanks.2).length = 2 := by rfl
  obtain ⟨-, rounds, present, -, -, -, -, -, -, -, -, hle⟩ :=
    ranks_in_step Plan.new_draftModel (by decide) hr
  exact ⟨hreleases, hlength, hle 0 (by decide) 1 (by decide)⟩

end TensorParallel

end Ferric
