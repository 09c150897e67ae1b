import Ferric.EngineCore.Scheduler
import Ferric.Lib.Lists

/-!
# The invariant of the scheduler

A scheduler stands for four lists: the free slots, the slots waiting to be reclaimed, the pending
batches in the order of their epochs, and the members of a completed batch that are not settled yet.
`SlotOk` says how the fields of one slot depend on which of these lists it is in; the state of a
slot decides its place and the other way around.

## Main results

* `Scheduler.Ok.setOne` — a change of one slot
* `Scheduler.Ok.launch`, `Scheduler.Ok.finish` — a batch enters, the oldest batch leaves
-/

namespace Ferric

namespace EngineCore

open Spec Cache

variable {C : ℕ}

/-- The fields of a slot that is or is not free, parked for reclaim, in a batch. -/
def SlotOk (slot : Slot) (free parked flying : Prop) : Prop :=
  match slot.state with
  | .vacant =>
    free ∧ ¬ parked ∧ ¬ flying ∧ slot.activeEpoch = noEpoch ∧ slot.inReclaimRing = false
  | .ready =>
    ¬ free ∧ ¬ parked ∧ ¬ flying ∧ slot.activeEpoch = noEpoch ∧ slot.inReclaimRing = false
  | .inFlight =>
    ¬ free ∧ ¬ parked ∧ flying ∧ slot.activeEpoch ≠ noEpoch ∧ slot.inReclaimRing = false
  | .retiring =>
    ¬ free ∧ ((parked ∧ ¬ flying ∧ slot.activeEpoch = noEpoch ∧ slot.inReclaimRing = true) ∨
      (¬ parked ∧ flying ∧ slot.activeEpoch ≠ noEpoch ∧ slot.inReclaimRing = false))

/-- The batch records of the pending batches after epoch `completed`. -/
def records (completed : ℕ) : List (List RequestId) → List BatchRecord
  | [] => []
  | batch :: rest => ⟨completed + 1, batch.length⟩ :: records (completed + 1) rest

@[simp] theorem length_records {completed : ℕ} {batches : List (List RequestId)} :
    (records completed batches).length = batches.length := by
  induction batches generalizing completed with
  | nil => rfl
  | cons batch rest ih => simp [records, ih]

theorem records_concat {completed : ℕ} {batches : List (List RequestId)} {batch : List RequestId} :
    records completed (batches ++ [batch]) =
      records completed batches ++ [⟨completed + batches.length + 1, batch.length⟩] := by
  induction batches generalizing completed with
  | nil => rfl
  | cons first rest ih =>
    rw [List.cons_append, records, records, ih, List.length_cons, List.cons_append]
    congr 4
    omega

namespace Scheduler

/-- The scheduler stands for free slots `F`, parked slots `R`, pending batches `G`, and members `P`
of a completed batch that wait for their settlement. -/
structure Ok (s : Scheduler C) (F R : List ℕ) (G : List (List RequestId)) (P : List RequestId) :
    Prop where
  capacity_pos : 0 < C
  capacity_le : C ≤ maxRequestSlots
  free_ring : s.free.Spells C F
  reclaim_ring : s.reclaim.Spells C R
  member_ring : s.members.Spells C G.flatten
  batch_ring : s.batches.Spells C (records s.completed G)
  cursor_lt : s.cursor < C
  submitted_eq : s.submitted = s.completed + G.length
  submitted_lt : s.submitted < 2 ^ 64
  live : s.liveCount + F.length = C
  free_nodup : F.Nodup
  reclaim_nodup : R.Nodup
  free_lt : ∀ i ∈ F, i < C
  reclaim_lt : ∀ i ∈ R, i < C
  flying_nodup : ((P ++ G.flatten).map RequestId.slot).Nodup
  flying : ∀ h ∈ P ++ G.flatten, h.slot < C ∧ (s.slots h.slot).generation = h.generation
  slot : ∀ i < C, SlotOk (s.slots i) (i ∈ F) (i ∈ R) (i ∈ (P ++ G.flatten).map RequestId.slot)
  generation : ∀ i < C, 0 < (s.slots i).generation ∧ (s.slots i).generation < 2 ^ 32
  nonempty : ∀ g ∈ G, g ≠ []
  epoch : ∀ k g, G[k]? = some g → ∀ h ∈ g, (s.slots h.slot).activeEpoch = s.completed + 1 + k
  settled : ∀ h ∈ P, (s.slots h.slot).activeEpoch = s.completed

variable {s s' : Scheduler C} {F F' R R' : List ℕ} {G : List (List RequestId)}
  {P P' : List RequestId}

theorem new_ensures (C : ℕ) :
    Ensures (new C) (fun _ => C = 0 ∨ maxRequestSlots < C) fun s =>
      s.Ok (List.range C) [] [] [] ∧ s.slots = fun _ => .initial := by
  rw [new]
  refine (ensures_failIf (Q := fun _ => 0 < C) (fun h => .inl h) Nat.pos_of_ne_zero).bind
    fun _ _ hpos => ?_
  refine (ensures_failIf (Q := fun _ => C ≤ maxRequestSlots) (fun h => .inr h)
    fun h => not_lt.mp h).bind fun _ _ hle => ?_
  refine ensures_pure.mpr ⟨⟨hpos, hle, ⟨hpos, by simp, by simp, fun i a hi => ?_⟩,
    Ring.spells_nil hpos, Ring.spells_nil hpos, Ring.spells_nil hpos, hpos, rfl,
    by show 0 < 2 ^ 64; decide, by simp,
    List.nodup_range, List.nodup_nil, fun i hi => List.mem_range.mp hi, by simp, by simp, by simp,
    fun i hi => ?_, fun i _ => ⟨Nat.one_pos, by show 1 < 2 ^ 32; decide⟩,
    by simp, by simp, by simp⟩,
    rfl⟩
  · have hlt : i < C := by simpa using (List.getElem?_eq_some_iff.mp hi).1
    rw [List.getElem?_range hlt] at hi
    simp only [ringTail, Nat.sub_zero, if_pos hlt, Nat.zero_add, id_eq]
    exact Option.some.inj hi
  · exact ⟨List.mem_range.mpr hi, by simp, by simp, rfl, rfl⟩

/-- What a call on slot `i` leaves alone. -/
structure Touches (i : ℕ) (s s' : Scheduler C) : Prop where
  others : ∀ j, j ≠ i → s'.slots j = s.slots j
  members : s'.members = s.members
  batches : s'.batches = s.batches
  cursor : s'.cursor = s.cursor
  submitted : s'.submitted = s.submitted
  completed : s'.completed = s.completed

theorem Touches.refl (i : ℕ) (s : Scheduler C) : Touches i s s :=
  ⟨fun _ _ => rfl, rfl, rfl, rfl, rfl, rfl⟩

theorem Touches.trans {s'' : Scheduler C} {i : ℕ} (h : Touches i s s') (h' : Touches i s' s'') :
    Touches i s s'' where
  others := fun j hj => (h'.others j hj).trans (h.others j hj)
  members := h'.members.trans h.members
  batches := h'.batches.trans h.batches
  cursor := h'.cursor.trans h.cursor
  submitted := h'.submitted.trans h.submitted
  completed := h'.completed.trans h.completed

/-- A change of one slot, which may also enter or leave the free and the reclaim ring and may be
settled. -/
theorem Ok.setOne (h : s.Ok F R G P) {i : ℕ} (hi : i < C) (ht : Touches i s s')
    (hfree : s'.free.Spells C F') (hreclaim : s'.reclaim.Spells C R')
    (hlive : s'.liveCount + F'.length = C) (hfn : F'.Nodup) (hrn : R'.Nodup)
    (hF : ∀ j, j ≠ i → (j ∈ F' ↔ j ∈ F)) (hR : ∀ j, j ≠ i → (j ∈ R' ↔ j ∈ R))
    (hP : P'.Sublist P)
    (hkept : ∀ j, j ≠ i → (j ∈ P'.map RequestId.slot ↔ j ∈ P.map RequestId.slot))
    (hself : SlotOk (s'.slots i) (i ∈ F') (i ∈ R')
      (i ∈ (P' ++ G.flatten).map RequestId.slot))
    (hgen : 0 < (s'.slots i).generation ∧ (s'.slots i).generation < 2 ^ 32)
    (hfly : i ∈ (P' ++ G.flatten).map RequestId.slot →
      (s'.slots i).generation = (s.slots i).generation ∧
        (s'.slots i).activeEpoch = (s.slots i).activeEpoch) : s'.Ok F' R' G P' := by
  have hsub : (P' ++ G.flatten).Sublist (P ++ G.flatten) := hP.append (List.Sublist.refl _)
  -- the handles that fly on agree with their slots as before
  have hsame : ∀ x ∈ P' ++ G.flatten, (s'.slots x.slot).generation = (s.slots x.slot).generation ∧
      (s'.slots x.slot).activeEpoch = (s.slots x.slot).activeEpoch := by
    intro x hx
    by_cases hxi : x.slot = i
    · rw [hxi]
      exact hfly (List.mem_map.mpr ⟨x, hx, hxi⟩)
    · rw [ht.others _ hxi]
      exact ⟨rfl, rfl⟩
  refine ⟨h.capacity_pos, h.capacity_le, hfree, hreclaim, ht.members ▸ h.member_ring, ?_,
    ht.cursor ▸ h.cursor_lt, by rw [ht.submitted, ht.completed, h.submitted_eq],
    ht.submitted ▸ h.submitted_lt, hlive, hfn, hrn, fun j hj => ?_, fun j hj => ?_,
    (hsub.map _).nodup h.flying_nodup, fun x hx => ?_, fun j hj => ?_, fun j hj => ?_, h.nonempty,
    fun k g hg x hx => ?_, fun x hx => ?_⟩
  · rw [ht.batches, ht.completed]
    exact h.batch_ring
  · by_cases hji : j = i
    · exact hji ▸ hi
    · exact h.free_lt j ((hF j hji).mp hj)
  · by_cases hji : j = i
    · exact hji ▸ hi
    · exact h.reclaim_lt j ((hR j hji).mp hj)
  · obtain ⟨hlt, heq⟩ := h.flying x (hsub.subset hx)
    exact ⟨hlt, (hsame x hx).1.trans heq⟩
  · by_cases hji : j = i
    · exact hji ▸ hself
    · have hfl : (j ∈ (P' ++ G.flatten).map RequestId.slot) =
          (j ∈ (P ++ G.flatten).map RequestId.slot) := by
        simp only [List.map_append, List.mem_append, hkept j hji]
      rw [ht.others j hji, propext (hF j hji), propext (hR j hji), hfl]
      exact h.slot j hj
  · by_cases hji : j = i
    · exact hji ▸ hgen
    · rw [ht.others j hji]
      exact h.generation j hj
  · rw [ht.completed, ← h.epoch k g hg x hx]
    have hmem : x ∈ P' ++ G.flatten := List.mem_append_right _
      (List.mem_flatten.mpr ⟨g, List.mem_of_getElem? hg, hx⟩)
    exact (hsame x hmem).2
  · rw [ht.completed, ← h.settled x (hP.subset hx)]
    exact (hsame x (List.mem_append_left _ hx)).2

/-! ### Reading the place of a slot off its state -/

theorem Ok.ready (h : s.Ok F R G P) {i : ℕ} (hi : i < C) (hstate : (s.slots i).state = .ready) :
    i ∉ F ∧ i ∉ R ∧ i ∉ (P ++ G.flatten).map RequestId.slot ∧
      (s.slots i).activeEpoch = noEpoch ∧ (s.slots i).inReclaimRing = false := by
  have := h.slot i hi
  rwa [SlotOk, hstate] at this

theorem Ok.vacant (h : s.Ok F R G P) {i : ℕ} (hi : i ∈ F) :
    (s.slots i).state = .vacant ∧ i ∉ R ∧ i ∉ (P ++ G.flatten).map RequestId.slot ∧
      (s.slots i).activeEpoch = noEpoch ∧ (s.slots i).inReclaimRing = false := by
  have := h.slot i (h.free_lt i hi)
  rw [SlotOk] at this
  cases hstate : (s.slots i).state <;> rw [hstate] at this
  · exact ⟨rfl, this.2⟩
  all_goals exact absurd hi this.1

theorem Ok.parked (h : s.Ok F R G P) {i : ℕ} (hi : i ∈ R) :
    (s.slots i).state = .retiring ∧ i ∉ F ∧ i ∉ (P ++ G.flatten).map RequestId.slot ∧
      (s.slots i).activeEpoch = noEpoch ∧ (s.slots i).inReclaimRing = true := by
  have := h.slot i (h.reclaim_lt i hi)
  rw [SlotOk] at this
  cases hstate : (s.slots i).state <;> rw [hstate] at this
  · exact absurd hi this.2.1
  · exact absurd hi this.2.1
  · exact absurd hi this.2.1
  · obtain ⟨hf, ⟨-, hrest⟩ | ⟨hnot, -⟩⟩ := this
    · exact ⟨rfl, hf, hrest⟩
    · exact absurd hi hnot

theorem Ok.flies (h : s.Ok F R G P) {i : ℕ} (hi : i < C)
    (hfly : i ∈ (P ++ G.flatten).map RequestId.slot) :
    i ∉ F ∧ i ∉ R ∧ (s.slots i).activeEpoch ≠ noEpoch ∧ (s.slots i).inReclaimRing = false ∧
      ((s.slots i).state = .inFlight ∨ (s.slots i).state = .retiring) := by
  have := h.slot i hi
  rw [SlotOk] at this
  cases hstate : (s.slots i).state <;> rw [hstate] at this
  · exact absurd hfly this.2.2.1
  · exact absurd hfly this.2.2.1
  · obtain ⟨h1, h2, -, h4, h5⟩ := this
    exact ⟨h1, h2, h4, h5, .inl rfl⟩
  · obtain ⟨h1, ⟨-, hnot, -⟩ | ⟨h2, -, h4, h5⟩⟩ := this
    · exact absurd hfly hnot
    · exact ⟨h1, h2, h4, h5, .inr rfl⟩

theorem Ok.inFlight (h : s.Ok F R G P) {i : ℕ} (hi : i < C)
    (hstate : (s.slots i).state = .inFlight) :
    i ∉ F ∧ i ∉ R ∧ i ∈ (P ++ G.flatten).map RequestId.slot ∧
      (s.slots i).activeEpoch ≠ noEpoch ∧ (s.slots i).inReclaimRing = false := by
  have := h.slot i hi
  rwa [SlotOk, hstate] at this

/-! ### A batch enters and leaves -/

/-- The slots of the handles in `sel` are in flight under the next epoch. -/
def flown (s : Scheduler C) (sel : List RequestId) : Scheduler C :=
  { s with
    slots := fun i => if i ∈ sel.map RequestId.slot then
      { s.slots i with state := .inFlight, activeEpoch := s.submitted + 1 } else s.slots i
    members := s.members.pushAll C sel }

/-- The batch is on record. -/
def launched (s : Scheduler C) (sel : List RequestId) (cursor : ℕ) : Scheduler C :=
  { s.flown sel with
    batches := s.batches.push C ⟨s.submitted + 1, sel.length⟩
    cursor := cursor
    submitted := s.submitted + 1 }

/-- Ready requests that a dispatch may take, each once. -/
structure Selectable (s : Scheduler C) (sel : List RequestId) : Prop where
  nodup : (sel.map RequestId.slot).Nodup
  lt : ∀ x ∈ sel, x.slot < C
  ready : ∀ x ∈ sel, (s.slots x.slot).state = .ready
  generation : ∀ x ∈ sel, (s.slots x.slot).generation = x.generation

theorem launched_of_mem {sel : List RequestId} {cursor i : ℕ} (h : i ∈ sel.map RequestId.slot) :
    (s.launched sel cursor).slots i =
      { s.slots i with state := .inFlight, activeEpoch := s.submitted + 1 } := if_pos h

theorem launched_of_not_mem {sel : List RequestId} {cursor i : ℕ}
    (h : i ∉ sel.map RequestId.slot) : (s.launched sel cursor).slots i = s.slots i := if_neg h

theorem Ok.not_mem_of_flying (h : s.Ok F R G P) {sel : List RequestId} (hsel : s.Selectable sel)
    {x : RequestId} (hx : x ∈ P ++ G.flatten) : x.slot ∉ sel.map RequestId.slot := by
  intro hmem
  obtain ⟨y, hy, heq⟩ := List.mem_map.mp hmem
  refine (h.ready (hsel.lt y hy) (hsel.ready y hy)).2.2.1 ?_
  rw [heq]
  exact List.mem_map_of_mem hx

theorem Ok.launch (h : s.Ok F R G P) {sel : List RequestId} {cursor : ℕ} (hsel : s.Selectable sel)
    (hne : sel ≠ []) (hbatches : G.length < C) (hmembers : G.flatten.length + sel.length ≤ C)
    (hsubmitted : s.submitted + 1 < 2 ^ 64) (hcursor : cursor < C) :
    (s.launched sel cursor).Ok F R (G ++ [sel]) P := by
  have hflat : (G ++ [sel]).flatten = G.flatten ++ sel := by simp
  have hstays : ∀ x ∈ P ++ G.flatten, (s.launched sel cursor).slots x.slot = s.slots x.slot :=
    fun x hx => launched_of_not_mem (h.not_mem_of_flying hsel hx)
  have hepoch : s.submitted + 1 = s.completed + 1 + G.length := by
    have := h.submitted_eq
    omega
  refine ⟨h.capacity_pos, h.capacity_le, h.free_ring, h.reclaim_ring, ?_, ?_, hcursor, ?_,
    hsubmitted, h.live, h.free_nodup, h.reclaim_nodup, h.free_lt, h.reclaim_lt, ?_, fun x hx => ?_,
    fun i hi => ?_, fun i hi => ?_, fun g hg => ?_, fun k g hg x hx => ?_, fun x hx => ?_⟩
  · rw [hflat]
    exact h.member_ring.pushAll hmembers
  · show (s.batches.push C _).Spells C (records s.completed (G ++ [sel]))
    rw [records_concat, ← h.submitted_eq]
    exact h.batch_ring.push (by rwa [length_records]) _
  · show s.submitted + 1 = s.completed + _
    rw [List.length_append, List.length_singleton, h.submitted_eq, Nat.add_assoc]
  · rw [hflat, ← List.append_assoc, List.map_append]
    refine h.flying_nodup.append hsel.nodup fun i hi hmem => ?_
    obtain ⟨x, hx, rfl⟩ := List.mem_map.mp hi
    exact h.not_mem_of_flying hsel hx hmem
  · rw [hflat, ← List.append_assoc] at hx
    rcases List.mem_append.mp hx with hx | hx
    · rw [hstays x hx]
      exact h.flying x hx
    · rw [launched_of_mem (List.mem_map_of_mem hx)]
      exact ⟨hsel.lt x hx, hsel.generation x hx⟩
  · have hmem : (i ∈ (P ++ (G ++ [sel]).flatten).map RequestId.slot) =
        (i ∈ (P ++ G.flatten).map RequestId.slot ∨ i ∈ sel.map RequestId.slot) := by
      rw [hflat, ← List.append_assoc, List.map_append, List.mem_append]
    rw [hmem]
    by_cases hin : i ∈ sel.map RequestId.slot
    · obtain ⟨x, hx, rfl⟩ := List.mem_map.mp hin
      obtain ⟨hf, hr, -, -, hreclaim⟩ := h.ready hi (hsel.ready x hx)
      rw [launched_of_mem hin]
      exact ⟨hf, hr, .inr hin, Nat.succ_ne_zero _, hreclaim⟩
    · rw [launched_of_not_mem hin, propext (or_iff_left hin)]
      exact h.slot i hi
  · by_cases hin : i ∈ sel.map RequestId.slot
    · rw [launched_of_mem hin]
      exact h.generation i hi
    · rw [launched_of_not_mem hin]
      exact h.generation i hi
  · rcases List.mem_append.mp hg with hg | hg
    · exact h.nonempty g hg
    · rwa [List.mem_singleton.mp hg]
  · rcases Nat.lt_or_ge k G.length with hk | hk
    · rw [List.getElem?_append_left hk] at hg
      rw [hstays x
        (List.mem_append_right _ (List.mem_flatten.mpr ⟨g, List.mem_of_getElem? hg, hx⟩))]
      exact h.epoch k g hg x hx
    · rw [List.getElem?_append_right hk, List.getElem?_singleton] at hg
      obtain ⟨hz, hg⟩ := Option.ite_none_right_eq_some.mp hg
      obtain rfl := Option.some.inj hg
      rw [launched_of_mem (List.mem_map_of_mem hx)]
      show s.submitted + 1 = s.completed + 1 + k
      omega
  · rw [hstays x (List.mem_append_left _ hx)]
    exact h.settled x hx

/-- The oldest batch is off the rings. -/
def finished (s : Scheduler C) (g : List RequestId) : Scheduler C :=
  { s with
    members := Ring.popMany C g.length s.members
    batches := s.batches.pop C
    completed := s.completed + 1 }

theorem Ok.finish {g : List RequestId} (h : s.Ok F R (g :: G) []) : (s.finished g).Ok F R G g := by
  have hflat : [] ++ (g :: G).flatten = g ++ G.flatten := by simp
  have hring := h.member_ring.popMany (n := g.length) (by simp)
  rw [List.flatten_cons, List.drop_left] at hring
  refine ⟨h.capacity_pos, h.capacity_le, h.free_ring, h.reclaim_ring, hring, h.batch_ring.pop,
    h.cursor_lt, ?_, h.submitted_lt, h.live, h.free_nodup, h.reclaim_nodup, h.free_lt, h.reclaim_lt,
    hflat ▸ h.flying_nodup, hflat ▸ h.flying, hflat ▸ h.slot, h.generation,
    fun g' hg' => h.nonempty g' (List.mem_cons_of_mem _ hg'), fun k g' hg' x hx => ?_, ?_⟩
  · show s.submitted = s.completed + 1 + G.length
    rw [h.submitted_eq, List.length_cons, Nat.add_assoc, Nat.add_comm 1]
  · show (s.slots x.slot).activeEpoch = s.completed + 1 + 1 + k
    rw [h.epoch (k + 1) g' hg' x hx, Nat.add_right_comm _ 1 k, Nat.add_assoc (s.completed + 1)]
  · intro x hx
    exact h.epoch 0 g rfl x hx

theorem slotAt_of_lt {ε : Type} {i : ℕ} (hi : i < C) :
    (s.slotAt i : Outcome ε Slot) = .ok (s.slots i) := by
  rw [slotAt, if_pos hi]
  rfl

@[simp] theorem setSlot_self {i : ℕ} {slot : Slot} : (s.setSlot i slot).slots i = slot :=
  Function.update_self ..

theorem setSlot_of_ne {i j : ℕ} {slot : Slot} (h : j ≠ i) :
    (s.setSlot i slot).slots j = s.slots j :=
  Function.update_of_ne h ..

end Scheduler

end EngineCore

end Ferric
