import Ferric.TpScheduler.Stream
import Mathlib.Algebra.Order.BigOperators.Group.List
import Mathlib.Algebra.Order.Group.Nat

/-!
# What a batch is made of

A batch takes the ready requests in the order of the cursors: one row each from a prefix of those
that decode, then a run of prompt rows each from a prefix of those in prefill. The two limits are
such that no row of the budget is left over while a request could use it, and that with two rows
or more neither phase keeps the other out.

## Main definitions

* `eligible`, `promptShare` — who is ready, and how many rows a prefill could use
* `Schedule` — the rows of a batch, run by run, and the cursors behind them
* `RequestRun` — the rows of one request

## Main results

* `prepare_schedule`
* `prepare_exact`
-/

namespace Ferric

namespace TpScheduler

/-- A run that decodes has decode rows, and one in prefill has none. -/
theorem Selected.kinds {r : RequestRecord} {run : List BatchRow} (h : Selected r run)
    (hne : run ≠ []) :
    (r.state = .decode → ∀ row ∈ run, row.kind = .decode) ∧
      (r.state = .prefill → ∀ row ∈ run, row.kind ≠ .decode) := by
  have hposition : ∀ row ∈ run, r.committedPosition ≤ row.absolutePosition ∧
      row.absolutePosition < r.committedPosition + run.length := by
    intro row hrow
    have hmem : row.absolutePosition ∈ run.map (·.absolutePosition) := List.mem_map_of_mem hrow
    rw [h.positions, List.mem_range'_1] at hmem
    exact hmem
  constructor
  · intro hstate row hrow
    rw [(h.rowAt row hrow).kind, kindAt_eq_decode]
    exact (state_eq_decode hstate).2.trans (hposition row hrow).1
  · intro hstate row hrow
    rw [(h.rowAt row hrow).kind, ne_eq, kindAt_eq_decode]
    rcases h.phase hne with ⟨-, hle⟩ | ⟨hdecode, -⟩
    · have := (hposition row hrow).2
      omega
    · simp [hstate] at hdecode

namespace Scheduler

variable {s s' : Scheduler} {tick nowNs tokenBudget : ℕ}

/-! ### Who is ready -/

/-- The request is in a state, and has arrived. -/
def Waits (state : RequestState) (tick nowNs : ℕ) (r : RequestRecord) : Prop :=
  r.state = state ∧ r.arrivalTick ≤ tick ∧ r.arrivalNs ≤ nowNs

instance {state : RequestState} {r : RequestRecord} : Decidable (Waits state tick nowNs r) :=
  inferInstanceAs (Decidable (_ ∧ _))

/-- The slots whose request is in a state and has arrived. -/
def eligible (s : Scheduler) (state : RequestState) (tick nowNs : ℕ) : List (Fin 32) :=
  (List.finRange 32).filter fun i => (s.slots i).request.any fun r => Waits state tick nowNs r

/-- The rows that a batch may take from the prompt in a slot. -/
def promptShare (s : Scheduler) (i : Fin 32) : ℕ :=
  (s.slots i).request.elim 0 fun r =>
    min (r.promptTokens.length - r.committedPosition) s.prefillChunk

/-- A rotation of the slots. -/
theorem ready_perm (s : Scheduler) (state : RequestState) (cursor tick nowNs : ℕ) :
    (s.ready state cursor tick nowNs).Perm (s.eligible state tick nowNs) := by
  refine List.Perm.filter _ ?_
  have hnd : ((List.range 32).map fun offset => Fin.ofNat 32 (cursor + offset)).Nodup := by
    refine List.Nodup.map_on ?_ List.nodup_range
    intro a ha b hb hab
    have hval := congrArg Fin.val hab
    simp only [Fin.ofNat, List.mem_range] at hval ha hb
    omega
  refine (List.perm_ext_iff_of_nodup hnd (List.nodup_finRange 32)).mpr fun i => ?_
  refine iff_of_true (List.mem_map.mpr ⟨(i + (32 - cursor % 32)) % 32, ?_, ?_⟩)
    (List.mem_finRange i)
  · exact List.mem_range.mpr (Nat.mod_lt _ (by omega))
  · refine Fin.ext ?_
    simp only [Fin.ofNat]
    omega

theorem mem_ready_iff {state : RequestState} {cursor : ℕ} {i : Fin 32} :
    i ∈ s.ready state cursor tick nowNs ↔ ∃ r, s.Retains i r ∧ Waits state tick nowNs r := by
  rw [(s.ready_perm state cursor tick nowNs).mem_iff, eligible, List.mem_filter]
  simp only [List.mem_finRange, true_and, Option.any_eq_true_iff_get, decide_eq_true_iff]
  constructor
  · rintro ⟨hsome, h⟩
    exact ⟨_, (Option.some_get hsome).symm, h⟩
  · rintro ⟨r, hr, h⟩
    have hsome : (s.slots i).request.isSome = true := by rw [hr]; rfl
    refine ⟨hsome, ?_⟩
    have hget : (s.slots i).request.get hsome = r := Option.get_of_eq_some hsome hr
    rwa [hget]

/-- A ready prefill can use a row. -/
theorem promptShare_pos (h : s.SchedulerInv) {i : Fin 32} {r : RequestRecord}
    (hr : s.Retains i r) (hstate : r.state = .prefill) : 0 < s.promptShare i := by
  have hlt := (state_eq_prefill hstate).2
  have hchunk := h.chunk_pos
  rw [promptShare, hr, Option.elim_some]
  omega

/-! ### Prompt rows -/

/-- Where a cursor stands after the slots were visited. -/
def cursorAfter (cursor : ℕ) (slots : List (Fin 32)) : ℕ :=
  slots.getLast?.elim cursor fun i => (i + 1) % 32

theorem cursorAfter_cons {cursor : ℕ} {i : Fin 32} {slots : List (Fin 32)} :
    cursorAfter cursor (i :: slots) = cursorAfter ((i + 1) % 32) slots := by
  rw [cursorAfter, cursorAfter, List.getLast?_cons]
  cases slots.getLast? <;> rfl

/-- The rows of one request of a batch. -/
structure RequestRun (s : Scheduler) (state : RequestState) (i : Fin 32) (run : List BatchRow) :
    Prop where
  exists_record : ∃ r, s.Retains i r ∧ r.state = state ∧ Selected r run
  nonempty : run ≠ []

/-- **The prompt rows** of a batch: runs of a prefix of the ready requests, until the budget is
used up. -/
theorem prefillLoop_runs {E : SchedulerError → Prop} (h : s.SchedulerInv) {slots : List (Fin 32)}
    {rows : List BatchRow} {cursor : ℕ} (hstate : ∀ i ∈ slots, ∃ r, s.Retains i r ∧
      r.state = .prefill) (hle : rows.length ≤ tokenBudget) :
    Ensures (s.prefillLoop tokenBudget slots rows cursor) E fun out =>
      ∃ runs : List (List BatchRow), out.1 = rows ++ runs.flatten ∧
        List.Forall₂ (s.RequestRun .prefill) (slots.take runs.length) runs ∧
        out.2 = cursorAfter cursor (slots.take runs.length) ∧
        out.1.length = min tokenBudget (rows.length + (slots.map s.promptShare).sum) := by
  induction slots generalizing rows cursor with
  | nil =>
    refine ensures_ok.mpr ⟨[], by simp, .nil, rfl, ?_⟩
    simp only [List.map_nil, List.sum_nil, Nat.add_zero]
    omega
  | cons i slots ih =>
    obtain ⟨r, hr, hprefill⟩ := hstate i List.mem_cons_self
    have hlt := (state_eq_prefill hprefill).2
    rw [prefillLoop, checkedSub_of_le hle, orPanic, ok_bind]
    split
    · next hfull =>
      refine ensures_pure.mpr ⟨[], by simp, .nil, rfl, ?_⟩
      simp only
      omega
    · next hroom =>
      have hpos := promptShare_pos h hr hprefill
      have hshare : s.promptShare i =
          min (r.promptTokens.length - r.committedPosition) s.prefillChunk := by
        rw [promptShare, hr, Option.elim_some]
      rw [hr, orErr, ok_bind]
      simp only
      rw [checkedSub_of_le hlt.le, orPanic, ok_bind]
      refine (prefillRows_ensures h hr hprefill (by omega)).bind fun run _ hrows => ?_
      obtain ⟨hrun, hlen⟩ := hrows
      have hadded : run ≠ [] := by
        rw [← List.length_pos_iff]
        omega
      have hrest : (rows ++ run).length ≤ tokenBudget := by
        rw [List.length_append]
        omega
      refine (ih (fun j hj => hstate j (.tail _ hj)) hrest).mono (fun _ h => h) fun out _ hout => ?_
      obtain ⟨runs, hrows, hruns, hcursor, hlength⟩ := hout
      refine ⟨run :: runs, by simp [hrows], ?_, ?_, ?_⟩
      · exact .cons ⟨⟨r, hr, hprefill, hrun⟩, hadded⟩ hruns
      · rw [hcursor, List.length_cons, List.take_succ_cons, cursorAfter_cons]
      · rw [hlength, List.length_append, List.map_cons, List.sum_cons, hlen, hshare]
        omega

/-! ### The whole batch -/

/-- The rows of a batch, run by run, and what preparing it leaves. -/
structure Schedule (s : Scheduler) (tick nowNs tokenBudget : ℕ) (batch : ScheduledBatch)
    (s' : Scheduler) (decoded : List BatchRow) (runs : List (List BatchRow)) : Prop where
  rows : batch.rows = decoded ++ runs.flatten
  stamps : batch.tick = tick ∧ batch.preparedNs = nowNs
  decodes : List.Forall₂ (fun i row => s.RequestRun .decode i [row])
    ((s.ready .decode s.decodeCursor tick nowNs).take decoded.length) decoded
  prefills : List.Forall₂ (s.RequestRun .prefill)
    ((s.ready .prefill s.prefillCursor tick nowNs).take runs.length) runs
  decoded_length : decoded.length =
    min (s.decodeLimit tokenBudget (!(s.ready .decode s.decodeCursor tick nowNs).isEmpty &&
      !(s.ready .prefill s.prefillCursor tick nowNs).isEmpty))
      (s.ready .decode s.decodeCursor tick nowNs).length
  length : batch.rows.length = min tokenBudget (decoded.length +
    ((s.ready .prefill s.prefillCursor tick nowNs).map s.promptShare).sum)
  eq : s' = { s with
    pending := some
      { batch
        decodeCursor := cursorAfter s.decodeCursor
          ((s.ready .decode s.decodeCursor tick nowNs).take decoded.length)
        prefillCursor := cursorAfter s.prefillCursor
          ((s.ready .prefill s.prefillCursor tick nowNs).take runs.length)
        singleRowPrefill :=
          if (!(s.ready .decode s.decodeCursor tick nowNs).isEmpty &&
            !(s.ready .prefill s.prefillCursor tick nowNs).isEmpty) = true ∧ tokenBudget = 1 then
            !s.singleRowPrefill else s.singleRowPrefill }
    lastBatchId := batch.id
    lastTick := tick
    lastTimeNs := nowNs }

/-- Why an idle scheduler does not prepare. -/
def Refused (s : Scheduler) (tick nowNs : ℕ) (e : SchedulerError) : Prop :=
  e = .invalidClock ∧ (tick < s.lastTick ∨ nowNs < s.lastTimeNs) ∨
    e = .batchOverflow ∧ 2 ^ 64 ≤ s.lastBatchId + 1 ∧
      ¬ (s.eligible .decode tick nowNs = [] ∧ s.eligible .prefill tick nowNs = [])

/-- **Preparing, run by run.** -/
theorem prepare_schedule (h : s.SchedulerInv) (hidle : s.Idle)
    (hbudget : 1 ≤ tokenBudget ∧ tokenBudget ≤ s.maxRows) :
    Ensures (s.prepare tick nowNs tokenBudget) (s.Refused tick nowNs) fun out =>
      (out.1 = none ↔
        s.eligible .decode tick nowNs = [] ∧ s.eligible .prefill tick nowNs = []) ∧
      ∀ batch, out.1 = some batch →
        ∃ decoded runs, s.Schedule tick nowNs tokenBudget batch out.2 decoded runs := by
  rw [prepare]
  refine (requireIdle_ensures.mono (fun _ hne => absurd hidle hne) fun _ _ h => h).bind
    fun _ _ _ => ?_
  refine (ensures_failIf (Q := fun _ => True) (fun hbad => absurd hbudget hbad)
    fun _ => trivial).bind fun _ _ _ => ?_
  refine (ensures_failIf (Q := fun _ => True) (fun hclock => .inl ⟨rfl, hclock⟩)
    fun _ => trivial).bind fun _ _ _ => ?_
  have hdecodeEmpty : s.ready .decode s.decodeCursor tick nowNs = [] ↔
      s.eligible .decode tick nowNs = [] :=
    ⟨fun he => (he ▸ s.ready_perm .decode s.decodeCursor tick nowNs).symm.eq_nil,
      fun he => (he ▸ s.ready_perm .decode s.decodeCursor tick nowNs).eq_nil⟩
  have hprefillEmpty : s.ready .prefill s.prefillCursor tick nowNs = [] ↔
      s.eligible .prefill tick nowNs = [] :=
    ⟨fun he => (he ▸ s.ready_perm .prefill s.prefillCursor tick nowNs).symm.eq_nil,
      fun he => (he ▸ s.ready_perm .prefill s.prefillCursor tick nowNs).eq_nil⟩
  simp only [hdecodeEmpty, hprefillEmpty]
  split
  · next hempty => exact ensures_pure.mpr ⟨iff_of_true rfl hempty, fun _ hsome => by cases hsome⟩
  next hready =>
  have hoverflow : checkedAdd 64 s.lastBatchId 1 = none → 2 ^ 64 ≤ s.lastBatchId + 1 := by
    intro hnone
    by_contra hlt
    rw [checkedAdd, if_pos (Nat.not_le.mp hlt)] at hnone
    cases hnone
  refine (ensures_orErr (Q := fun _ => True) (fun hnone => .inr ⟨rfl, hoverflow hnone, hready⟩)
    fun _ _ => trivial).bind fun id _ _ => ?_
  have hdecodes : ∀ i ∈ s.ready .decode s.decodeCursor tick nowNs,
      ∃ r, s.Retains i r ∧ r.state = .decode := fun i hi => mem_ready hi
  have hprefills : ∀ i ∈ s.ready .prefill s.prefillCursor tick nowNs,
      ∃ r, s.Retains i r ∧ r.state = .prefill := fun i hi => mem_ready hi
  generalize hlimit : s.decodeLimit tokenBudget
    (!(s.ready .decode s.decodeCursor tick nowNs).isEmpty &&
      !(s.ready .prefill s.prefillCursor tick nowNs).isEmpty) = limit
  have hlimitLe : limit ≤ tokenBudget := by
    rw [← hlimit, decodeLimit]
    split_ifs <;> omega
  refine (ensures_mapM (R := fun i row => s.RequestRun .decode i [row]) fun i hi => ?_).bind
    fun decoded _ hdecoded => ?_
  · obtain ⟨r, hr, hstate⟩ := hdecodes i (List.mem_of_mem_take hi)
    exact (decodeRow_ensures h hr hstate).mono (fun _ h => h) fun row _ hrow =>
      ⟨⟨r, hr, hstate, hrow⟩, by simp⟩
  have hlength : decoded.length =
      min limit (s.ready .decode s.decodeCursor tick nowNs).length := by
    rw [← hdecoded.length_eq, List.length_take]
  have htake : (s.ready .decode s.decodeCursor tick nowNs).take limit =
      (s.ready .decode s.decodeCursor tick nowNs).take decoded.length := by
    rw [hlength, ← List.take_eq_take_min]
  rw [htake] at hdecoded ⊢
  refine (prefillLoop_runs h hprefills (by omega)).bind
    fun filled _ hprefilled => ?_
  obtain ⟨runs, hrows, hruns, hcursor, hfilled⟩ := hprefilled
  refine ensures_pure.mpr ⟨iff_of_false (by simp) hready, fun batch hsome => ?_⟩
  obtain rfl := Option.some.inj hsome
  refine ⟨decoded, runs, hrows, ⟨rfl, rfl⟩, hdecoded, hruns, hlimit ▸ hlength, hfilled, ?_⟩
  rw [hcursor]
  rfl

/-! ### Requests of a batch -/

/-- Slots that decode and slots in prefill are different ones, and each is visited once. -/
theorem nodup_chosen {m n cursor cursor' : ℕ} :
    ((s.ready .decode cursor tick nowNs).take m ++
      (s.ready .prefill cursor' tick nowNs).take n).Nodup := by
  refine List.nodup_append.mpr ⟨nodup_ready.sublist (List.take_sublist _ _),
    nodup_ready.sublist (List.take_sublist _ _), ?_⟩
  rintro i hi j hj rfl
  obtain ⟨r, hr, hdecode, -⟩ := mem_ready_iff.mp (List.mem_of_mem_take hi)
  obtain ⟨q, hq, hprefill, -⟩ := mem_ready_iff.mp (List.mem_of_mem_take hj)
  obtain rfl : r = q := Option.some.inj (hr.symm.trans hq)
  simp [hdecode] at hprefill

/-- The rows of one request: consecutive positions from the committed one, in one phase. -/
structure OneRequest (s : Scheduler) (tick nowNs : ℕ) (r : RequestRecord) (run : List BatchRow) :
    Prop where
  retained : ∃ i, s.Retains i r
  nonempty : run ≠ []
  request : ∀ row ∈ run, row.request = r.id
  positions : run.map (·.absolutePosition) = List.range' r.committedPosition run.length
  phase : (Waits .decode tick nowNs r ∧ ∀ row ∈ run, row.kind = .decode) ∨
    (Waits .prefill tick nowNs r ∧ ∀ row ∈ run, row.kind ≠ .decode)

theorem RequestRun.oneRequest {state : RequestState} {cursor : ℕ} {i : Fin 32}
    {run : List BatchRow} (h : s.RequestRun state i run)
    (hi : i ∈ s.ready state cursor tick nowNs) (hstate : state = .decode ∨ state = .prefill) :
    ∃ r, s.Retains i r ∧ s.OneRequest tick nowNs r run := by
  obtain ⟨r, hr, -, hsel⟩ := h.exists_record
  obtain ⟨q, hq, hwaits⟩ := mem_ready_iff.mp hi
  obtain rfl : r = q := Option.some.inj (hr.symm.trans hq)
  obtain ⟨hdecode, hprefill⟩ := hsel.kinds h.nonempty
  refine ⟨r, hr, ⟨i, hr⟩, h.nonempty, fun row hrow => (hsel.rowAt row hrow).request,
    hsel.positions, ?_⟩
  rcases hstate with rfl | rfl
  · exact .inl ⟨hwaits, hdecode hwaits.1⟩
  · exact .inr ⟨hwaits, hprefill hwaits.1⟩

/-- The rows of a batch belong to different requests, run by run. -/
theorem Schedule.requests {batch : ScheduledBatch} {decoded : List BatchRow}
    {runs : List (List BatchRow)} (h : s.SchedulerInv)
    (hs : s.Schedule tick nowNs tokenBudget batch s' decoded runs) :
    ∃ requests : List (RequestRecord × List BatchRow),
      batch.rows = (requests.map (·.2)).flatten ∧ (requests.map (·.1.id)).Nodup ∧
        ∀ request ∈ requests, s.OneRequest tick nowNs request.1 request.2 := by
  have hdecodes : List.Forall₂ (fun i run => ∃ r, s.Retains i r ∧ s.OneRequest tick nowNs r run)
      ((s.ready .decode s.decodeCursor tick nowNs).take decoded.length)
      (decoded.map fun row => [row]) := by
    rw [List.forall₂_map_right_iff]
    refine List.forall₂_iff_get.mpr ⟨hs.decodes.length_eq, fun n hn hn' => ?_⟩
    have hmem := List.mem_of_mem_take (List.get_mem _ ⟨n, hn⟩)
    exact (hs.decodes.get hn hn').oneRequest hmem (.inl rfl)
  have hprefills : List.Forall₂ (fun i run => ∃ r, s.Retains i r ∧ s.OneRequest tick nowNs r run)
      ((s.ready .prefill s.prefillCursor tick nowNs).take runs.length) runs := by
    refine List.forall₂_iff_get.mpr ⟨hs.prefills.length_eq, fun n hn hn' => ?_⟩
    have hmem := List.mem_of_mem_take (List.get_mem _ ⟨n, hn⟩)
    exact (hs.prefills.get hn hn').oneRequest hmem (.inr rfl)
  have hboth := List.rel_append hdecodes hprefills
  obtain ⟨between, hslots, hruns, hall⟩ := exists_between_of_forall₂ hboth
  dsimp only at hslots hruns
  refine ⟨between.map (·.2), ?_, ?_, ?_⟩
  · have hrows : (between.map (·.2)).map (·.2) = (decoded.map fun row => [row]) ++ runs := by
      rw [← hruns, List.map_map]
      rfl
    rw [hrows, List.flatten_append, ← List.flatMap_def, List.flatMap_singleton', hs.rows]
  · -- Identities name their slots, and the slots are different.
    have hnd : (between.map (·.1)).Nodup := hslots ▸ nodup_chosen
    rw [List.map_map]
    refine List.Nodup.of_map RequestId.slot ?_
    have hval : (between.map ((fun x : RequestRecord × List BatchRow => x.1.id) ∘ (·.2))).map
        RequestId.slot = (between.map (·.1)).map Fin.val := by
      rw [List.map_map, List.map_map]
      refine List.map_congr_left fun x hx => ?_
      show x.2.1.id.slot = x.1
      rw [h.id _ _ (hall x hx).1]
    rw [hval]
    exact hnd.map Fin.val_injective
  · intro request hrequest
    obtain ⟨x, hx, rfl⟩ := List.mem_map.mp hrequest
    exact (hall x hx).2

/-- The prompt rows that ready requests can use are none exactly if none is ready. -/
theorem sum_promptShare_eq_zero (h : s.SchedulerInv) :
    ((s.eligible .prefill tick nowNs).map s.promptShare).sum = 0 ↔
      s.eligible .prefill tick nowNs = [] := by
  constructor
  · intro hzero
    refine List.eq_nil_iff_forall_not_mem.mpr fun i hi => ?_
    have hready := (s.ready_perm .prefill s.prefillCursor tick nowNs).mem_iff.mpr hi
    obtain ⟨r, hr, hstate⟩ := mem_ready hready
    have hshare := promptShare_pos h hr hstate
    have hle := List.le_sum_of_mem (List.mem_map_of_mem (f := s.promptShare) hi)
    omega
  · intro hnil
    rw [hnil]
    rfl

/-- **Work conservation.** -/
theorem Schedule.length_eq {batch : ScheduledBatch} {decoded : List BatchRow}
    {runs : List (List BatchRow)} (hs : s.Schedule tick nowNs tokenBudget batch s' decoded runs)
    (h : s.SchedulerInv) (hpos : 1 ≤ tokenBudget) :
    batch.rows.length = min tokenBudget ((s.eligible .decode tick nowNs).length +
      ((s.eligible .prefill tick nowNs).map s.promptShare).sum) := by
  have hdecode := s.ready_perm .decode s.decodeCursor tick nowNs
  have hprefill := s.ready_perm .prefill s.prefillCursor tick nowNs
  have hzero := @sum_promptShare_eq_zero s tick nowNs h
  have hdecoded := hs.decoded_length
  rw [hs.length, (hprefill.map s.promptShare).sum_eq, hdecoded, hdecode.length_eq]
  rw [decodeLimit]
  by_cases hd : s.ready .decode s.decodeCursor tick nowNs = []
  · have hlen : (s.eligible .decode tick nowNs).length = 0 := by
      rw [← hdecode.length_eq, hd]
      rfl
    rw [hlen]
    omega
  by_cases hp : s.ready .prefill s.prefillCursor tick nowNs = []
  · rw [hp]
    simp only [List.isEmpty_nil, Bool.not_true, Bool.and_false, Bool.false_eq_true, if_false]
    omega
  · have hne : ((s.eligible .prefill tick nowNs).map s.promptShare).sum ≠ 0 := fun he =>
      hp (hzero.mp he ▸ hprefill).eq_nil
    have hlen : (s.eligible .decode tick nowNs).length ≠ 0 := by
      rw [← hdecode.length_eq]
      exact (List.length_pos_iff.mpr hd).ne'
    rw [List.isEmpty_eq_false_iff.mpr hd, List.isEmpty_eq_false_iff.mpr hp]
    simp only [Bool.not_false, Bool.and_self, if_true]
    split_ifs <;> omega

/-- With both phases ready and two rows or more, each has one. -/
theorem Schedule.both {batch : ScheduledBatch} {decoded : List BatchRow}
    {runs : List (List BatchRow)} (hs : s.Schedule tick nowNs tokenBudget batch s' decoded runs)
    (hinv : s.SchedulerInv) (hbudget : 2 ≤ tokenBudget)
    (hdecode : s.ready .decode s.decodeCursor tick nowNs ≠ [])
    (hprefill : s.ready .prefill s.prefillCursor tick nowNs ≠ []) : decoded ≠ [] ∧ runs ≠ [] := by
  have hlimit : s.decodeLimit tokenBudget (!(s.ready .decode s.decodeCursor tick nowNs).isEmpty &&
      !(s.ready .prefill s.prefillCursor tick nowNs).isEmpty) = tokenBudget - 1 := by
    rw [List.isEmpty_eq_false_iff.mpr hdecode, List.isEmpty_eq_false_iff.mpr hprefill, decodeLimit]
    simp only [Bool.not_false, Bool.and_self, if_true]
    rw [if_neg (by omega)]
  have hdecoded := hs.decoded_length
  rw [hlimit] at hdecoded
  have hpos := List.length_pos_iff.mpr hdecode
  refine ⟨List.length_pos_iff.mp (by omega), fun hnil => ?_⟩
  -- Some request in prefill can use the row that decoding leaves.
  obtain ⟨i, hi⟩ := List.exists_mem_of_ne_nil _ hprefill
  obtain ⟨r, hr, hstate⟩ := mem_ready hi
  have hshare := promptShare_pos hinv hr hstate
  have hsum := List.le_sum_of_mem (List.mem_map_of_mem (f := s.promptShare) hi)
  have hrows := congrArg List.length hs.rows
  rw [hs.length, hnil, List.flatten_nil, List.append_nil] at hrows
  omega

end Scheduler

open Scheduler

/-- **Preparing.** In every idle state that calls can reach, and for every budget: unless the
clock went back or the batch numbers are used up, there is no batch exactly if nothing is ready.
Otherwise the batch has as many rows as the budget and the ready requests allow, the rows of each
request are consecutive from its committed position and in one phase, no request has two runs, and
with two rows or more a phase that is ready has a row. -/
theorem prepare_exact {w : Run} (h : runSystem.Reachable w) (hidle : w.scheduler.Idle)
    {tick nowNs tokenBudget : ℕ} (hbudget : 1 ≤ tokenBudget ∧ tokenBudget ≤ w.scheduler.maxRows) :
    Ensures (w.scheduler.prepare tick nowNs tokenBudget) (w.scheduler.Refused tick nowNs)
      fun out =>
        let d := (w.scheduler.eligible .decode tick nowNs).length
        let p := ((w.scheduler.eligible .prefill tick nowNs).map w.scheduler.promptShare).sum
        (out.1 = none ↔ d = 0 ∧ p = 0) ∧
        ∀ batch, out.1 = some batch →
          batch.rows.length = min tokenBudget (d + p) ∧
          (∃ requests : List (RequestRecord × List BatchRow),
            batch.rows = (requests.map (·.2)).flatten ∧ (requests.map (·.1.id)).Nodup ∧
              ∀ request ∈ requests, w.scheduler.OneRequest tick nowNs request.1 request.2) ∧
          (2 ≤ tokenBudget → d ≠ 0 → p ≠ 0 →
            (∃ row ∈ batch.rows, row.kind = .decode) ∧ ∃ row ∈ batch.rows, row.kind ≠ .decode) := by
  have hinv := (runInv_of_reachable h).scheduler
  refine (prepare_schedule hinv hidle hbudget).mono (fun _ he => he) fun out _ ⟨hnone, hsome⟩ => ?_
  dsimp only
  rw [List.length_eq_zero_iff, sum_promptShare_eq_zero hinv]
  refine ⟨hnone, fun batch hbatch => ?_⟩
  obtain ⟨decoded, runs, hs⟩ := hsome batch hbatch
  refine ⟨hs.length_eq hinv hbudget.1, hs.requests hinv, fun htwo hd hp => ?_⟩
  have hdecode : w.scheduler.ready .decode w.scheduler.decodeCursor tick nowNs ≠ [] := fun he =>
    hd (List.length_eq_zero_iff.mpr
      (he ▸ w.scheduler.ready_perm .decode w.scheduler.decodeCursor tick nowNs).symm.eq_nil)
  have hprefill : w.scheduler.ready .prefill w.scheduler.prefillCursor tick nowNs ≠ [] := fun he =>
    hp ((sum_promptShare_eq_zero hinv).mpr
      (he ▸ w.scheduler.ready_perm .prefill w.scheduler.prefillCursor tick nowNs).symm.eq_nil)
  obtain ⟨hdecoded, hruns⟩ := hs.both hinv htwo hdecode hprefill
  obtain ⟨row, hrow⟩ := List.exists_mem_of_ne_nil _ hdecoded
  obtain ⟨run, hrun⟩ := List.exists_mem_of_ne_nil _ hruns
  obtain ⟨i, -, hrowRun⟩ := exists_of_forall₂ hs.decodes hrow
  obtain ⟨j, -, hprefillRun⟩ := exists_of_forall₂ hs.prefills hrun
  obtain ⟨r, -, hstate, hsel⟩ := hrowRun.exists_record
  obtain ⟨q, -, hstate', hsel'⟩ := hprefillRun.exists_record
  obtain ⟨row', hrow'⟩ := List.exists_mem_of_ne_nil _ hprefillRun.nonempty
  refine ⟨⟨row, ?_, (hsel.kinds hrowRun.nonempty).1 hstate row (by simp)⟩,
    ⟨row', ?_, (hsel'.kinds hprefillRun.nonempty).2 hstate' row' hrow'⟩⟩
  · rw [hs.rows]
    exact List.mem_append_left _ hrow
  · rw [hs.rows]
    exact List.mem_append_right _ (List.mem_flatten.mpr ⟨run, hrun, hrow'⟩)

/-- A request that decodes, and one that was admitted behind it. -/
def mixedRun : Outcome SchedulerError Run := do
  let s ← new 100 64 4 4
  let w : Run := ⟨s, [], []⟩
  w.calls [.admitRequest ⟨[5], 2, 0, 0, 0⟩ 1, .prepare 1 2 4, .complete 1 [⟨0, 9⟩] 3,
    .admitRequest ⟨[5, 6, 7, 8, 9], 2, 0, 0, 0⟩ 4]

/-- There a batch of four rows is filled, and has rows of both. -/
theorem prepare_exact_mixedRun :
    ∃ w batch s, runSystem.Reachable w ∧ w.scheduler.prepare 1 5 4 = .ok (some batch, s) ∧
      batch.rows.length = 4 ∧
        (∃ row ∈ batch.rows, row.kind = .decode) ∧ ∃ row ∈ batch.rows, row.kind ≠ .decode := by
  have hstate : mixedRun.map (fun w => (w.scheduler.poisoned, w.scheduler.pending,
      w.scheduler.maxRows, (w.scheduler.eligible .decode 1 5).length,
      ((w.scheduler.eligible .prefill 1 5).map w.scheduler.promptShare).sum,
      (w.scheduler.prepare 1 5 4).isOk)) = .ok (false, none, 4, 1, 4, true) := by rfl
  cases hr : mixedRun with
  | error e => simp [hr, Except.map] at hstate
  | ok w =>
    simp only [hr, Except.map, Except.ok.injEq, Prod.mk.injEq] at hstate
    obtain ⟨hpoisoned, hpending, hmax, hd, hp, hprepared⟩ := hstate
    obtain ⟨s, hs, hcalls⟩ := bind_eq_ok.mp hr
    have hreach := reachable_of_calls (.init ⟨rfl, rfl, 100, 64, 4, 4, .inl hs⟩) hcalls
    have hexact := @prepare_exact w hreach ⟨hpoisoned, hpending⟩ 1 5 4 ⟨by omega, by omega⟩
    rcases hexact.cases with ⟨⟨_ | batch, s'⟩, hok, hnone, hsome⟩ | ⟨e, herr, -⟩
    · rw [hd, hp] at hnone
      simp at hnone
    · obtain ⟨hlength, -, hboth⟩ := hsome batch rfl
      rw [hd, hp] at hlength hboth
      exact ⟨w, batch, s', hreach, hok, hlength, hboth (by omega) (by omega) (by omega)⟩
    · rw [herr] at hprepared
      cases hprepared

end TpScheduler

end Ferric
