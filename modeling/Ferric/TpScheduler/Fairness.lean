import Ferric.TpScheduler.Selection

/-!
# How long a request is passed over

A batch takes the ready requests of a phase in the cyclic order from the phase's cursor, and its
completion leaves the cursor behind the last of them. A request that is not among them has come
closer to the cursor. A batch without any row of a phase that is ready has a single row, and its
completion gives the next single row to that phase. So a request that waits is passed over at most
sixty-three times in a row, whatever the budgets are and whoever comes and goes.

## Main definitions

* `distance` — from a cursor to a slot
* `historySystem` — runs that record the completed batches
* `debt` — how often a request can still be passed over

## Main results

* `Turned.turn` — what a completed batch does for a request that waits
* `bounded_bypass`
-/

namespace Ferric

namespace TpScheduler

/-- How far a slot is ahead of a cursor, in the cyclic order of the slots. -/
def distance (cursor slot : ℕ) : ℕ := (slot + (32 - cursor % 32)) % 32

theorem distance_le (cursor slot : ℕ) : distance cursor slot ≤ 31 := by
  rw [distance]
  omega

/-- A cursor behind a nearer slot is nearer. -/
theorem distance_succ_lt {cursor : ℕ} {i j : Fin 32} (h : distance cursor j < distance cursor i) :
    distance ((j + 1) % 32) i < distance cursor i := by
  have hi := i.isLt
  have hj := j.isLt
  rw [distance] at h ⊢
  rw [distance] at h ⊢
  omega

/-- The phase that a row advances. -/
def BatchRow.phase (row : BatchRow) : RequestState :=
  if row.kind = .decode then .decode else .prefill

/-- The cursor of a phase. -/
def Scheduler.cursor (s : Scheduler) (phase : RequestState) : ℕ :=
  if phase = .decode then s.decodeCursor else s.prefillCursor

/-- The cursor of a phase that the completion installs. -/
def Pending.cursor (pd : Pending) (phase : RequestState) : ℕ :=
  if phase = .decode then pd.decodeCursor else pd.prefillCursor

namespace Scheduler

variable {s s' : Scheduler} {tick nowNs tokenBudget : ℕ} {phase : RequestState}

/-- Ready requests come in the order of their distance. -/
theorem ready_sorted (s : Scheduler) (state : RequestState) (cursor tick nowNs : ℕ) :
    (s.ready state cursor tick nowNs).Pairwise
      fun i j : Fin 32 => distance cursor i < distance cursor j := by
  refine List.Pairwise.filter _ (List.pairwise_map.mpr ?_)
  refine List.pairwise_lt_range.imp_of_mem fun {a b} ha hb hlt => ?_
  rw [List.mem_range] at ha hb
  have hoffset : ∀ n < 32, distance cursor (Fin.ofNat 32 (cursor + n)) = n := by
    intro n hn
    simp only [distance, Fin.ofNat]
    omega
  rw [hoffset a ha, hoffset b hb]
  exact hlt

/-- A request behind those that were taken comes closer. -/
theorem distance_cursorAfter {cursor n : ℕ} {slots : List (Fin 32)} {i : Fin 32}
    (hsorted : slots.Pairwise fun i j : Fin 32 => distance cursor i < distance cursor j)
    (hi : i ∈ slots.drop n) (hne : slots.take n ≠ []) :
    distance (cursorAfter cursor (slots.take n)) i < distance cursor i := by
  rw [cursorAfter, List.getLast?_eq_some_getLast hne, Option.elim_some]
  refine distance_succ_lt ?_
  rw [← List.take_append_drop n slots] at hsorted
  exact (List.pairwise_append.mp hsorted).2.2 _ (List.getLast_mem hne) i hi

/-- A batch was prepared from this scheduler, with all that may matter for its completion. -/
def Turned (s : Scheduler) (pd : Pending) : Prop :=
  ∃ (s₀ : Scheduler) (tokenBudget : ℕ) (decoded : List BatchRow) (runs : List (List BatchRow)),
    s₀.SchedulerInv ∧ 1 ≤ tokenBudget ∧ s.pending = some pd ∧
      s₀.Schedule pd.batch.tick pd.batch.preparedNs tokenBudget pd.batch s decoded runs

/-- What a batch does for a request that waits: it has a row of it, or it comes closer to the
cursor, or the phase was left out and the next single row is its own. -/
inductive Turn (s : Scheduler) (pd : Pending) (phase : RequestState) (id : RequestId) : Prop
  | served (h : ∃ row ∈ pd.batch.rows, row.phase = phase ∧ row.request = id)
  | closer (h : ∃ row ∈ pd.batch.rows, row.phase = phase)
      (hdistance : distance (pd.cursor phase) id.slot < distance (s.cursor phase) id.slot)
  | leftOut (h : ∀ row ∈ pd.batch.rows, row.phase ≠ phase)
      (hcursor : pd.cursor phase = s.cursor phase)
      (hsingle : s.singleRowPrefill = decide (phase = .decode))
      (hnext : pd.singleRowPrefill = !s.singleRowPrefill)

/-- The phases of the two parts of a batch. -/
theorem Schedule.phases {batch : ScheduledBatch} {decoded : List BatchRow}
    {runs : List (List BatchRow)} (hs : s.Schedule tick nowNs tokenBudget batch s' decoded runs) :
    (∀ row ∈ decoded, row.phase = .decode) ∧ ∀ row ∈ runs.flatten, row.phase = .prefill := by
  constructor
  · intro row hrow
    obtain ⟨i, -, hrun⟩ := exists_of_forall₂ hs.decodes hrow
    obtain ⟨r, -, hstate, hsel⟩ := hrun.exists_record
    rw [BatchRow.phase, if_pos ((hsel.kinds hrun.nonempty).1 hstate row (by simp))]
  · intro row hrow
    obtain ⟨run, hmem, hrow⟩ := List.mem_flatten.mp hrow
    obtain ⟨i, -, hrun⟩ := exists_of_forall₂ hs.prefills hmem
    obtain ⟨r, -, hstate, hsel⟩ := hrun.exists_record
    rw [BatchRow.phase, if_neg ((hsel.kinds hrun.nonempty).2 hstate row hrow)]

/-- A slot that was taken has a row. -/
theorem RequestRun.exists_row {state : RequestState} {i : Fin 32} {run : List BatchRow}
    {r : RequestRecord} (h : s.RequestRun state i run) (hr : s.Retains i r) :
    ∃ row ∈ run, row.request = r.id := by
  obtain ⟨q, hq, -, hsel⟩ := h.exists_record
  obtain rfl : r = q := Option.some.inj (hr.symm.trans hq)
  obtain ⟨row, hrow⟩ := List.exists_mem_of_ne_nil _ h.nonempty
  exact ⟨row, hrow, (hsel.rowAt row hrow).request⟩

/-- What a completion installs. -/
theorem Schedule.installs {pd : Pending} {decoded : List BatchRow} {runs : List (List BatchRow)}
    (hs : s.Schedule tick nowNs tokenBudget pd.batch s' decoded runs) (hpd : s'.pending = some pd) :
    pd.decodeCursor = cursorAfter s.decodeCursor
        ((s.ready .decode s.decodeCursor tick nowNs).take decoded.length) ∧
      pd.prefillCursor = cursorAfter s.prefillCursor
        ((s.ready .prefill s.prefillCursor tick nowNs).take runs.length) ∧
      pd.singleRowPrefill =
        if (!(s.ready .decode s.decodeCursor tick nowNs).isEmpty &&
          !(s.ready .prefill s.prefillCursor tick nowNs).isEmpty) = true ∧ tokenBudget = 1 then
          !s.singleRowPrefill else s.singleRowPrefill := by
  have hpending := congrArg Scheduler.pending hs.eq
  rw [hpd] at hpending
  have hfields := Option.some.inj hpending
  exact ⟨congrArg Pending.decodeCursor hfields, congrArg Pending.prefillCursor hfields,
    congrArg Pending.singleRowPrefill hfields⟩

/-- The turn of one phase, from the slots that were taken. -/
theorem turn_of_taken {pd : Pending} {slots : List (Fin 32)} {n : ℕ} {i : Fin 32}
    {id : RequestId} (hslot : id.slot = i)
    (hsorted : slots.Pairwise fun i j : Fin 32 =>
      distance (s.cursor phase) i < distance (s.cursor phase) j)
    (hi : i ∈ slots) (hcursor : pd.cursor phase = cursorAfter (s.cursor phase) (slots.take n))
    (hserved : i ∈ slots.take n → ∃ row ∈ pd.batch.rows, row.phase = phase ∧ row.request = id)
    (hrow : slots.take n ≠ [] → ∃ row ∈ pd.batch.rows, row.phase = phase)
    (hleft : slots.take n = [] → (∀ row ∈ pd.batch.rows, row.phase ≠ phase) ∧
      s.singleRowPrefill = decide (phase = .decode) ∧ pd.singleRowPrefill = !s.singleRowPrefill) :
    Turn s pd phase id := by
  by_cases hnil : slots.take n = []
  · obtain ⟨hnone, hsingle, hnext⟩ := hleft hnil
    exact .leftOut hnone (by rw [hcursor, hnil]; rfl) hsingle hnext
  by_cases htaken : i ∈ slots.take n
  · exact .served (hserved htaken)
  · have hdrop : i ∈ slots.drop n := by
      rw [← List.take_append_drop n slots] at hi
      exact (List.mem_append.mp hi).resolve_left htaken
    refine .closer (hrow hnil) ?_
    rw [hslot, hcursor]
    exact distance_cursorAfter hsorted hdrop hnil

/-- **A turn of decoding.** It is left out only for a single row that is prefill's. -/
theorem Schedule.turn_decode {pd : Pending} {decoded : List BatchRow} {runs : List (List BatchRow)}
    (h : s.SchedulerInv) (hpos : 1 ≤ tokenBudget) (hpd : s'.pending = some pd)
    (hs : s.Schedule tick nowNs tokenBudget pd.batch s' decoded runs) {i : Fin 32}
    {r : RequestRecord} (hr : s.Retains i r) (hwaits : Waits .decode tick nowNs r) :
    Turn s pd .decode r.id := by
  have hi : i ∈ s.ready .decode s.decodeCursor tick nowNs := mem_ready_iff.mpr ⟨r, hr, hwaits⟩
  have hslot : r.id.slot = i := by rw [h.id i r hr]
  obtain ⟨hdecoded, hprefilled⟩ := hs.phases
  obtain ⟨hcursor, -, hsingle⟩ := hs.installs hpd
  have htakeLength := hs.decodes.length_eq
  refine turn_of_taken hslot (s.ready_sorted .decode s.decodeCursor tick nowNs) hi hcursor ?_ ?_ ?_
  · intro htaken
    obtain ⟨row, hrow, hrun⟩ := exists_of_forall₂ hs.decodes.flip htaken
    obtain ⟨row', hrow', hid⟩ := hrun.exists_row hr
    rw [List.mem_singleton.mp hrow'] at hid
    refine ⟨row, ?_, hdecoded row hrow, hid⟩
    rw [hs.rows]
    exact List.mem_append_left _ hrow
  · intro hne
    obtain ⟨row, hrow⟩ := List.exists_mem_of_length_pos
      (htakeLength ▸ List.length_pos_iff.mpr hne)
    refine ⟨row, ?_, hdecoded row hrow⟩
    rw [hs.rows]
    exact List.mem_append_left _ hrow
  · intro hnil
    have hdnil : decoded = [] := by
      rw [← List.length_eq_zero_iff, ← htakeLength, hnil]
      rfl
    have hlength := hs.decoded_length
    have hready := List.length_pos_of_mem hi
    rw [hdnil, List.length_nil] at hlength
    have hlimit : s.decodeLimit tokenBudget
        (!(s.ready .decode s.decodeCursor tick nowNs).isEmpty &&
          !(s.ready .prefill s.prefillCursor tick nowNs).isEmpty) = 0 := by omega
    rw [decodeLimit] at hlimit
    split_ifs at hlimit with hboth hone hprefill
    · refine ⟨?_, hprefill, hsingle.trans (if_pos ⟨hboth, hone⟩)⟩
      rw [hs.rows, hdnil, List.nil_append]
      intro row hrow
      simp [hprefilled row hrow]
    · omega
    · omega

/-- **A turn of prefill.** It is left out only for a single row that is decoding's. -/
theorem Schedule.turn_prefill {pd : Pending} {decoded : List BatchRow}
    {runs : List (List BatchRow)} (h : s.SchedulerInv) (hpos : 1 ≤ tokenBudget)
    (hpd : s'.pending = some pd)
    (hs : s.Schedule tick nowNs tokenBudget pd.batch s' decoded runs) {i : Fin 32}
    {r : RequestRecord} (hr : s.Retains i r) (hwaits : Waits .prefill tick nowNs r) :
    Turn s pd .prefill r.id := by
  have hi : i ∈ s.ready .prefill s.prefillCursor tick nowNs := mem_ready_iff.mpr ⟨r, hr, hwaits⟩
  have hslot : r.id.slot = i := by rw [h.id i r hr]
  obtain ⟨hdecoded, hprefilled⟩ := hs.phases
  obtain ⟨-, hcursor, hsingle⟩ := hs.installs hpd
  have htakeLength := hs.prefills.length_eq
  refine turn_of_taken hslot (s.ready_sorted .prefill s.prefillCursor tick nowNs) hi hcursor
    ?_ ?_ ?_
  · intro htaken
    obtain ⟨run, hmem, hrun⟩ := exists_of_forall₂ hs.prefills.flip htaken
    obtain ⟨row, hrow, hid⟩ := hrun.exists_row hr
    have hflat : row ∈ runs.flatten := List.mem_flatten.mpr ⟨run, hmem, hrow⟩
    refine ⟨row, ?_, hprefilled row hflat, hid⟩
    rw [hs.rows]
    exact List.mem_append_right _ hflat
  · intro hne
    obtain ⟨run, hmem⟩ := List.exists_mem_of_length_pos
      (htakeLength ▸ List.length_pos_iff.mpr hne)
    obtain ⟨j, -, hrun⟩ := exists_of_forall₂ hs.prefills hmem
    obtain ⟨row, hrow⟩ := List.exists_mem_of_ne_nil _ hrun.nonempty
    have hflat : row ∈ runs.flatten := List.mem_flatten.mpr ⟨run, hmem, hrow⟩
    refine ⟨row, ?_, hprefilled row hflat⟩
    rw [hs.rows]
    exact List.mem_append_right _ hflat
  · intro hnil
    have hrnil : runs = [] := by
      rw [← List.length_eq_zero_iff, ← htakeLength, hnil]
      rfl
    -- The request could use a row, so decoding has taken the whole budget.
    have hshare := promptShare_pos h hr hwaits.1
    have hsum := List.le_sum_of_mem (List.mem_map_of_mem (f := s.promptShare) hi)
    have hrows := congrArg List.length hs.rows
    rw [hs.length, hrnil, List.flatten_nil, List.append_nil] at hrows
    have hlength := hs.decoded_length
    have hlimit : tokenBudget ≤ s.decodeLimit tokenBudget
        (!(s.ready .decode s.decodeCursor tick nowNs).isEmpty &&
          !(s.ready .prefill s.prefillCursor tick nowNs).isEmpty) := by omega
    have hready : s.ready .decode s.decodeCursor tick nowNs ≠ [] := by
      rw [← List.length_pos_iff]
      omega
    have hboth : (!(s.ready .decode s.decodeCursor tick nowNs).isEmpty &&
        !(s.ready .prefill s.prefillCursor tick nowNs).isEmpty) = true := by
      rw [List.isEmpty_eq_false_iff.mpr hready,
        List.isEmpty_eq_false_iff.mpr (List.ne_nil_of_mem hi)]
      rfl
    rw [hboth, decodeLimit, if_pos rfl] at hlimit
    split_ifs at hlimit with hone hprefill
    · omega
    · refine ⟨?_, by simpa using hprefill, hsingle.trans (if_pos ⟨hboth, hone⟩)⟩
      rw [hs.rows, hrnil, List.flatten_nil, List.append_nil]
      intro row hrow
      simp [hdecoded row hrow]
    · omega

/-- **A turn.** Preparing has changed nothing that the turn depends on. -/
theorem Turned.turn {pd : Pending} (h : s.Turned pd) (hphase : phase = .decode ∨ phase = .prefill)
    {i : Fin 32} {r : RequestRecord} (hr : s.Retains i r)
    (hwaits : Waits phase pd.batch.tick pd.batch.preparedNs r) : Turn s pd phase r.id := by
  obtain ⟨s₀, tokenBudget, decoded, runs, hinv, hpos, hpd, hs⟩ := h
  have hr₀ : s₀.Retains i r := by
    have hslots : s.slots = s₀.slots := by rw [hs.eq]
    rwa [Retains, ← hslots]
  have hturn : Turn s₀ pd phase r.id := by
    rcases hphase with rfl | rfl
    · exact hs.turn_decode hinv hpos hpd hr₀ hwaits
    · exact hs.turn_prefill hinv hpos hpd hr₀ hwaits
  have hcursor : s.cursor phase = s₀.cursor phase := by
    rw [hs.eq]
    rfl
  have hsingle : s.singleRowPrefill = s₀.singleRowPrefill := by rw [hs.eq]
  cases hturn with
  | served hrow => exact .served hrow
  | closer hrow hdistance => exact .closer hrow (hcursor ▸ hdistance)
  | leftOut hnone hsame hleft hnext =>
    exact .leftOut hnone (hcursor ▸ hsame) (hsingle ▸ hleft) (hsingle ▸ hnext)

end Scheduler

open Scheduler

/-! ### Runs that record the completed batches -/

/-- A completed batch, and the scheduler before and after its completion. -/
structure Completed where
  before : Scheduler
  pending : Pending
  after : Scheduler

/-- A run and its completed batches, in order. -/
structure History where
  run : Run
  completed : List Completed

/-- What a call that led from one scheduler to another has completed. -/
def completedBy (before after : Scheduler) : Call → List Completed
  | .complete _ _ _ => before.pending.elim [] fun pd => [⟨before, pd, after⟩]
  | _ => []

/-- One call. -/
def History.call (w : History) (c : Call) : Outcome SchedulerError History := do
  let run ← w.run.call c
  return ⟨run, w.completed ++ completedBy w.run.scheduler run.scheduler c⟩

/-- The runs of the scheduler, with their completed batches. -/
def historySystem : System History Call where
  init w := runSystem.init w.run ∧ w.completed = []
  step w c w' := w.call c = .ok w' ∨ (∃ e, w.call c = .error e) ∧ w' = w

/-- The cursors and the alternation of a scheduler are those of another. -/
structure SameTurns (s s' : Scheduler) : Prop where
  decodeCursor : s'.decodeCursor = s.decodeCursor
  prefillCursor : s'.prefillCursor = s.prefillCursor
  singleRowPrefill : s'.singleRowPrefill = s.singleRowPrefill

theorem SameTurns.cursor {s s' : Scheduler} (h : SameTurns s s') (phase : RequestState) :
    s'.cursor phase = s.cursor phase := by
  rw [Scheduler.cursor, Scheduler.cursor, h.decodeCursor, h.prefillCursor]

theorem SameTurns.trans {s s' s'' : Scheduler} (h : SameTurns s s') (h' : SameTurns s' s'') :
    SameTurns s s'' :=
  ⟨h'.decodeCursor.trans h.decodeCursor, h'.prefillCursor.trans h.prefillCursor,
    h'.singleRowPrefill.trans h.singleRowPrefill⟩

/-- What holds of a completed batch. -/
structure Completed.Sound (c : Completed) : Prop where
  turned : c.before.Turned c.pending
  cursor : ∀ phase, c.after.cursor phase = c.pending.cursor phase
  singleRowPrefill : c.after.singleRowPrefill = c.pending.singleRowPrefill

/-- The invariant of a run and its completed batches: between two of them no turn has changed. -/
structure HistoryInv (w : History) : Prop where
  run : RunInv w.run
  outstanding : w.run.scheduler.poisoned = false → ∀ pd, w.run.scheduler.pending = some pd →
    w.run.scheduler.Turned pd
  sound : ∀ c ∈ w.completed, c.Sound
  chain : w.completed.IsChain fun a b => SameTurns a.after b.before
  last : ∀ c ∈ w.completed.getLast?, SameTurns c.after w.run.scheduler

/-- A prepared batch comes with its turn. -/
theorem turned_of_prepare {s s' : Scheduler} {tick nowNs tokenBudget : ℕ} {batch : ScheduledBatch}
    (h : s.SchedulerInv) (hp : s.prepare tick nowNs tokenBudget = .ok (some batch, s')) :
    SameTurns s s' ∧ ∀ pd, s'.pending = some pd → s'.Turned pd := by
  have hb : s.Scheduled tick nowNs tokenBudget batch s' :=
    ((prepare_ensures h).of_ok hp).2 batch rfl
  have hpos : 1 ≤ tokenBudget := by
    have hne := List.length_pos_iff.mpr hb.nonempty
    have hle := hb.length_le
    omega
  obtain ⟨-, hsome⟩ := (prepare_schedule h hb.idle ⟨hpos, hb.budget_le⟩).of_ok hp
  obtain ⟨decoded, runs, hs⟩ := hsome batch rfl
  have hs : s.Schedule tick nowNs tokenBudget batch s' decoded runs := hs
  refine ⟨⟨by rw [hs.eq], by rw [hs.eq], by rw [hs.eq]⟩, fun pd hpd => ?_⟩
  have hbatch : pd.batch = batch := by
    have hpending := hpd
    rw [hs.eq] at hpending
    exact (congrArg Pending.batch (Option.some.inj hpending)).symm
  obtain ⟨rfl, rfl⟩ := hs.stamps
  subst hbatch
  exact ⟨s, tokenBudget, decoded, runs, h, hpos, hpd, hs⟩

/-- Calls other than completions change no turn, and only preparing leaves a batch. -/
theorem turns_of_call {w w' : Run} {c : Call} (h : w.scheduler.SchedulerInv)
    (hc : w.call c = .ok w') (hother : ∀ batchId choices completedNs,
      c ≠ .complete batchId choices completedNs) :
    SameTurns w.scheduler w'.scheduler ∧ (w'.scheduler.poisoned = false → ∀ pd,
      w'.scheduler.pending = some pd → w'.scheduler.Turned pd) := by
  cases c with
  | admitRequest admission nowNs =>
    obtain ⟨⟨id, s⟩, hs, he⟩ := bind_eq_ok.mp hc
    obtain ⟨i, ha⟩ := admitRequest_ensures.of_ok hs
    obtain rfl := Except.ok.inj he
    have heq : s = _ := ha.eq
    dsimp only
    rw [heq]
    refine ⟨⟨rfl, rfl, rfl⟩, fun _ pd hpd => ?_⟩
    cases hpd.symm.trans ha.idle.2
  | prepare tick nowNs tokenBudget =>
    obtain ⟨⟨batch, s⟩, hs, he⟩ := bind_eq_ok.mp hc
    obtain rfl := Except.ok.inj he
    cases batch with
    | none =>
      obtain ⟨hidle, -, heq⟩ := ((prepare_ensures h).of_ok hs).1 rfl
      dsimp only at heq ⊢
      rw [heq]
      refine ⟨⟨rfl, rfl, rfl⟩, fun _ pd hpd => ?_⟩
      cases hpd.symm.trans hidle.2
    | some batch =>
      obtain ⟨hsame, hturned⟩ := turned_of_prepare h hs
      exact ⟨hsame, fun _ => hturned⟩
  | complete batchId choices completedNs => exact absurd rfl (hother batchId choices completedNs)
  | abort batchId =>
    obtain ⟨s, hs, he⟩ := bind_eq_ok.mp hc
    obtain ⟨-, rfl⟩ := abort_ensures.of_ok hs
    obtain rfl := Except.ok.inj he
    exact ⟨⟨rfl, rfl, rfl⟩, fun _ pd hpd => by cases hpd⟩
  | fail batchId =>
    obtain ⟨s, hs, he⟩ := bind_eq_ok.mp hc
    obtain ⟨-, rfl⟩ := fail_ensures.of_ok hs
    obtain rfl := Except.ok.inj he
    exact ⟨⟨rfl, rfl, rfl⟩, fun hp => by cases hp⟩
  | cancel id nowNs =>
    obtain ⟨s, hs, he⟩ := bind_eq_ok.mp hc
    obtain ⟨i, r, hidle, -, -, -, -, rfl⟩ := cancel_ensures.of_ok hs
    obtain rfl := Except.ok.inj he
    refine ⟨⟨rfl, rfl, rfl⟩, fun _ pd hpd => ?_⟩
    cases hpd.symm.trans hidle.2
  | retire id =>
    obtain ⟨⟨r, s⟩, hs, he⟩ := bind_eq_ok.mp hc
    obtain ⟨i, hidle, -, -, -, heq⟩ := (retire_ensures h).of_ok hs
    obtain rfl := Except.ok.inj he
    dsimp only at heq ⊢
    rw [heq]
    refine ⟨⟨rfl, rfl, rfl⟩, fun _ pd hpd => ?_⟩
    cases hpd.symm.trans hidle.2

/-- A completion installs the turns of its batch. -/
theorem sound_of_complete {w w' : Run} {batchId completedNs : ℕ} {choices : List RowChoice}
    (h : w.scheduler.SchedulerInv)
    (hturned : w.scheduler.poisoned = false → ∀ pd, w.scheduler.pending = some pd →
      w.scheduler.Turned pd)
    (hc : w.call (.complete batchId choices completedNs) = .ok w') :
    w'.scheduler.pending = none ∧ ∃ pd, w.scheduler.pending = some pd ∧
      Completed.Sound ⟨w.scheduler, pd, w'.scheduler⟩ := by
  obtain ⟨⟨events, s⟩, hs, he⟩ := bind_eq_ok.mp hc
  obtain ⟨pd, advances, ho, -, -, heq⟩ := (complete_ensures h).of_ok hs
  obtain rfl := Except.ok.inj he
  dsimp only at heq ⊢
  rw [heq]
  exact ⟨rfl, pd, ho.pending, hturned ho.poisoned pd ho.pending, fun _ => rfl, rfl⟩

/-- **One call.** -/
theorem HistoryInv.call {w w' : History} {c : Call} (h : HistoryInv w)
    (hc : w.run.call c = .ok w'.run)
    (hlog : w'.completed = w.completed ++ completedBy w.run.scheduler w'.run.scheduler c) :
    HistoryInv w' := by
  by_cases hcomplete : ∃ batchId choices completedNs, c = .complete batchId choices completedNs
  · obtain ⟨batchId, choices, completedNs, rfl⟩ := hcomplete
    obtain ⟨hnone, pd, hpd, hsound⟩ := sound_of_complete h.run.scheduler h.outstanding hc
    have hentry : w'.completed = w.completed ++ [⟨w.run.scheduler, pd, w'.run.scheduler⟩] := by
      rw [hlog, completedBy, hpd]
      rfl
    refine ⟨h.run.call hc, fun _ pd' hpd' => ?_, ?_, ?_, ?_⟩
    · cases hpd'.symm.trans hnone
    · intro c hmem
      rw [hentry] at hmem
      rcases List.mem_append.mp hmem with hmem | hmem
      · exact h.sound c hmem
      · exact List.mem_singleton.mp hmem ▸ hsound
    · rw [hentry]
      refine List.isChain_append.mpr ⟨h.chain, List.isChain_singleton _, fun a ha b hb => ?_⟩
      obtain rfl := Option.some.inj (show some _ = some b from hb)
      exact h.last a ha
    · intro c hmem
      rw [hentry, List.getLast?_concat] at hmem
      obtain rfl := Option.some.inj hmem
      exact ⟨rfl, rfl, rfl⟩
  · have hother : ∀ batchId choices completedNs, c ≠ .complete batchId choices completedNs :=
      fun batchId choices completedNs he => hcomplete ⟨batchId, choices, completedNs, he⟩
    obtain ⟨hsame, hturned⟩ := turns_of_call h.run.scheduler hc hother
    have hentry : w'.completed = w.completed := by
      rw [hlog]
      cases c with
      | complete batchId choices completedNs =>
        exact absurd rfl (hother batchId choices completedNs)
      | _ => exact List.append_nil _
    refine ⟨h.run.call hc, hturned, ?_, ?_, ?_⟩
    · rw [hentry]
      exact h.sound
    · rw [hentry]
      exact h.chain
    · rw [hentry]
      exact fun c hmem => (h.last c hmem).trans hsame

theorem historyInv_of_reachable {w : History} (h : historySystem.Reachable w) : HistoryInv w := by
  refine System.Reachable.induction (S := historySystem) (I := HistoryInv) ?_ ?_ h
  · rintro w ⟨hinit, hnil⟩
    have hrun : RunInv w.run := runInv_of_reachable (.init hinit)
    obtain ⟨-, -, v, c, m, p, hnew⟩ := hinit
    have hpending : w.run.scheduler.pending = none := by
      rcases hnew with hnew | hnew <;>
      · obtain ⟨⟨⟩, -, he⟩ := bind_eq_ok.mp hnew
        exact (congrArg Scheduler.pending (Except.ok.inj he)).symm
    refine ⟨hrun, fun _ pd hpd => ?_, by simp [hnil], by simp [hnil], by simp [hnil]⟩
    cases hpd.symm.trans hpending
  · rintro w c w' - hw (hcall | ⟨-, rfl⟩)
    · obtain ⟨run, hrun, he⟩ := bind_eq_ok.mp hcall
      obtain rfl := Except.ok.inj he
      exact hw.call hrun rfl
    · exact hw

/-! ### Bypass -/

/-- The request waits in a phase when the batch is prepared. -/
def Completed.Waiting (c : Completed) (phase : RequestState) (id : RequestId) : Prop :=
  ∃ i r, c.before.Retains i r ∧ r.id = id ∧
    Waits phase c.pending.batch.tick c.pending.batch.preparedNs r

/-- The batch has a row of the request. -/
def Completed.Serves (c : Completed) (id : RequestId) : Prop :=
  ∃ row ∈ c.pending.batch.rows, row.request = id

/-- The batch has a row of the phase. -/
def Completed.Advances (c : Completed) (phase : RequestState) : Prop :=
  ∃ row ∈ c.pending.batch.rows, row.phase = phase

/-- How often a request can still be passed over: twice for every slot between the cursor and its
own, and once if the next single row is not for its phase. -/
def debt (s : Scheduler) (phase : RequestState) (slot : ℕ) : ℕ :=
  2 * distance (s.cursor phase) slot +
    if s.singleRowPrefill = decide (phase = .decode) then 1 else 0

theorem debt_le (s : Scheduler) (phase : RequestState) (slot : ℕ) : debt s phase slot ≤ 63 := by
  have hle := distance_le (s.cursor phase) slot
  rw [debt]
  split <;> omega

theorem SameTurns.debt {s s' : Scheduler} (h : SameTurns s s') (phase : RequestState) (slot : ℕ) :
    debt s' phase slot = debt s phase slot := by
  rw [TpScheduler.debt, TpScheduler.debt, h.cursor, h.singleRowPrefill]

variable {c : Completed} {phase : RequestState} {id : RequestId}

theorem Completed.Sound.turn (h : c.Sound) (hphase : phase = .decode ∨ phase = .prefill)
    (hwaits : c.Waiting phase id) : Turn c.before c.pending phase id := by
  obtain ⟨i, r, hr, rfl, hw⟩ := hwaits
  exact h.turned.turn hphase hr hw

/-- A batch that passes a request over reduces its debt. -/
theorem Completed.Sound.debt_lt (h : c.Sound) (hphase : phase = .decode ∨ phase = .prefill)
    (hwaits : c.Waiting phase id) (hpassed : ¬ c.Serves id) :
    debt c.after phase id.slot < debt c.before phase id.slot := by
  rw [debt, debt, h.cursor, h.singleRowPrefill]
  cases h.turn hphase hwaits with
  | served hrow =>
    obtain ⟨row, hrow, -, hid⟩ := hrow
    exact absurd ⟨row, hrow, hid⟩ hpassed
  | closer hrow hdistance => split_ifs <;> omega
  | leftOut hnone hcursor hsingle hnext =>
    rw [hcursor, if_pos hsingle, if_neg]
    · omega
    · rw [hnext, hsingle]
      simp

/-- **Passing over.** A window of batches that all pass a request over is no longer than the debt
before it. -/
theorem length_le_debt {window : List Completed} {first : Completed}
    (hsound : ∀ c ∈ window, c.Sound)
    (hchain : window.IsChain fun a b => SameTurns a.after b.before)
    (hphase : phase = .decode ∨ phase = .prefill) (hwaits : ∀ c ∈ window, c.Waiting phase id)
    (hpassed : ∀ c ∈ window, ¬ c.Serves id) (hfirst : window.head? = some first) :
    window.length ≤ debt first.before phase id.slot := by
  induction window generalizing first with
  | nil => cases hfirst
  | cons c window ih =>
    obtain rfl := Option.some.inj hfirst
    have hlt := (hsound c List.mem_cons_self).debt_lt hphase (hwaits c List.mem_cons_self)
      (hpassed c List.mem_cons_self)
    cases window with
    | nil =>
      rw [List.length_singleton]
      omega
    | cons next window =>
      obtain ⟨hsame, hchain⟩ := List.isChain_cons_cons.mp hchain
      have hrest := ih (fun c hc => hsound c (.tail _ hc)) hchain
        (fun c hc => hwaits c (.tail _ hc))
        (fun c hc => hpassed c (.tail _ hc)) rfl
      rw [hsame.debt] at hrest
      rw [List.length_cons]
      omega

/-- **Bounded bypass.** In every run, whatever the budgets are and whoever is admitted, aborted,
cancelled or retired between them: a request that waits in one phase at sixty-four consecutive
completed batches has a row in one of them. Each of them that has rows of the phase but none of the
request brings it closer to the cursor of the phase, and two consecutive ones do not both leave out
a phase that is ready. -/
theorem bounded_bypass {w : History} (h : historySystem.Reachable w)
    (hphase : phase = .decode ∨ phase = .prefill) {window : List Completed}
    (hwindow : window <:+: w.completed) (hwaits : ∀ c ∈ window, c.Waiting phase id) :
    (64 ≤ window.length → ∃ c ∈ window, c.Serves id) ∧
    (∀ c ∈ window, c.Advances phase → ¬ c.Serves id →
      distance (c.after.cursor phase) id.slot < distance (c.before.cursor phase) id.slot) ∧
    ∀ a b idA idB, [a, b] <:+: w.completed → a.Waiting phase idA → b.Waiting phase idB →
      a.Advances phase ∨ b.Advances phase := by
  have hinv := historyInv_of_reachable h
  have hsound : ∀ c ∈ window, c.Sound := fun c hc => hinv.sound c (hwindow.subset hc)
  refine ⟨fun hlength => ?_, fun c hc hadvances hpassed => ?_, ?_⟩
  · by_contra hnone
    have hpassed : ∀ c ∈ window, ¬ c.Serves id := fun c hc hs => hnone ⟨c, hc, hs⟩
    cases hw : window.head? with
    | none =>
      rw [List.head?_eq_none_iff.mp hw] at hlength
      cases hlength
    | some first =>
      have hchain := List.IsChain.infix hinv.chain hwindow
      have hle := length_le_debt hsound hchain hphase hwaits hpassed hw
      have hmax := debt_le first.before phase id.slot
      omega
  · rw [(hsound c hc).cursor]
    cases (hsound c hc).turn hphase (hwaits c hc) with
    | served hrow =>
      obtain ⟨row, hrow, -, hid⟩ := hrow
      exact absurd ⟨row, hrow, hid⟩ hpassed
    | closer hrow hdistance => exact hdistance
    | leftOut hnone =>
      obtain ⟨row, hrow, hrowPhase⟩ := hadvances
      exact absurd hrowPhase (hnone row hrow)
  · intro a b idA idB hpair ha hb
    have hchain := List.IsChain.infix hinv.chain hpair
    have hsame : SameTurns a.after b.before := (List.isChain_cons_cons.mp hchain).1
    have hsoundA := hinv.sound a (hpair.subset (by simp))
    have hsoundB := hinv.sound b (hpair.subset (by simp))
    cases hsoundA.turn hphase ha with
    | served hrow =>
      obtain ⟨row, hrow, hrowPhase, -⟩ := hrow
      exact .inl ⟨row, hrow, hrowPhase⟩
    | closer hrow hdistance => exact .inl hrow
    | leftOut hnone hcursor hsingle hnext =>
      right
      cases hsoundB.turn hphase hb with
      | served hrow =>
        obtain ⟨row, hrow, hrowPhase, -⟩ := hrow
        exact ⟨row, hrow, hrowPhase⟩
      | closer hrow hdistance => exact hrow
      | leftOut hnone' hcursor' hsingle' hnext' =>
        rw [hsame.singleRowPrefill, hsoundA.singleRowPrefill, hnext, hsingle] at hsingle'
        simp at hsingle'

/-- A request of three prompt tokens, two batches of which are completed. -/
def passedRun : Outcome SchedulerError History := do
  let s ← new 100 64 4 1
  [Call.admitRequest ⟨[5, 6, 7], 2, 0, 0, 0⟩ 1, .prepare 1 2 4, .complete 1 [] 3, .prepare 1 4 1,
    .abort 2, .prepare 1 4 1, .complete 3 [] 5].foldlM History.call ⟨⟨s, [], []⟩, []⟩

theorem reachable_of_history {w w' : History} {cs : List Call} (h : historySystem.Reachable w)
    (hr : cs.foldlM History.call w = .ok w') : historySystem.Reachable w' := by
  induction cs generalizing w with
  | nil => exact Except.ok.inj hr ▸ h
  | cons c cs ih =>
    rw [List.foldlM_cons] at hr
    obtain ⟨w₁, hc, hr⟩ := bind_eq_ok.mp hr
    exact ih (.step (a := c) h (.inl hc)) hr

/-- There the request waits at both, and the theorem speaks of the two of them. -/
theorem bounded_bypass_passedRun :
    ∃ w, historySystem.Reachable w ∧ w.completed.length = 2 ∧
      ∀ c ∈ w.completed, c.Advances .prefill → ¬ c.Serves ⟨0, 1⟩ →
        distance (c.after.cursor .prefill) 0 < distance (c.before.cursor .prefill) 0 := by
  have hstate : passedRun.map (fun w => (w.completed.length, w.completed.all fun c =>
      (c.before.slots 0).request.any fun r => r.id = ⟨0, 1⟩ ∧
        Waits .prefill c.pending.batch.tick c.pending.batch.preparedNs r)) = .ok (2, true) := by rfl
  cases hr : passedRun with
  | error e => simp [hr, Except.map] at hstate
  | ok w =>
    simp only [hr, Except.map, Except.ok.injEq, Prod.mk.injEq] at hstate
    obtain ⟨hlength, hall⟩ := hstate
    obtain ⟨s, hs, hcalls⟩ := bind_eq_ok.mp hr
    have hreach : historySystem.Reachable w :=
      reachable_of_history (.init ⟨⟨rfl, rfl, 100, 64, 4, 1, .inl hs⟩, rfl⟩) hcalls
    have hwaits : ∀ c ∈ w.completed, c.Waiting .prefill ⟨0, 1⟩ := by
      intro c hc
      have hany := List.all_eq_true.mp hall c hc
      cases hrequest : (c.before.slots 0).request with
      | none => simp [hrequest] at hany
      | some r =>
        rw [hrequest, Option.any_some, decide_eq_true_iff] at hany
        exact ⟨0, r, hrequest, hany.1, hany.2⟩
    exact ⟨w, hreach, hlength,
      (bounded_bypass hreach (.inr rfl) (List.infix_refl w.completed) hwaits).2.1⟩

end TpScheduler

end Ferric
