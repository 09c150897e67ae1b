import Ferric.Lib.Lists
import Ferric.TpScheduler.Model

/-!
# What the scheduler keeps

The invariant of a scheduler, record by record, and what the rows of an outstanding batch have to
do with the records. A request contributes to a batch one contiguous run of rows that starts at its
committed position; every row of the run carries the token of its position, taken from the prompt
followed by the tokens generated so far, and the kind that its position implies.

## Main definitions

* `kindAt`, `RowAt` — the row of a position
* `Selected` — the rows of one request in a batch
* `RecordInv`, `SchedulerInv` — the invariant

## Main results

* `prepare_ensures` — a prepared batch consists of selected rows
* `count_outputs` — a run publishes at most one choice, at its end
-/

namespace Ferric

namespace TpScheduler

/-- The kind of a row at a position, for a prompt of some length. -/
def kindAt (promptLen position : ℕ) : RowKind :=
  if position + 1 < promptLen then .prefillIntermediate
  else if position + 1 = promptLen then .prefillFinal
  else .decode

theorem kindAt_eq_intermediate {promptLen position : ℕ} :
    kindAt promptLen position = .prefillIntermediate ↔ position + 1 < promptLen := by
  rw [kindAt]
  split
  · simpa
  · split <;> simp <;> omega

theorem kindAt_eq_final {promptLen position : ℕ} :
    kindAt promptLen position = .prefillFinal ↔ position + 1 = promptLen := by
  rw [kindAt]
  split
  · simp
    omega
  · split <;> simp <;> omega

theorem kindAt_eq_decode {promptLen position : ℕ} :
    kindAt promptLen position = .decode ↔ promptLen ≤ position := by
  rw [kindAt]
  split
  · simp
    omega
  · split <;> simp <;> omega

/-- The row carries the token and the kind of its position in the request's stream. -/
structure RowAt (r : RequestRecord) (row : BatchRow) : Prop where
  request : row.request = r.id
  token : (r.promptTokens ++ r.generatedTokens)[row.absolutePosition]? = some row.tokenId
  kind : row.kind = kindAt r.promptTokens.length row.absolutePosition

/-- The rows of one request in a batch: a run from the committed position, inside the prompt or of
one generated token. -/
structure Selected (r : RequestRecord) (rows : List BatchRow) : Prop where
  positions : rows.map (·.absolutePosition) = List.range' r.committedPosition rows.length
  rowAt : ∀ row ∈ rows, RowAt r row
  phase : rows ≠ [] →
    (r.state = .prefill ∧ r.committedPosition + rows.length ≤ r.promptTokens.length) ∨
      (r.state = .decode ∧ rows.length = 1)

theorem Selected.nil (r : RequestRecord) : Selected r [] where
  positions := rfl
  rowAt := by simp
  phase h := absurd rfl h

/-- The invariant of a record. -/
structure RecordInv (contextLimit lastTimeNs : ℕ) (r : RequestRecord) : Prop where
  cached_lt : r.cachedPrefixTokens < r.promptTokens.length
  max_pos : 0 < r.maxNewTokens
  fits : r.promptTokens.length + r.maxNewTokens ≤ contextLimit + 1
  /-- Before the first output the prompt is not exhausted. -/
  waiting : r.generatedTokens = [] → r.committedPosition < r.promptTokens.length
  /-- After it, all but the last generated token have been consumed. -/
  produced : r.generatedTokens ≠ [] →
    r.committedPosition + 1 = r.promptTokens.length + r.generatedTokens.length
  generated_le : r.generatedTokens.length ≤ r.maxNewTokens
  stamps_length : r.outputTimestampsNs.length = r.generatedTokens.length
  stamps_sorted : r.outputTimestampsNs.Pairwise (· ≤ ·)
  stamps_le : ∀ t ∈ r.outputTimestampsNs, t ≤ lastTimeNs

section Record

variable {contextLimit lastTimeNs : ℕ} {r : RequestRecord} {rows : List BatchRow}

theorem RecordInv.mono {lastTimeNs' : ℕ} (h : RecordInv contextLimit lastTimeNs r)
    (hle : lastTimeNs ≤ lastTimeNs') : RecordInv contextLimit lastTimeNs' r :=
  { h with stamps_le := fun t ht => (h.stamps_le t ht).trans hle }

theorem state_eq_decode (h : r.state = .decode) :
    r.generatedTokens.length ≠ r.maxNewTokens ∧ r.promptTokens.length ≤ r.committedPosition := by
  rw [RequestRecord.state] at h
  split at h
  · simp at h
  · split at h
    · simp at h
    · next hne =>
      split at h
      · simp at h
      · next hge => exact ⟨hne, Nat.not_lt.mp hge⟩

theorem state_eq_prefill (h : r.state = .prefill) :
    r.generatedTokens.length ≠ r.maxNewTokens ∧ r.committedPosition < r.promptTokens.length := by
  rw [RequestRecord.state] at h
  split at h
  · simp at h
  · split at h
    · simp at h
    · next hne =>
      split at h
      · next hlt => exact ⟨hne, hlt⟩
      · simp at h

theorem state_eq_completed (h : r.state = .completed) :
    r.generatedTokens.length = r.maxNewTokens := by
  rw [RequestRecord.state] at h
  split at h
  · simp at h
  · split at h
    · next heq => exact heq
    · split at h <;> simp at h

/-- A request in prefill has published nothing. -/
theorem RecordInv.nil_of_prefill (h : RecordInv contextLimit lastTimeNs r)
    (hlt : r.committedPosition < r.promptTokens.length) : r.generatedTokens = [] := by
  by_contra hne
  have hprod := h.produced hne
  have := List.length_pos_iff.mpr hne
  omega

/-- A request that decodes has published something. -/
theorem RecordInv.ne_nil_of_decode (h : RecordInv contextLimit lastTimeNs r)
    (hge : r.promptTokens.length ≤ r.committedPosition) : r.generatedTokens ≠ [] := by
  intro hnil
  have := h.waiting hnil
  omega

/-- The last generated token stands at the committed position. -/
theorem RecordInv.last_token (h : RecordInv contextLimit lastTimeNs r)
    (hge : r.promptTokens.length ≤ r.committedPosition) :
    (r.promptTokens ++ r.generatedTokens)[r.committedPosition]? = r.generatedTokens.getLast? := by
  have hne := h.ne_nil_of_decode hge
  have hprod := h.produced hne
  rw [List.getElem?_append_right hge, List.getLast?_eq_getElem?]
  congr 1
  omega

/-- How many positions of a run are at or beyond the end of the prompt. -/
theorem countP_range' (promptLen start n : ℕ) :
    (List.range' start n).countP (fun p => promptLen ≤ p + 1) =
      min n (start + n + 1 - promptLen) := by
  induction n with
  | zero => simp
  | succ n ih =>
    rw [List.range'_concat, List.countP_append, ih, List.countP_singleton]
    simp only [Nat.one_mul, decide_eq_true_eq]
    split <;> omega

/-- The rows of a batch that publish a choice. -/
def publishes (row : BatchRow) : Bool := row.kind ≠ .prefillIntermediate

theorem RowAt.publishes_iff {row : BatchRow} (h : RowAt r row) :
    publishes row = true ↔ r.promptTokens.length ≤ row.absolutePosition + 1 := by
  rw [publishes, decide_eq_true_iff, ne_eq, h.kind, kindAt_eq_intermediate]
  omega

/-- **Outputs of a run.** It publishes one choice if it reaches the end of the prompt, and none
otherwise. -/
theorem Selected.count_outputs (hs : Selected r rows) :
    rows.countP publishes =
      if rows ≠ [] ∧ r.promptTokens.length ≤ r.committedPosition + rows.length then 1 else 0 := by
  have hcount : rows.countP publishes =
      (rows.map (·.absolutePosition)).countP (fun p => r.promptTokens.length ≤ p + 1) := by
    rw [List.countP_map]
    refine List.countP_congr fun row hrow => ?_
    simpa using (hs.rowAt row hrow).publishes_iff
  rw [hcount, hs.positions, countP_range']
  by_cases hnil : rows = []
  · simp [hnil]
  have hpos := List.length_pos_iff.mpr hnil
  rcases hs.phase hnil with ⟨-, hle⟩ | ⟨hdecode, hone⟩
  · by_cases hend : r.promptTokens.length ≤ r.committedPosition + rows.length
    · rw [if_pos ⟨hnil, hend⟩]
      omega
    · rw [if_neg fun h => hend h.2]
      omega
  · have := (state_eq_decode hdecode).2
    rw [if_pos ⟨hnil, by omega⟩]
    omega

end Record

/-! ### The scheduler -/

/-- The rows of one request. -/
def rowsOf (id : RequestId) (rows : List BatchRow) : List BatchRow :=
  rows.filter fun row => row.request = id

@[simp] theorem rowsOf_nil {id : RequestId} : rowsOf id [] = [] := rfl

theorem rowsOf_append {id : RequestId} {a b : List BatchRow} :
    rowsOf id (a ++ b) = rowsOf id a ++ rowsOf id b :=
  List.filter_append ..

theorem rowsOf_cons_self {id : RequestId} {rows : List BatchRow} {row : BatchRow}
    (h : row.request = id) : rowsOf id (row :: rows) = row :: rowsOf id rows := by
  simp [rowsOf, h]

theorem mem_rowsOf {id : RequestId} {rows : List BatchRow} {row : BatchRow} :
    row ∈ rowsOf id rows ↔ row ∈ rows ∧ row.request = id := by
  simp [rowsOf]

theorem rowsOf_eq_self {id : RequestId} {rows : List BatchRow}
    (h : ∀ row ∈ rows, row.request = id) : rowsOf id rows = rows := by
  rw [rowsOf, List.filter_eq_self]
  simpa using h

theorem rowsOf_eq_nil {id : RequestId} {rows : List BatchRow}
    (h : ∀ row ∈ rows, row.request ≠ id) : rowsOf id rows = [] := by
  rw [rowsOf, List.filter_eq_nil_iff]
  simpa using h

namespace Scheduler

/-- Slot `i` retains request `r`. -/
def Retains (s : Scheduler) (i : Fin 32) (r : RequestRecord) : Prop := (s.slots i).request = some r

/-- The rows of a batch are selected from the retained requests. -/
structure Batched (s : Scheduler) (rows : List BatchRow) : Prop where
  known : ∀ row ∈ rows, ∃ i r, s.Retains i r ∧ row.request = r.id
  selected : ∀ i r, s.Retains i r → Selected r (rowsOf r.id rows)

/-- The invariant of a scheduler. -/
structure SchedulerInv (s : Scheduler) : Prop where
  context_le : s.contextLimit ≤ 8192
  chunk_pos : 0 < s.prefillChunk
  maxRows_le : s.maxRows ≤ 32
  id : ∀ i r, s.Retains i r → r.id = ⟨i, (s.slots i).generation⟩
  record : ∀ i r, s.Retains i r → RecordInv s.contextLimit s.lastTimeNs r
  batched : ∀ pd, s.pending = some pd → s.Batched pd.batch.rows
  preparedNs : ∀ pd, s.pending = some pd → pd.batch.preparedNs = s.lastTimeNs
  pending_ne : ∀ pd, s.pending = some pd → pd.batch.rows ≠ []

/-- Neither poisoned nor waiting for a batch. -/
def Idle (s : Scheduler) : Prop := s.poisoned = false ∧ s.pending = none

variable {s : Scheduler}

theorem requireIdle_ensures : Ensures s.requireIdle (fun _ => ¬ s.Idle) fun _ => s.Idle := by
  rw [requireIdle]
  refine (ensures_failIf (Q := fun _ => s.poisoned = false) (fun h => ?_) fun h => ?_).bind
    fun _ _ hp => ensures_failIf (fun h => ?_) fun h => ?_
  · intro hi
    simp [hi.1] at h
  · simpa using h
  · intro hi
    simp [hi.2] at h
  · exact ⟨hp, by simpa using h⟩

/-- Distinct slots retain distinct identities. -/
theorem SchedulerInv.slot_inj (h : s.SchedulerInv) {i j : Fin 32} {r q : RequestRecord}
    (hr : s.Retains i r) (hq : s.Retains j q) (hid : r.id = q.id) : i = j := by
  have hslot := congrArg RequestId.slot hid
  rw [h.id i r hr, h.id j q hq] at hslot
  exact Fin.ext hslot

theorem slotIndex_val (i : Fin 32) : slotIndex i = some i := by
  rw [slotIndex, dif_pos i.isLt]

/-- Looking a retained request up. -/
theorem SchedulerInv.request_eq (h : s.SchedulerInv) {i : Fin 32} {r : RequestRecord}
    (hr : s.Retains i r) : s.request r.id = .ok r := by
  have hslot : r.id.slot = i := by rw [h.id i r hr]
  rw [request, hslot, slotIndex_val, Option.bind_some, hr, Option.filter_some,
    if_pos (by simp), orErr]

/-- What a lookup finds is retained, in the slot of its identity. -/
theorem request_ensures {id : RequestId} :
    Ensures (s.request id) (fun _ => ∀ i r, s.Retains i r → r.id = id → (i : ℕ) ≠ id.slot)
      fun r => r.id = id ∧ ∃ i : Fin 32, (i : ℕ) = id.slot ∧ s.Retains i r := by
  rw [request]
  refine ensures_orErr (fun hnone => ?_) fun r hr => ?_
  · intro i r hr hid hslot
    rw [← hslot, slotIndex_val, Option.bind_some, hr, Option.filter_some,
      if_pos (by simpa)] at hnone
    simp at hnone
  · obtain ⟨hr, hid⟩ := Option.filter_eq_some_iff.mp hr
    obtain ⟨i, hi, hr⟩ := Option.bind_eq_some_iff.mp hr
    refine ⟨by simpa using hid, i, ?_, hr⟩
    rw [slotIndex] at hi
    split at hi
    · exact (congrArg Fin.val (Option.some.inj hi)).symm
    · simp at hi

/-! ### Preparing -/

/-- Rows gathered so far, from the slots visited so far. -/
structure Gathered (s : Scheduler) (done : List (Fin 32)) (rows : List BatchRow) : Prop where
  known : ∀ row ∈ rows, ∃ i ∈ done, ∃ r, s.Retains i r ∧ row.request = r.id
  selected : ∀ i r, s.Retains i r → Selected r (rowsOf r.id rows)

theorem Gathered.nil (s : Scheduler) : s.Gathered [] [] where
  known := by simp
  selected i r _ := Selected.nil r

/-- The run of one more slot. -/
theorem Gathered.append (h : s.SchedulerInv) {done : List (Fin 32)} {rows run : List BatchRow}
    {i : Fin 32} {r : RequestRecord} (hg : s.Gathered done rows) (hi : i ∉ done)
    (hr : s.Retains i r) (hrun : Selected r run) : s.Gathered (done ++ [i]) (rows ++ run) where
  known row hrow := by
    rcases List.mem_append.mp hrow with hrow | hrow
    · obtain ⟨j, hj, q, hq, hid⟩ := hg.known row hrow
      exact ⟨j, List.mem_append_left _ hj, q, hq, hid⟩
    · exact ⟨i, by simp, r, hr, (hrun.rowAt row hrow).request⟩
  selected j q hq := by
    rw [rowsOf_append]
    by_cases hij : i = j
    · subst hij
      obtain rfl : r = q := Option.some.inj (hr.symm.trans hq)
      have hold : rowsOf r.id rows = [] := by
        refine rowsOf_eq_nil fun row hrow hid => ?_
        obtain ⟨k, hk, q, hq, hid'⟩ := hg.known row hrow
        obtain rfl := h.slot_inj hr hq (hid.symm.trans hid')
        exact hi hk
      rw [hold, List.nil_append, rowsOf_eq_self fun row hrow => (hrun.rowAt row hrow).request]
      exact hrun
    · have hnew : rowsOf q.id run = [] := by
        refine rowsOf_eq_nil fun row hrow hid => hij ?_
        exact h.slot_inj hr hq ((hrun.rowAt row hrow).request.symm.trans hid)
      rw [hnew, List.append_nil]
      exact hg.selected j q hq

theorem Gathered.batched {done : List (Fin 32)} {rows : List BatchRow}
    (hg : s.Gathered done rows) : s.Batched rows where
  known row hrow := by
    obtain ⟨i, -, r, hr, hid⟩ := hg.known row hrow
    exact ⟨i, r, hr, hid⟩
  selected := hg.selected

/-- The rotation visits every slot once. -/
theorem nodup_ready {state : RequestState} {cursor tick nowNs : ℕ} :
    (s.ready state cursor tick nowNs).Nodup := by
  refine List.Nodup.filter _ (List.Nodup.map_on ?_ List.nodup_range)
  intro a ha b hb hab
  have hval := congrArg Fin.val hab
  simp only [Fin.ofNat, List.mem_range] at hval ha hb
  omega

theorem mem_ready {state : RequestState} {cursor tick nowNs : ℕ} {i : Fin 32}
    (h : i ∈ s.ready state cursor tick nowNs) : ∃ r, s.Retains i r ∧ r.state = state := by
  have hany := (List.mem_filter.mp h).2
  cases hr : (s.slots i).request with
  | none => simp [hr] at hany
  | some r =>
    simp only [hr, Option.any_some, decide_eq_true_eq] at hany
    exact ⟨r, hr, hany.1⟩

/-- The row of a request that decodes. -/
theorem decodeRow_ensures {E : SchedulerError → Prop} (h : s.SchedulerInv) {i : Fin 32}
    {r : RequestRecord} (hr : s.Retains i r) (hstate : r.state = .decode) :
    Ensures (s.decodeRow i) E fun row => Selected r [row] := by
  have hge := (state_eq_decode hstate).2
  have hlast := (h.record i r hr).last_token hge
  obtain ⟨token, htoken⟩ : ∃ token, r.generatedTokens.getLast? = some token :=
    ⟨_, List.getLast?_eq_some_getLast ((h.record i r hr).ne_nil_of_decode hge)⟩
  rw [decodeRow, hr, orErr, ok_bind, htoken, orErr, ok_bind]
  refine ensures_pure.mpr ⟨rfl, ?_, fun _ => .inr ⟨hstate, rfl⟩⟩
  rw [List.forall_mem_singleton]
  exact ⟨rfl, hlast.trans htoken, (kindAt_eq_decode.mpr hge).symm⟩

/-- The decode rows of a batch. -/
theorem decodeRows_gathered (h : s.SchedulerInv) {slots done : List (Fin 32)}
    {rows decoded : List BatchRow} (hnd : (done ++ slots).Nodup) (hg : s.Gathered done rows)
    (hrows : List.Forall₂ (fun i row => ∃ r, s.Retains i r ∧ Selected r [row]) slots decoded) :
    s.Gathered (done ++ slots) (rows ++ decoded) := by
  induction hrows generalizing done rows with
  | nil => simpa using hg
  | @cons i row slots decoded hrow _ ih =>
    obtain ⟨r, hr, hsel⟩ := hrow
    have hi : i ∉ done := fun hi => (List.nodup_append.mp hnd).2.2 i hi i List.mem_cons_self rfl
    have hstep := ih (by simpa using hnd) (hg.append h hi hr hsel)
    simpa using hstep

/-- A run of prompt rows. -/
theorem prefillRows_ensures {E : SchedulerError → Prop} (h : s.SchedulerInv) {i : Fin 32}
    {r : RequestRecord} (hr : s.Retains i r) (hstate : r.state = .prefill) {n : ℕ}
    (hn : r.committedPosition + n ≤ r.promptTokens.length) :
    Ensures ((List.range' r.committedPosition n).mapM (prefillRow r)) E fun run =>
      Selected r run ∧ run.length = n := by
  have hinv := h.record i r hr
  refine (ensures_mapM (R := fun position row =>
    row.absolutePosition = position ∧ RowAt r row) fun position hmem => ?_).mono (fun _ h => h)
    fun run _ hall => ?_
  · rw [List.mem_range'_1] at hmem
    have hlt : position < r.promptTokens.length := by omega
    have hfits := hinv.fits
    have hmax := hinv.max_pos
    have hctx := h.context_le
    rw [prefillRow, List.getElem?_eq_getElem hlt, orPanic, ok_bind, failIf,
      if_neg (by omega), ok_bind]
    refine ensures_pure.mpr ⟨rfl, rfl, ?_, ?_⟩
    · simp only [List.getElem?_append_left hlt, List.getElem?_eq_getElem hlt]
    · simp only [kindAt]
      by_cases hlast : position + 1 = r.promptTokens.length
      · rw [if_pos hlast, if_neg (by omega), if_pos hlast]
      · rw [if_neg hlast, if_pos (by omega)]
  · obtain ⟨hpositions, hrowAt⟩ := map_eq_of_forall₂ hall
    have hlen : run.length = n := by simpa using congrArg List.length hpositions
    exact ⟨⟨hlen.symm ▸ hpositions, hrowAt, fun _ => .inl ⟨hstate, by omega⟩⟩, hlen⟩

/-- The prompt rows of a batch. The loop adds rows unless the budget is used up already. -/
theorem prefillLoop_ensures {E : SchedulerError → Prop} (h : s.SchedulerInv) {tokenBudget : ℕ}
    {slots done : List (Fin 32)} {rows : List BatchRow} {cursor : ℕ}
    (hnd : (done ++ slots).Nodup)
    (hstate : ∀ i ∈ slots, ∃ r, s.Retains i r ∧ r.state = .prefill)
    (hg : s.Gathered done rows) (hle : rows.length ≤ tokenBudget) :
    Ensures (s.prefillLoop tokenBudget slots rows cursor) E fun out =>
      s.Batched out.1 ∧ out.1.length ≤ tokenBudget ∧
        (rows ≠ [] ∨ slots ≠ [] ∧ 0 < tokenBudget → out.1 ≠ []) := by
  induction slots generalizing done rows cursor with
  | nil =>
    refine ensures_ok.mpr ⟨hg.batched, hle, ?_⟩
    rintro (hne | ⟨hne, -⟩)
    · exact hne
    · exact absurd rfl hne
  | cons i slots ih =>
    obtain ⟨r, hr, hprefill⟩ := hstate i List.mem_cons_self
    have hlt := (state_eq_prefill hprefill).2
    rw [prefillLoop, checkedSub_of_le hle, orPanic, ok_bind]
    split
    · next hfull =>
      refine ensures_pure.mpr ⟨hg.batched, hle, ?_⟩
      rintro (hne | ⟨-, hpos⟩)
      · exact hne
      · rintro (hnil : rows = [])
        rw [hnil, List.length_nil] at hfull
        omega
    · next hroom =>
      have hi : i ∉ done := fun hi => (List.nodup_append.mp hnd).2.2 i hi i List.mem_cons_self rfl
      rw [hr, orErr, ok_bind]
      simp only
      rw [checkedSub_of_le hlt.le, orPanic, ok_bind]
      refine (prefillRows_ensures h hr hprefill (by omega)).bind fun run _ hrows => ?_
      obtain ⟨hrun, hlen⟩ := hrows
      have hchunk := h.chunk_pos
      have hadded : run ≠ [] := by
        rw [← List.length_pos_iff]
        omega
      refine (ih (by simpa using hnd) (fun j hj => hstate j (.tail _ hj)) (hg.append h hi hr hrun)
        ?_).mono (fun _ h => h) fun out _ hrest =>
          ⟨hrest.1, hrest.2.1, fun _ => hrest.2.2 (.inl ?_)⟩
      · rw [List.length_append]
        omega
      · simp [hadded]

/-- What preparing a batch leaves. -/
structure Scheduled (s : Scheduler) (tick nowNs tokenBudget : ℕ) (batch : ScheduledBatch)
    (s' : Scheduler) : Prop where
  idle : s.Idle
  budget_le : tokenBudget ≤ s.maxRows
  clock : s.lastTimeNs ≤ nowNs
  batched : s.Batched batch.rows
  nonempty : batch.rows ≠ []
  length_le : batch.rows.length ≤ tokenBudget
  preparedNs : batch.preparedNs = nowNs
  eq : ∃ pd : Pending, pd.batch = batch ∧ s' = { s with
    pending := some pd, lastBatchId := batch.id, lastTick := tick, lastTimeNs := nowNs }

/-- **Preparing.** Nothing is ready and only the clocks move, or the batch is selected from the
retained requests. -/
theorem prepare_ensures (h : s.SchedulerInv) {tick nowNs tokenBudget : ℕ} :
    Ensures (s.prepare tick nowNs tokenBudget) (fun _ => True) fun out =>
      (out.1 = none → s.Idle ∧ s.lastTimeNs ≤ nowNs ∧
        out.2 = { s with lastTick := tick, lastTimeNs := nowNs }) ∧
      ∀ batch, out.1 = some batch → s.Scheduled tick nowNs tokenBudget batch out.2 := by
  rw [prepare]
  refine (requireIdle_ensures.mono (fun _ _ => trivial) fun _ _ h => h).bind fun _ _ hidle => ?_
  refine (ensures_failIf (Q := fun _ => 1 ≤ tokenBudget ∧ tokenBudget ≤ s.maxRows)
    (fun _ => trivial) fun hb => not_not.mp hb).bind fun _ _ ⟨hpos, hmax⟩ => ?_
  refine (ensures_failIf (Q := fun _ => s.lastTimeNs ≤ nowNs) (fun _ => trivial)
    fun hclock => Nat.not_lt.mp (not_or.mp hclock).2).bind fun _ _ hclock => ?_
  simp only
  split
  · exact ensures_pure.mpr ⟨fun _ => ⟨hidle, hclock, rfl⟩, fun _ hsome => by simp at hsome⟩
  next hready =>
  refine (ensures_orErr (Q := fun _ => True) (fun _ => trivial) fun _ _ => trivial).bind
    fun id _ _ => ?_
  generalize hdecode : s.ready .decode s.decodeCursor tick nowNs = decode at hready ⊢
  generalize hprefill : s.ready .prefill s.prefillCursor tick nowNs = prefill at hready ⊢
  have hdecodes : ∀ i ∈ decode, ∃ r, s.Retains i r ∧ r.state = .decode := by
    rw [← hdecode]
    exact fun i hi => mem_ready hi
  have hprefills : ∀ i ∈ prefill, ∃ r, s.Retains i r ∧ r.state = .prefill := by
    rw [← hprefill]
    exact fun i hi => mem_ready hi
  have hlimit : s.decodeLimit tokenBudget (!decode.isEmpty && !prefill.isEmpty) ≤ tokenBudget := by
    rw [decodeLimit]
    split_ifs <;> omega
  generalize hchosen : decode.take
    (s.decodeLimit tokenBudget (!decode.isEmpty && !prefill.isEmpty)) = chosen
  have hsub : chosen.Sublist decode := hchosen ▸ List.take_sublist _ _
  -- Decoding and prefilling slots are disjoint, and either list visits a slot once.
  have hnd : (chosen ++ prefill).Nodup := by
    refine List.nodup_append.mpr ⟨(hdecode ▸ nodup_ready).sublist hsub, hprefill ▸ nodup_ready, ?_⟩
    rintro i hi j hj rfl
    obtain ⟨r, hr, hstate⟩ := hdecodes i (hsub.subset hi)
    obtain ⟨q, hq, hstate'⟩ := hprefills i hj
    obtain rfl : r = q := Option.some.inj (hr.symm.trans hq)
    simp [hstate] at hstate'
  refine (ensures_mapM (R := fun i row => ∃ r, s.Retains i r ∧ Selected r [row])
    fun i hi => ?_).bind fun decoded _ hdecoded => ?_
  · obtain ⟨r, hr, hstate⟩ := hdecodes i (hsub.subset hi)
    exact (decodeRow_ensures h hr hstate).mono (fun _ h => h) fun row _ hrow => ⟨r, hr, hrow⟩
  have hgathered : s.Gathered chosen decoded := by
    simpa using decodeRows_gathered h (hnd.sublist (List.sublist_append_left _ _)) (.nil s) hdecoded
  have hdlen : decoded.length = chosen.length := hdecoded.length_eq.symm
  have hclen : chosen.length ≤ s.decodeLimit tokenBudget (!decode.isEmpty && !prefill.isEmpty) :=
    hchosen ▸ List.length_take_le _ _
  refine (prefillLoop_ensures h hnd hprefills hgathered (by omega)).bind
    fun filled _ ⟨hbatched, hlen, hne⟩ => ?_
  refine ensures_pure.mpr ⟨fun hnone => by simp at hnone, fun batch hsome => ?_⟩
  obtain rfl := Option.some.inj hsome
  refine ⟨hidle, hmax, hclock, hbatched, hne ?_, hlen, rfl, _, rfl, rfl⟩
  -- Without a ready prefill, decoding has the whole budget.
  by_cases hnil : prefill = []
  · left
    have hdne : decode ≠ [] := fun hd => hready ⟨hd, hnil⟩
    rw [← List.length_pos_iff, hdlen, ← hchosen, List.length_take, hnil]
    have := List.length_pos_iff.mpr hdne
    simp only [List.isEmpty_nil, Bool.not_true, Bool.and_false, decodeLimit, Bool.false_eq_true,
      if_false]
    omega
  · exact .inr ⟨hnil, hpos⟩

end Scheduler

end TpScheduler

end Ferric
