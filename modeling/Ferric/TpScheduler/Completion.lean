import Ferric.TpScheduler.Invariant
import Mathlib.Data.List.Forall2

/-!
# Completing a batch

A completion is accepted exactly when every row that publishes has one choice from the vocabulary
and no other row has any. It advances every request by its rows in the batch, and appends the
choice of the request's last row if that row publishes.

## Main results

* `completionData_ensures` — why a completion is rejected, and what an accepted one does
* `complete_ensures` — the scheduler after a completion
* `SchedulerInv.complete` — the invariant afterwards
-/

namespace Ferric

namespace TpScheduler

/-- One choice from the vocabulary for every row that publishes, and no other. -/
structure WellFormed (vocabulary : ℕ) (rows : List BatchRow) (choices : List RowChoice) :
    Prop where
  token_lt : ∀ c ∈ choices, c.tokenId < vocabulary
  row : ∀ c ∈ choices, ∃ row, rows[c.rowIndex]? = some row ∧ publishes row = true
  distinct : (choices.map (·.rowIndex)).Nodup
  covered : ∀ (index : ℕ) (row : BatchRow), rows[index]? = some row → publishes row = true →
    ∃ c ∈ choices, c.rowIndex = index

/-- A choice from the vocabulary for some of the rows that publish, and no other. -/
structure Recordable (vocabulary : ℕ) (rows : List BatchRow) (choices : List RowChoice) :
    Prop where
  token_lt : ∀ c ∈ choices, c.tokenId < vocabulary
  row : ∀ c ∈ choices, ∃ row, rows[c.rowIndex]? = some row ∧ publishes row = true
  distinct : (choices.map (·.rowIndex)).Nodup

theorem WellFormed.recordable {vocabulary : ℕ} {rows : List BatchRow} {choices : List RowChoice}
    (h : WellFormed vocabulary rows choices) : Recordable vocabulary rows choices :=
  ⟨h.token_lt, h.row, h.distinct⟩

/-- One more choice, for a row that publishes and had none. -/
theorem Recordable.snoc {vocabulary : ℕ} {rows : List BatchRow} {choices : List RowChoice}
    {choice : RowChoice} {row : BatchRow} (h : Recordable vocabulary rows choices)
    (hlt : choice.tokenId < vocabulary) (hrow : rows[choice.rowIndex]? = some row)
    (hpub : publishes row = true) (hfree : ∀ c ∈ choices, c.rowIndex ≠ choice.rowIndex) :
    Recordable vocabulary rows (choices ++ [choice]) where
  token_lt c hc := by
    rcases List.mem_append.mp hc with hc | hc
    · exact h.token_lt c hc
    · exact List.mem_singleton.mp hc ▸ hlt
  row c hc := by
    rcases List.mem_append.mp hc with hc | hc
    · exact h.row c hc
    · rw [List.mem_singleton.mp hc]
      exact ⟨row, hrow, hpub⟩
  distinct := by
    rw [List.map_append, List.nodup_append]
    refine ⟨h.distinct, List.nodup_singleton _, fun i hi j hj => ?_⟩
    obtain ⟨c, hc, rfl⟩ := List.mem_map.mp hi
    rw [List.mem_singleton.mp hj]
    exact hfree c hc

/-- Positions and bounds of the next row of a selected run. -/
theorem Selected.next {r : RequestRecord} {before after : List BatchRow} {row : BatchRow}
    {contextLimit lastTimeNs : ℕ} (hinv : RecordInv contextLimit lastTimeNs r)
    (hs : Selected r (before ++ row :: after)) :
    row.absolutePosition = r.committedPosition + before.length ∧
      row.absolutePosition < contextLimit ∧ r.generatedTokens.length < r.maxNewTokens := by
  have hposition : row.absolutePosition = r.committedPosition + before.length := by
    have hget := congrArg (·[before.length]?) hs.positions
    simp only [List.map_append, List.map_cons, List.length_append, List.length_cons] at hget
    rw [List.getElem?_append_right (by simp), List.getElem?_range' (by omega)] at hget
    simpa using hget
  have hfits := hinv.fits
  have hgen := hinv.generated_le
  refine ⟨hposition, ?_⟩
  rcases hs.phase (by simp) with ⟨hprefill, hle⟩ | ⟨hdecode, hone⟩
  · obtain ⟨hne, -⟩ := state_eq_prefill hprefill
    simp only [List.length_append, List.length_cons] at hle
    omega
  · obtain ⟨hne, hge⟩ := state_eq_decode hdecode
    have hprod := hinv.produced (hinv.ne_nil_of_decode hge)
    simp only [List.length_append, List.length_cons] at hone
    omega

namespace Scheduler

variable {s : Scheduler} {rows : List BatchRow} {choices : List RowChoice}
  {byRow : List (Option Token)}
  {vocabulary completedNs : ℕ}

/-- The choices recorded row by row. -/
structure Recorded (vocabulary : ℕ) (rows : List BatchRow) (choices : List RowChoice)
    (byRow : List (Option Token)) : Prop where
  length : byRow.length = rows.length
  token_lt : ∀ c ∈ choices, c.tokenId < vocabulary
  mem_iff : ∀ (index : ℕ) (token : Token), byRow[index]? = some (some token) ↔
    ∃ c ∈ choices, c.rowIndex = index ∧ c.tokenId = token

theorem Recorded.nil : Recorded vocabulary rows [] (List.replicate rows.length none) where
  length := List.length_replicate
  token_lt := by simp
  mem_iff index token := by simp [List.getElem?_replicate]

/-- One more choice, for a row that had none. -/
theorem Recorded.snoc {choice : RowChoice} (h : Recorded vocabulary rows choices byRow)
    (hlt : choice.tokenId < vocabulary) (hfree : byRow[choice.rowIndex]? = some none) :
    Recorded vocabulary rows (choices ++ [choice])
      (byRow.set choice.rowIndex (some choice.tokenId)) where
  length := by rw [List.length_set, h.length]
  token_lt c hc := by
    rcases List.mem_append.mp hc with hc | hc
    · exact h.token_lt c hc
    · exact List.mem_singleton.mp hc ▸ hlt
  mem_iff index token := by
    have hbound := (List.getElem?_eq_some_iff.mp hfree).1
    rw [getElem?_set_eq_some]
    constructor
    · rintro (⟨hidx, -, htoken⟩ | ⟨-, hold⟩)
      · exact ⟨choice, by simp, hidx, Option.some.inj htoken⟩
      · obtain ⟨c, hc, hidx, htoken⟩ := (h.mem_iff index token).mp hold
        exact ⟨c, List.mem_append_left _ hc, hidx, htoken⟩
    · rintro ⟨c, hc, hidx, htoken⟩
      rcases List.mem_append.mp hc with hc | hc
      · have hold := (h.mem_iff index token).mpr ⟨c, hc, hidx, htoken⟩
        refine .inr ⟨fun heq => ?_, hold⟩
        rw [← heq, hfree] at hold
        simp at hold
      · obtain rfl := List.mem_singleton.mp hc
        exact .inl ⟨hidx, hidx ▸ hbound, by rw [htoken]⟩

/-- **Recording choices** fails only on a roster with a choice that cannot be recorded. -/
theorem recordChoices_ensures :
    Ensures (choices.foldlM (recordChoice vocabulary rows) (List.replicate rows.length none))
      (fun e => e = .invalidChoices ∧ ¬ Recordable vocabulary rows choices) fun byRow =>
      Recordable vocabulary rows choices ∧ Recorded vocabulary rows choices byRow := by
  refine (ensures_foldlM (d := []) (I := fun done rest byRow => done ++ rest = choices ∧
    Recordable vocabulary rows done ∧ Recorded vocabulary rows done byRow)
    ⟨rfl, ⟨by simp, by simp, by simp⟩, .nil⟩ ?_).mono (fun _ h => h)
    fun byRow _ h => by simpa using h.2
  rintro done choice rest byRow ⟨hsplit, hdone, hrec⟩
  have hmem : choice ∈ choices := by simp [← hsplit]
  rw [recordChoice]
  refine (ensures_orErr (Q := fun row => rows[choice.rowIndex]? = some row)
    (fun hnone => ⟨rfl, fun hw => ?absent⟩) fun row hrow => hrow).bind fun row _ hrow => ?_
  case absent =>
    obtain ⟨row, hrow, -⟩ := hw.row choice hmem
    simp [hnone] at hrow
  have hbound : choice.rowIndex < byRow.length :=
    hrec.length ▸ (List.getElem?_eq_some_iff.mp hrow).1
  rw [List.getElem?_eq_getElem hbound, orPanic, ok_bind]
  refine (ensures_failIf (Q := fun _ => publishes row = true ∧ choice.tokenId < vocabulary ∧
    byRow[choice.rowIndex] = none) (fun hbad => ⟨rfl, fun hw => ?bad⟩) fun hok => ?good).bind
    fun _ _ hchecked => ?_
  case bad =>
    rcases hbad with hkind | hge | hsecond
    · obtain ⟨row', hrow', hpub⟩ := hw.row choice hmem
      obtain rfl : row = row' := Option.some.inj (hrow.symm.trans hrow')
      simp [publishes, hkind] at hpub
    · exact absurd (hw.token_lt choice hmem) (Nat.not_lt.mpr hge)
    · obtain ⟨token, htoken⟩ := Option.isSome_iff_exists.mp hsecond
      obtain ⟨c, hc, hidx, -⟩ := (hrec.mem_iff choice.rowIndex token).mp
        (by rw [List.getElem?_eq_getElem hbound, htoken])
      have hnd := hw.distinct
      rw [← hsplit, List.map_append, List.nodup_append] at hnd
      exact hnd.2.2 c.rowIndex (List.mem_map_of_mem hc) choice.rowIndex (by simp) hidx
  case good =>
    simp only [not_or, Nat.not_le, Bool.not_eq_true, Option.isSome_eq_false_iff,
      Option.isNone_iff_eq_none] at hok
    exact ⟨by simpa [publishes] using hok.1, hok.2.1, hok.2.2⟩
  obtain ⟨hpub, hlt, hfree⟩ := hchecked
  have hnone : byRow[choice.rowIndex]? = some none := by
    rw [List.getElem?_eq_getElem hbound, hfree]
  refine ensures_pure.mpr ⟨by simpa using hsplit, ?_, hrec.snoc hlt hnone⟩
  refine hdone.snoc hlt hrow hpub fun c hc hidx => ?_
  have hsome := (hrec.mem_iff choice.rowIndex c.tokenId).mpr ⟨c, hc, hidx, rfl⟩
  simp [hnone] at hsome

/-! ### Advancing -/

/-- The event that a row publishes. -/
structure EventOf (byRow : List (Option Token)) (completedNs : ℕ) (entry : BatchRow × ℕ)
    (event : OutputEvent) : Prop where
  request : event.request = entry.1.request
  token : byRow[entry.2]? = some (some event.tokenId)
  completedNs : event.completedNs = completedNs

/-- **Advancing** fails only when a row that publishes has no choice. -/
theorem completeRows_ensures (h : s.SchedulerInv) (hb : s.Batched rows)
    (hlen : byRow.length = rows.length) :
    Ensures (rows.zipIdx.foldlM (s.completeRow byRow completedNs) (fun _ => 0, []))
      (fun e => e = .invalidChoices ∧ ∃ (index : ℕ) (row : BatchRow),
        rows[index]? = some row ∧ publishes row = true ∧ byRow[index]? = some none)
      fun out => (∀ i r, s.Retains i r → out.1 i = (rowsOf r.id rows).length) ∧
        List.Forall₂ (EventOf byRow completedNs)
          (rows.zipIdx.filter fun entry => publishes entry.1) out.2 := by
  refine (ensures_foldlM (d := []) (I := fun done rest acc => done ++ rest = rows.zipIdx ∧
    (∀ i r, s.Retains i r → acc.1 i = (rowsOf r.id (done.map Prod.fst)).length) ∧
    List.Forall₂ (EventOf byRow completedNs) (done.filter fun entry => publishes entry.1) acc.2)
    ⟨rfl, fun i r _ => rfl, .nil⟩ ?_).mono (fun _ h => h) fun out _ hout => ?_
  · rintro done ⟨row, index⟩ rest ⟨advances, events⟩ ⟨hsplit, hadv, hevents⟩
    simp only at hadv hevents
    have hrows : rows = done.map Prod.fst ++ row :: rest.map Prod.fst := by
      have := congrArg (List.map Prod.fst) hsplit
      simpa using this.symm
    have hindex : rows[index]? = some row := by
      have hmem : (row, index) ∈ rows.zipIdx := by
        rw [← hsplit]
        simp
      exact List.mem_zipIdx_iff_getElem?.mp hmem
    obtain ⟨i, r, hr, hid⟩ := hb.known row (List.mem_of_getElem? hindex)
    have hslot : row.request.slot = i := by rw [hid, h.id i r hr]
    have hsel := hb.selected i r hr
    have hinv := h.record i r hr
    rw [hrows, rowsOf_append, rowsOf_cons_self hid] at hsel
    obtain ⟨hposition, hlt, hroom⟩ := hsel.next hinv
    have hctx := h.context_le
    have hfits := hinv.fits
    have hadd : checkedAdd 32 r.committedPosition (advances i) = some row.absolutePosition := by
      rw [checkedAdd_eq_some, hadv i r hr, ← hposition]
      exact ⟨by omega, rfl⟩
    -- What the row does to the advances of each slot.
    have hadv' : ∀ j q, s.Retains j q →
        Function.update advances i (advances i + 1) j =
          (rowsOf q.id ((done ++ [(row, index)]).map Prod.fst)).length := by
      intro j q hq
      rw [List.map_append, rowsOf_append, List.length_append, ← hadv j q hq]
      by_cases hij : i = j
      · subst hij
        obtain rfl : r = q := Option.some.inj (hr.symm.trans hq)
        simp [rowsOf, hid]
      · have hne : row.request ≠ q.id := fun he => hij (h.slot_inj hr hq (hid.symm.trans he))
        simp [rowsOf, hne, Function.update_of_ne (Ne.symm hij)]
    rw [completeRow]
    simp only [hid, h.request_eq hr, ok_bind]
    rw [← hid, hslot, slotIndex_val, orPanic, ok_bind]
    simp only [hadd, orErr, ok_bind, failIf]
    rw [if_neg (by omega), ok_bind]
    split
    · next hkind =>
      have hbound : index < byRow.length := hlen ▸ (List.getElem?_eq_some_iff.mp hindex).1
      have hpub : publishes row = true := by simpa [publishes] using hkind
      rw [List.getElem?_eq_getElem hbound, orPanic, ok_bind]
      cases htoken : byRow[index] with
      | none =>
        exact ⟨rfl, index, row, hindex, hpub, by rw [List.getElem?_eq_getElem hbound, htoken]⟩
      | some token =>
        simp only [ok_bind]
        rw [if_neg (by omega), ok_bind, if_neg (by omega), ok_bind]
        refine ensures_pure.mpr ⟨by simpa using hsplit, hadv', ?_⟩
        have hone : [(row, index)].filter (fun entry => publishes entry.1) = [(row, index)] := by
          simp [hpub]
        rw [List.filter_append, hone]
        refine List.rel_append hevents (.cons ⟨rfl, ?_, rfl⟩ .nil)
        rw [List.getElem?_eq_getElem hbound, htoken]
    · next hkind =>
      have hpub : publishes row = false := by simpa [publishes] using hkind
      refine ensures_pure.mpr ⟨by simpa using hsplit, hadv', ?_⟩
      have hnone : [(row, index)].filter (fun entry => publishes entry.1) = [] := by simp [hpub]
      rw [List.filter_append, hnone, List.append_nil]
      exact hevents
  · obtain ⟨-, hadv, hevents⟩ := hout
    rw [List.nil_append] at hadv hevents
    refine ⟨fun i r hr => ?_, hevents⟩
    rw [hadv i r hr, List.zipIdx_map_fst]

/-! ### The whole completion -/

/-- The named batch is the outstanding one. -/
structure Outstanding (s : Scheduler) (batchId : ℕ) (pd : Pending) : Prop where
  poisoned : s.poisoned = false
  pending : s.pending = some pd
  id : pd.batch.id = batchId

theorem pendingBatch_ensures {batchId : ℕ} :
    Ensures (s.pendingBatch batchId) (fun _ => ∀ pd, ¬ s.Outstanding batchId pd)
      (s.Outstanding batchId) := by
  rw [pendingBatch]
  refine (ensures_failIf (Q := fun _ => s.poisoned = false) (fun hbad pd ho => ?_)
    fun hok => by simpa using hok).bind fun _ _ hp => ensures_orErr (fun hnone pd ho => ?_)
    fun pd hpd => ?_
  · simp [ho.poisoned] at hbad
  · rw [ho.pending, Option.filter_some, if_pos (by simpa using ho.id)] at hnone
    simp at hnone
  · obtain ⟨hpd, hid⟩ := Option.filter_eq_some_iff.mp hpd
    exact ⟨hp, hpd, by simpa using hid⟩

/-- Why a completion is rejected: the batch is not outstanding, the clock went back, or the roster
of choices is ill-formed. -/
def Rejected (s : Scheduler) (batchId : ℕ) (choices : List RowChoice) (completedNs : ℕ) : Prop :=
  ∀ pd, s.Outstanding batchId pd → pd.batch.preparedNs ≤ completedNs →
    ¬ WellFormed s.vocabulary pd.batch.rows choices

/-- How far a completion advances each slot, and what it publishes. -/
structure Completion (s : Scheduler) (rows : List BatchRow) (choices : List RowChoice)
    (completedNs : ℕ) (advances : Fin 32 → ℕ) (events : List OutputEvent) : Prop where
  advances : ∀ i r, s.Retains i r → advances i = (rowsOf r.id rows).length
  events : List.Forall₂ (fun entry event => event.request = entry.1.request ∧
      event.completedNs = completedNs ∧
      ∃ c ∈ choices, c.rowIndex = entry.2 ∧ c.tokenId = event.tokenId ∧ c.tokenId < s.vocabulary)
    (rows.zipIdx.filter fun entry => publishes entry.1) events

/-- **Completion data.** -/
theorem completionData_ensures (h : s.SchedulerInv) {batchId : ℕ} :
    Ensures (s.completionData batchId choices completedNs)
      (fun _ => s.Rejected batchId choices completedNs) fun out =>
      ∃ pd, s.Outstanding batchId pd ∧ pd.batch.preparedNs ≤ completedNs ∧
        s.Completion pd.batch.rows choices completedNs out.1 out.2 := by
  rw [completionData]
  refine (pendingBatch_ensures.mono (fun _ hno pd ho => absurd ho (hno pd)) fun _ _ h => h).bind
    fun pd _ ho => ?_
  have hunique : ∀ pd', s.Outstanding batchId pd' → pd' = pd := fun pd' ho' =>
    Option.some.inj (ho'.pending.symm.trans ho.pending)
  refine (ensures_failIf (Q := fun _ => pd.batch.preparedNs ≤ completedNs)
    (fun hlt pd' ho' hle => ?late) fun hok => Nat.not_lt.mp hok).bind fun _ _ hclock => ?_
  case late =>
    obtain rfl := hunique pd' ho'
    omega
  simp only
  refine (recordChoices_ensures.mono (fun _ hbad pd' ho' _ hw => ?ill) fun _ _ h => h).bind
    fun byRow _ ⟨_, hrec⟩ => ?_
  case ill =>
    obtain rfl := hunique pd' ho'
    exact hbad.2 hw.recordable
  refine (completeRows_ensures h (h.batched pd ho.pending) hrec.length).mono ?_ fun out _ hout => ?_
  · rintro e ⟨-, index, row, hrow, hpub, hnone⟩ pd' ho' - hw
    obtain rfl := hunique pd' ho'
    obtain ⟨c, hc, hidx⟩ := hw.covered index row hrow hpub
    have hsome := (hrec.mem_iff index c.tokenId).mpr ⟨c, hc, hidx, rfl⟩
    simp [hnone] at hsome
  · refine ⟨pd, ho, hclock, hout.1, hout.2.imp fun entry event he => ?_⟩
    obtain ⟨c, hc, hidx, htoken⟩ := (hrec.mem_iff _ _).mp he.token
    exact ⟨he.request, he.completedNs, c, hc, hidx, htoken, hrec.token_lt c hc⟩

/-- The scheduler after a completion. -/
def completed (s : Scheduler) (pd : Pending) (advances : Fin 32 → ℕ) (events : List OutputEvent)
    (completedNs : ℕ) : Scheduler :=
  { s with
    slots := fun i => { s.slots i with
      request := (s.slots i).request.map fun r => advanceRecord r (advances i) events }
    pending := none
    decodeCursor := pd.decodeCursor
    prefillCursor := pd.prefillCursor
    singleRowPrefill := pd.singleRowPrefill
    lastTick := pd.batch.tick
    lastTimeNs := completedNs }

/-- **Completing** a batch. -/
theorem complete_ensures (h : s.SchedulerInv) {batchId : ℕ} :
    Ensures (s.complete batchId choices completedNs)
      (fun _ => s.Rejected batchId choices completedNs) fun out =>
      ∃ pd advances, s.Outstanding batchId pd ∧ pd.batch.preparedNs ≤ completedNs ∧
        s.Completion pd.batch.rows choices completedNs advances out.1 ∧
        out.2 = s.completed pd advances out.1 completedNs := by
  rw [complete]
  refine (completionData_ensures h).bind fun out _ ⟨pd, ho, hclock, hc⟩ => ?_
  simp only [ho.pending, orErr, ok_bind]
  exact ensures_pure.mpr ⟨pd, out.1, ho, hclock, hc, rfl⟩

/-- A completion that was checked can be performed. -/
theorem validateCompletion_ensures {batchId : ℕ} (h : s.SchedulerInv) :
    Ensures (s.validateCompletion batchId choices completedNs)
      (fun _ => s.Rejected batchId choices completedNs)
      fun _ => ∃ out, s.complete batchId choices completedNs = .ok out := by
  rw [validateCompletion]
  refine (completionData_ensures h).bind fun data hd ⟨pd, ho, _, _⟩ => ensures_pure.mpr ?_
  rw [complete, hd, ok_bind]
  simp only [ho.pending, orErr, ok_bind]
  exact ⟨_, rfl⟩

/-- The events of one request come from its own rows that publish. -/
theorem Completion.own {advances : Fin 32 → ℕ} {events : List OutputEvent}
    (hc : s.Completion rows choices completedNs advances events) (id : RequestId) :
    List.Forall₂ (fun entry event => event.request = entry.1.request ∧
        event.completedNs = completedNs ∧
        ∃ c ∈ choices, c.rowIndex = entry.2 ∧ c.tokenId = event.tokenId ∧ c.tokenId < s.vocabulary)
      ((rows.zipIdx.filter fun entry => publishes entry.1).filter
        fun entry => entry.1.request = id)
      (events.filter fun event => event.request = id) := by
  refine List.rel_filter ?_ hc.events
  intro entry event he
  simp [he.1]

theorem Completion.length_own {advances : Fin 32 → ℕ} {events : List OutputEvent}
    (hc : s.Completion rows choices completedNs advances events) (id : RequestId) :
    (events.filter fun event => event.request = id).length =
      (rowsOf id rows).countP publishes := by
  rw [← (hc.own id).length_eq, rowsOf, List.filter_filter, ← List.countP_eq_length_filter,
    List.countP_filter]
  have hfst : rows = rows.zipIdx.map Prod.fst := (List.zipIdx_map_fst ..).symm
  conv_rhs => rw [hfst, List.countP_map]
  refine List.countP_congr fun entry _ => ?_
  simp [and_comm]

/-- One record, advanced by its rows. -/
theorem advance_inv {contextLimit lastTimeNs : ℕ} {r : RequestRecord} {events : List OutputEvent}
    {run : List BatchRow} (hinv : RecordInv contextLimit lastTimeNs r) (hs : Selected r run)
    (hclock : lastTimeNs ≤ completedNs)
    (hlen : (events.filter fun event => event.request = r.id).length = run.countP publishes)
    (hstamp : ∀ event ∈ events, event.completedNs = completedNs) :
    RecordInv contextLimit completedNs (advanceRecord r run.length events) := by
  generalize hown : (events.filter fun event => event.request = r.id) = own at hlen
  have heq : advanceRecord r run.length events = { r with
      committedPosition := r.committedPosition + run.length
      generatedTokens := r.generatedTokens ++ own.map (·.tokenId)
      outputTimestampsNs := r.outputTimestampsNs ++ own.map (·.completedNs) } := by
    rw [advanceRecord, hown]
  have hnew : ∀ t ∈ own.map (·.completedNs), t = completedNs := by
    intro t ht
    obtain ⟨event, hevent, rfl⟩ := List.mem_map.mp ht
    exact hstamp event (List.mem_of_mem_filter (hown ▸ hevent))
  rw [heq]
  have hcount := hs.count_outputs
  have hgen := hinv.generated_le
  have hfits := hinv.fits
  -- Four arithmetic facts about the run; the request is in prefill, decodes, or has no row.
  have harith : (r.generatedTokens = [] → own = [] →
        r.committedPosition + run.length < r.promptTokens.length) ∧
      (r.generatedTokens.length + own.length ≠ 0 → r.committedPosition + run.length + 1 =
        r.promptTokens.length + (r.generatedTokens.length + own.length)) ∧
      r.generatedTokens.length + own.length ≤ r.maxNewTokens := by
    rw [hcount] at hlen
    by_cases hnil : run = []
    · rw [if_neg fun h => h.1 hnil] at hlen
      rw [hnil, List.length_nil, hlen]
      refine ⟨fun hg _ => hinv.waiting hg, fun hne => ?_, hgen⟩
      exact hinv.produced fun hg => hne (by rw [hg, List.length_nil])
    rcases hs.phase hnil with ⟨hprefill, hle⟩ | ⟨hdecode, hone⟩
    · obtain ⟨hmax, hlt⟩ := state_eq_prefill hprefill
      have hempty := hinv.nil_of_prefill hlt
      rw [hempty, List.length_nil] at hmax ⊢
      have hpos := hinv.max_pos
      by_cases hend : r.promptTokens.length ≤ r.committedPosition + run.length
      · rw [if_pos ⟨hnil, hend⟩] at hlen
        refine ⟨fun _ ho => ?_, fun _ => by omega, by omega⟩
        rw [ho, List.length_nil] at hlen
        omega
      · rw [if_neg fun h => hend h.2] at hlen
        exact ⟨fun _ _ => by omega, fun hne => by omega, by omega⟩
    · obtain ⟨hmax, hge⟩ := state_eq_decode hdecode
      have hne := hinv.ne_nil_of_decode hge
      have hprod := hinv.produced hne
      rw [if_pos ⟨hnil, by omega⟩] at hlen
      exact ⟨fun hg => absurd hg hne, fun _ => by omega, by omega⟩
  obtain ⟨hwaiting, hproduced, hmax⟩ := harith
  refine ⟨hinv.cached_lt, hinv.max_pos, hfits, fun hnil => ?_, fun hne => ?_, ?_, ?_, ?_, ?_⟩
  · obtain ⟨hg, ho⟩ := List.append_eq_nil_iff.mp hnil
    exact hwaiting hg (List.map_eq_nil_iff.mp ho)
  · simp only [List.length_append, List.length_map]
    refine hproduced fun h0 => hne ?_
    rw [← List.length_eq_zero_iff]
    simpa using h0
  · simpa using hmax
  · simp [hinv.stamps_length]
  · refine List.pairwise_append.mpr ⟨hinv.stamps_sorted, ?_, fun a ha b hb => ?_⟩
    · exact List.pairwise_of_forall_mem_list fun a ha b hb => by rw [hnew a ha, hnew b hb]
    · rw [hnew b hb]
      exact (hinv.stamps_le a ha).trans hclock
  · intro t ht
    rcases List.mem_append.mp ht with ht | ht
    · exact (hinv.stamps_le t ht).trans hclock
    · exact (hnew t ht).le

theorem Completion.stamp {advances : Fin 32 → ℕ} {events : List OutputEvent}
    (hc : s.Completion rows choices completedNs advances events) :
    ∀ event ∈ events, event.completedNs = completedNs := by
  intro event hevent
  obtain ⟨entry, -, -, hns, -⟩ := exists_of_forall₂ hc.events hevent
  exact hns

/-- What a slot retains after a completion. -/
theorem retains_completed {pd : Pending} {advances : Fin 32 → ℕ} {events : List OutputEvent}
    {i : Fin 32} {r : RequestRecord} :
    (s.completed pd advances events completedNs).Retains i r ↔
      ∃ q, s.Retains i q ∧ advanceRecord q (advances i) events = r :=
  Option.map_eq_some_iff

/-- **A completion keeps the invariant.** -/
theorem SchedulerInv.complete {batchId : ℕ} {pd : Pending} {advances : Fin 32 → ℕ}
    {events : List OutputEvent} (h : s.SchedulerInv) (ho : s.Outstanding batchId pd)
    (hclock : pd.batch.preparedNs ≤ completedNs)
    (hc : s.Completion pd.batch.rows choices completedNs advances events) :
    (s.completed pd advances events completedNs).SchedulerInv where
  context_le := h.context_le
  chunk_pos := h.chunk_pos
  maxRows_le := h.maxRows_le
  id i r hr := by
    obtain ⟨q, hq, rfl⟩ := retains_completed.mp hr
    exact h.id i q hq
  record i r hr := by
    obtain ⟨q, hq, rfl⟩ := retains_completed.mp hr
    rw [hc.advances i q hq]
    refine advance_inv (h.record i q hq) ((h.batched pd ho.pending).selected i q hq) ?_
      (hc.length_own q.id) hc.stamp
    rw [← h.preparedNs pd ho.pending]
    exact hclock
  batched pd hpd := by simp [completed] at hpd
  preparedNs pd hpd := by simp [completed] at hpd
  pending_ne pd hpd := by simp [completed] at hpd

end Scheduler

end TpScheduler

end Ferric
