import Ferric.Lib.Action
import Ferric.TpScheduler.Stream

/-!
# Which completions are accepted

A completion is accepted exactly when the outstanding batch is named, the clock has not gone back,
and the choices are one for every row that publishes, in any order. The order is not seen by
anything that the completion does. The source mutates the scheduler in several assignments; they
come after everything that can fail.

## Main definitions

* `publishingRows` — the rows that need a choice
* `completeInPlace` — the completion as it is written, assignment by assignment

## Main results

* `recordChoices_perm`, `complete_perm` — the order of choices
* `completeInPlace_exec` — the assignments are atomic
* `completion_exact`
-/

namespace Ferric

namespace TpScheduler

/-- The indices of the rows that publish a choice. -/
def publishingRows (rows : List BatchRow) : List ℕ :=
  (rows.zipIdx.filter fun entry => publishes entry.1).map Prod.snd

theorem mem_publishingRows {rows : List BatchRow} {index : ℕ} :
    index ∈ publishingRows rows ↔ ∃ row, rows[index]? = some row ∧ publishes row = true := by
  rw [publishingRows, List.mem_map]
  constructor
  · rintro ⟨⟨row, i⟩, hmem, rfl⟩
    obtain ⟨hrow, hpub⟩ := List.mem_filter.mp hmem
    exact ⟨row, List.mem_zipIdx_iff_getElem?.mp hrow, hpub⟩
  · rintro ⟨row, hrow, hpub⟩
    exact ⟨(row, index), List.mem_filter.mpr ⟨List.mem_zipIdx_iff_getElem?.mpr hrow, hpub⟩, rfl⟩

theorem nodup_publishingRows (rows : List BatchRow) : (publishingRows rows).Nodup := by
  have hall : (rows.zipIdx.map Prod.snd).Nodup := by
    rw [List.zipIdx_map_snd]
    exact List.nodup_range'
  exact hall.sublist (List.filter_sublist.map _)

/-- A well-formed roster is a permutation of one choice for every row that publishes. -/
theorem wellFormed_iff_perm {vocabulary : ℕ} {rows : List BatchRow} {choices : List RowChoice} :
    WellFormed vocabulary rows choices ↔
      (choices.map (·.rowIndex)).Perm (publishingRows rows) ∧
        ∀ c ∈ choices, c.tokenId < vocabulary := by
  constructor
  · intro h
    refine ⟨(List.perm_ext_iff_of_nodup h.distinct (nodup_publishingRows rows)).mpr
      fun index => ?_, h.token_lt⟩
    rw [mem_publishingRows, List.mem_map]
    constructor
    · rintro ⟨c, hc, rfl⟩
      exact h.row c hc
    · rintro ⟨row, hrow, hpub⟩
      exact h.covered index row hrow hpub
  · rintro ⟨hperm, hlt⟩
    refine ⟨hlt, fun c hc => ?_, hperm.nodup_iff.mpr (nodup_publishingRows rows),
      fun index row hrow hpub => ?_⟩
    · exact mem_publishingRows.mp (hperm.mem_iff.mp (List.mem_map_of_mem hc))
    · have hmem := hperm.mem_iff.mpr (mem_publishingRows.mpr ⟨row, hrow, hpub⟩)
      exact List.mem_map.mp hmem

/-! ### The order of the choices -/

theorem Recordable.perm {vocabulary : ℕ} {rows : List BatchRow} {choices choices' : List RowChoice}
    (h : Recordable vocabulary rows choices) (hperm : choices.Perm choices') :
    Recordable vocabulary rows choices' where
  token_lt c hc := h.token_lt c (hperm.mem_iff.mpr hc)
  row c hc := h.row c (hperm.mem_iff.mpr hc)
  distinct := ((hperm.map _).nodup_iff).mp h.distinct

namespace Scheduler

variable {s : Scheduler} {vocabulary batchId completedNs : ℕ} {rows : List BatchRow}
  {choices choices' : List RowChoice}

/-- The record of a roster is determined by the choices in it. -/
theorem Recorded.unique {byRow byRow' : List (Option Token)}
    (h : Recorded vocabulary rows choices byRow) (h' : Recorded vocabulary rows choices' byRow')
    (hmem : ∀ c, c ∈ choices ↔ c ∈ choices') : byRow = byRow' := by
  have hiff : ∀ (index : ℕ) (token : Token),
      byRow[index]? = some (some token) ↔ byRow'[index]? = some (some token) := by
    intro index token
    rw [h.mem_iff, h'.mem_iff]
    exact exists_congr fun c => and_congr_left' (hmem c)
  refine List.ext_getElem (h.length.trans h'.length.symm) fun index hlt hlt' => ?_
  have hat := hiff index
  rw [List.getElem?_eq_getElem hlt, List.getElem?_eq_getElem hlt'] at hat
  cases hx : byRow[index] with
  | some token =>
    have hsome := (hat token).mp (by rw [hx])
    exact (Option.some.inj hsome).symm
  | none =>
    cases hx' : byRow'[index] with
    | none => rfl
    | some token =>
      have hsome := (hat token).mpr (by rw [hx'])
      rw [hx] at hsome
      cases hsome

/-- **Recording does not see the order**, not even in what it rejects. -/
theorem recordChoices_perm (hperm : choices.Perm choices') (vocabulary : ℕ) (rows : List BatchRow) :
    choices.foldlM (recordChoice vocabulary rows) (List.replicate rows.length none) =
      choices'.foldlM (recordChoice vocabulary rows) (List.replicate rows.length none) := by
  have h : Ensures (choices.foldlM (recordChoice vocabulary rows)
      (List.replicate rows.length none)) _ _ := recordChoices_ensures
  have h' : Ensures (choices'.foldlM (recordChoice vocabulary rows)
      (List.replicate rows.length none)) _ _ := recordChoices_ensures
  rcases h.cases with ⟨byRow, hok, hgood, hrec⟩ | ⟨e, herr, rfl, hbad⟩ <;>
    rcases h'.cases with ⟨byRow', hok', hgood', hrec'⟩ | ⟨e', herr', rfl, hbad'⟩
  · rw [hok, hok', hrec.unique hrec' fun c => hperm.mem_iff]
  · exact absurd (hgood.perm hperm) hbad'
  · exact absurd (hgood'.perm hperm.symm) hbad
  · rw [herr, herr']

theorem completionData_perm (hperm : choices.Perm choices') :
    s.completionData batchId choices completedNs =
      s.completionData batchId choices' completedNs := by
  simp only [completionData, recordChoices_perm hperm]

theorem complete_perm (hperm : choices.Perm choices') :
    s.complete batchId choices completedNs = s.complete batchId choices' completedNs := by
  rw [complete, complete, completionData_perm hperm]

/-! ### Acceptance -/

/-- What was recorded and advanced was well formed. -/
theorem completionData_accepted (h : s.SchedulerInv) {out : (Fin 32 → ℕ) × List OutputEvent}
    (hd : s.completionData batchId choices completedNs = .ok out) :
    ∃ pd, s.Outstanding batchId pd ∧ pd.batch.preparedNs ≤ completedNs ∧
      WellFormed s.vocabulary pd.batch.rows choices := by
  obtain ⟨pd, ho, hclock, hcompletion⟩ := (completionData_ensures h).of_ok hd
  refine ⟨pd, ho, hclock, ?_⟩
  rw [completionData] at hd
  obtain ⟨pd', hpd', hd⟩ := bind_eq_ok.mp hd
  obtain rfl := Option.some.inj ((pendingBatch_ensures.of_ok hpd').pending.symm.trans ho.pending)
  obtain ⟨⟨⟩, -, hd⟩ := bind_eq_ok.mp hd
  obtain ⟨byRow, hbyRow, -⟩ := bind_eq_ok.mp hd
  obtain ⟨hgood, -⟩ := recordChoices_ensures.of_ok hbyRow
  refine ⟨hgood.token_lt, hgood.row, hgood.distinct, fun index row hrow hpub => ?_⟩
  have hentry : (row, index) ∈ pd'.batch.rows.zipIdx.filter fun entry => publishes entry.1 :=
    List.mem_filter.mpr ⟨List.mem_zipIdx_iff_getElem?.mpr hrow, hpub⟩
  obtain ⟨event, -, -, -, c, hc, hidx, -⟩ := exists_of_forall₂ hcompletion.events.flip hentry
  exact ⟨c, hc, hidx⟩

/-- **The errors that can happen.** The rows of a batch are retained, and at their positions. -/
theorem completionData_errors (h : s.SchedulerInv) :
    Ensures (s.completionData batchId choices completedNs)
      (fun e => e ≠ .invalidState ∧ e ≠ .staleRequest) fun _ => True := by
  rw [completionData]
  have hpending : Ensures (s.pendingBatch batchId)
      (fun e => e ≠ .invalidState ∧ e ≠ .staleRequest) (s.Outstanding batchId) := by
    have hout : Ensures (s.pendingBatch batchId) _ _ := pendingBatch_ensures
    rw [pendingBatch] at hout ⊢
    rw [failIf] at hout ⊢
    split at hout
    · next hp =>
      rw [if_pos hp]
      exact ⟨by simp, by simp⟩
    · next hp =>
      rw [if_neg hp]
      rw [ok_bind] at hout ⊢
      exact ensures_orErr (fun _ => ⟨by simp, by simp⟩) fun pd hpd => hout.of_ok (by rw [hpd]; rfl)
  refine hpending.bind fun pd _ ho => ?_
  refine (ensures_failIf (Q := fun _ => True) (fun _ => ⟨by simp, by simp⟩) fun _ => trivial).bind
    fun _ _ _ => ?_
  refine (recordChoices_ensures.mono (fun e he => he.1 ▸ ⟨by simp, by simp⟩) fun _ _ h => h).bind
    fun byRow _ hrec => ?_
  exact (completeRows_ensures h (h.batched pd ho.pending) hrec.2.length).mono
    (fun e he => he.1 ▸ ⟨by simp, by simp⟩) fun _ _ _ => trivial

/-- **Acceptance.** -/
theorem complete_eq_ok_iff (h : s.SchedulerInv) {pd : Pending} (hpoisoned : s.poisoned = false)
    (hpending : s.pending = some pd) :
    (∃ out, s.complete batchId choices completedNs = .ok out) ↔
      batchId = pd.batch.id ∧ pd.batch.preparedNs ≤ completedNs ∧
        WellFormed s.vocabulary pd.batch.rows choices := by
  constructor
  · rintro ⟨out, hout⟩
    rw [complete] at hout
    obtain ⟨data, hd, -⟩ := bind_eq_ok.mp hout
    obtain ⟨pd', ho, hclock, hw⟩ := completionData_accepted h hd
    obtain rfl := Option.some.inj (ho.pending.symm.trans hpending)
    exact ⟨ho.id.symm, hclock, hw⟩
  · rintro ⟨rfl, hclock, hw⟩
    have hcall : Ensures (s.complete pd.batch.id choices completedNs) _ _ := complete_ensures h
    rcases hcall.cases with ⟨out, hok, -⟩ | ⟨e, -, hrejected⟩
    · exact ⟨out, hok⟩
    · exact absurd hw (hrejected pd ⟨hpoisoned, hpending, rfl⟩ hclock)

/-- Checking a completion is performing it and looking at the outcome only. -/
theorem validateCompletion_eq (h : s.SchedulerInv) :
    s.validateCompletion batchId choices completedNs =
      (s.complete batchId choices completedNs).map fun _ => () := by
  rw [validateCompletion, complete]
  cases hd : s.completionData batchId choices completedNs with
  | error f => rfl
  | ok data =>
    obtain ⟨pd, ho, -⟩ := (completionData_ensures h).of_ok hd
    simp only [ok_bind, ho.pending, orErr]
    rfl

/-! ### The assignments -/

/-- `complete` as it is written: the pending batch is taken, the slots are updated, and then the
cursors and clocks. -/
def completeInPlace (batchId : ℕ) (choices : List RowChoice) (completedNs : ℕ) :
    Action Scheduler SchedulerError (List OutputEvent) := do
  let (advances, events) ← Action.query fun s => s.completionData batchId choices completedNs
  let taken := (← get).pending
  modify fun s => { s with pending := none }
  match taken with
  | none => Action.fail .staleBatch
  | some pending => do
    modify fun s => { s with slots := fun i => { s.slots i with
      request := (s.slots i).request.map fun r => advanceRecord r (advances i) events } }
    modify fun s => { s with
      decodeCursor := pending.decodeCursor
      prefillCursor := pending.prefillCursor
      singleRowPrefill := pending.singleRowPrefill }
    modify fun s => { s with lastTick := pending.batch.tick, lastTimeNs := completedNs }
    return events

/-- **The assignments are atomic.** -/
theorem completeInPlace_exec :
    (completeInPlace batchId choices completedNs).exec s =
      match s.complete batchId choices completedNs with
      | .ok (events, s') => (.ok events, s')
      | .error f => (.error f, s) := by
  rw [completeInPlace, exec_bind, exec_query, complete]
  cases s.completionData batchId choices completedNs with
  | error f => rfl
  | ok data =>
    simp only [ok_bind, exec_bind, exec_get, exec_modify]
    cases hpending : s.pending with
    | none =>
      have hsame : { s with pending := none } = s := by rw [← hpending]
      simp only [orErr, error_bind, exec_fail, hsame]
    | some pd =>
      simp only [orErr, ok_bind, exec_bind, exec_modify, exec_pure]
      rfl

end Scheduler

open Scheduler

/-- **Completions.** Whatever was called before: with a batch outstanding, a completion is accepted
if and only if it names the batch at a time that is not before it was prepared, and its choices are
a permutation of one choice from the vocabulary for every row that publishes. Their order is not
seen by anything, checking a completion has the outcome of performing it, a rejected completion
leaves the scheduler as it was, and the branches for rows that are out of place are not reached. -/
theorem completion_exact {w : Run} {pd : Pending} (h : runSystem.Reachable w)
    (hpoisoned : w.scheduler.poisoned = false) (hpending : w.scheduler.pending = some pd)
    (batchId : ℕ) (choices : List RowChoice) (completedNs : ℕ) :
    ((∃ out, w.scheduler.complete batchId choices completedNs = .ok out) ↔
      batchId = pd.batch.id ∧ pd.batch.preparedNs ≤ completedNs ∧
        (choices.map (·.rowIndex)).Perm (publishingRows pd.batch.rows) ∧
        ∀ c ∈ choices, c.tokenId < w.scheduler.vocabulary) ∧
    (∀ choices', choices.Perm choices' →
      w.scheduler.complete batchId choices' completedNs =
        w.scheduler.complete batchId choices completedNs) ∧
    w.scheduler.validateCompletion batchId choices completedNs =
      (w.scheduler.complete batchId choices completedNs).map (fun _ => ()) ∧
    (completeInPlace batchId choices completedNs).exec w.scheduler =
      (match w.scheduler.complete batchId choices completedNs with
        | .ok (events, s) => (.ok events, s)
        | .error f => (.error f, w.scheduler)) ∧
    Ensures (w.scheduler.completionData batchId choices completedNs)
      (fun e => e ≠ .invalidState ∧ e ≠ .staleRequest) fun _ => True := by
  have hs := (runInv_of_reachable h).scheduler
  refine ⟨?_, fun choices' hperm => (complete_perm hperm).symm, validateCompletion_eq hs,
    completeInPlace_exec, completionData_errors hs⟩
  rw [complete_eq_ok_iff hs hpoisoned hpending, wellFormed_iff_perm]

/-- The short run up to its second batch, which publishes one choice. -/
def openRun : Outcome SchedulerError Run := do
  let s ← new 100 64 4 2
  let w : Run := ⟨s, [], []⟩
  w.calls [.admitRequest ⟨[5, 6, 7], 2, 0, 0, 0⟩ 1, .prepare 1 2 4, .complete 1 [] 3,
    .prepare 1 4 4]

/-- There a completion with the one choice is accepted, and one without it is not. -/
theorem completion_exact_openRun :
    ∃ w, runSystem.Reachable w ∧
      (∃ out, w.scheduler.complete 2 [⟨0, 9⟩] 5 = .ok out) ∧
      ¬ ∃ out, w.scheduler.complete 2 [] 5 = .ok out := by
  have hpd : openRun.map (fun w => (w.scheduler.poisoned, w.scheduler.vocabulary,
      w.scheduler.pending.map fun pd => (pd.batch.id, pd.batch.preparedNs,
        publishingRows pd.batch.rows))) = .ok (false, 100, some (2, 4, [0])) := by rfl
  cases hr : openRun with
  | error e => simp [hr, Except.map] at hpd
  | ok w =>
    simp only [hr, Except.map, Except.ok.injEq, Prod.mk.injEq, Option.map_eq_some_iff] at hpd
    obtain ⟨hpoisoned, hvocabulary, pd, hpending, hid, hclock, hrows⟩ := hpd
    obtain ⟨s, hs, hcalls⟩ := bind_eq_ok.mp hr
    have hreach := reachable_of_calls (.init ⟨rfl, rfl, 100, 64, 4, 2, .inl hs⟩) hcalls
    refine ⟨w, hreach, ?_, fun hout => ?_⟩
    · refine (completion_exact hreach hpoisoned hpending 2 [⟨0, 9⟩] 5).1.mpr ?_
      rw [hid, hclock, hrows, hvocabulary]
      exact ⟨rfl, by omega, List.Perm.refl _, by simp⟩
    · obtain ⟨-, -, hperm, -⟩ := (completion_exact hreach hpoisoned hpending 2 [] 5).1.mp hout
      rw [hrows] at hperm
      simpa using hperm.length_eq

end TpScheduler

end Ferric
