import Ferric.TpBatchRuntime.Joint

/-!
# One step of the runtime

A step schedules and reserves a batch, and hands it to the runner. Until the runner has the batch,
every failure undoes both sides. After that a failure poisons the runtime, and there is only one
cause for it: the runner or the clock did not do its part.

## Main definitions

* `Joint` — the invariant of a runtime that is not poisoned
* `Untouched`, `Staged` — before and after a batch is reserved
* `Completes` — the part of the runner and of the clock

## Main results

* `reserveLoop_runs` — scheduling and reserving a batch
* `submit_runs` — handing it to the runner
* `step_runs`
-/

namespace Ferric

namespace TpBatchRuntime

open TpPaged (PagedError PagedPool PageRow PreparedBatch SequenceId Sequence BatchCompletion)
open TpScheduler (SchedulerError Scheduler BatchRow RequestId RequestAdmission RequestRecord
  RowChoice ScheduledBatch OutputEvent Token Selected)

variable {γ : Type} {rt : Runtime γ}

namespace Runtime

/-! ### Reserving -/

/-- Eviction keeps sequences and the contents of their pages. -/
structure Evicted (p p₁ : PagedPool) : Prop where
  eq : p₁ = { p with state := p₁.state }
  inv : p₁.PoolInv
  sequences : p₁.state.sequences = p.state.sequences
  keeps : PagedPool.Keeps p.state p₁.state

theorem Evicted.refl {p : PagedPool} (hp : p.PoolInv) : Evicted p p :=
  ⟨rfl, hp, rfl, fun _ h => h⟩

/-- What reserving the rows of a batch leaves: nothing happened, or the batch is outstanding. -/
def RowsReserved (rt : Runtime γ) (paged : List PageRow) (out : Except PagedError PreparedBatch)
    (rt' : Runtime γ) : Prop :=
  match out with
  | .ok prepared => ∃ p₁ p₂ proposed, Evicted rt.pool p₁ ∧
      p₁.Prepared paged prepared p₂ proposed ∧ rt' = { rt with pool := p₂ }
  | .error _ => rt' = rt

/-- **Reserving rows** that fit. A reservation that follows an eviction succeeds, so one that fails
has evicted nothing. -/
theorem reserveRows_runs {paged : List PageRow} (hp : rt.pool.PoolInv) (hidle : rt.pool.Idle)
    (hfits : rt.pool.Fits paged) :
    Runs rt (reserveRows paged) (RowsReserved rt paged) fun _ _ => False := by
  rw [reserveRows, onPool]
  refine runs_attempt (PagedPool.reserveBatch_ensures hp) ?_ ?_
  · rintro prepared p₂ - ⟨proposed, hprep⟩
    exact runs_pure ⟨rt.pool, p₂, proposed, .refl hp, hprep, rfl⟩
  · intro e _ hreserve
    cases hfits.error hidle hreserve with
    | inl hexhausted =>
      obtain ⟨rfl, -⟩ := hexhausted
      exact runs_pure rfl
    | inr hout =>
      obtain ⟨rfl, hnext, -⟩ := hout
      simp only
      refine runs_failIf (fun hbig => ?_) fun _ => ?_
      · have := List.countP_le_length (p := fun row : PageRow => decide (row.position % 16 = 0))
          (l := paged)
        have := hfits.length_le
        have := hp.capacity_le
        omega
      rw [onPool]
      refine runs_attempt (PagedPool.evictUnused_ensures hp) ?_ ?_
      · rintro ⟨⟩ p₁ - ht
        obtain ⟨hkeeps, hseqs, -, hfree⟩ := ht.post
        simp only at hkeeps hseqs hfree
        have hp₁ := ht.poolInv hp
        have heq : p₁ = { rt.pool with state := p₁.state } := ht.eq
        have hidle₁ : p₁.Idle := by
          rw [heq]
          exact hidle
        have hfits₁ : p₁.Fits paged :=
          hfits.congr (by rw [heq]) (by rw [heq]) (by rw [heq]) hseqs
        refine runs_attempt_last (PagedPool.reserveBatch_ensures hp₁) ?_ ?_
        · rintro prepared p₂ - ⟨proposed, hprep⟩
          exact ⟨p₁, p₂, proposed, ⟨heq, hp₁, hseqs, hkeeps⟩, hprep, rfl⟩
        · intro e _ hreserve₁
          -- The pages are there now, and the batch number was there before.
          exfalso
          rcases hfits₁.error hidle₁ hreserve₁ with ⟨-, hnone⟩ | ⟨-, -, hlt⟩
          · rw [heq] at hnone
            exact hnext hnone
          · omega
      · intro e _ _
        exact runs_pure rfl

/-! ### The invariant -/

/-- The invariant of a runtime that is not poisoned: nothing is outstanding, and the bindings pair
the retained requests with the live sequences. -/
structure Joint (rt : Runtime γ) : Prop where
  pool : rt.pool.PoolInv
  poolIdle : rt.pool.Idle
  scheduler : rt.scheduler.SchedulerInv
  schedulerIdle : rt.scheduler.Idle
  context : rt.scheduler.contextLimit = rt.pool.limits.contextTokens
  budget_le : rt.rowBudget ≤ rt.pool.rowCapacity
  bound : Bound rt.pool.identity rt.pool.state.sequences rt.scheduler rt.bindings

/-- Only the clocks and the batch counter of the scheduler have moved. -/
structure Untouched (rt rt' : Runtime γ) : Prop where
  eq : rt' = { rt with scheduler := rt'.scheduler }
  slots : rt'.scheduler.slots = rt.scheduler.slots
  vocabulary : rt'.scheduler.vocabulary = rt.scheduler.vocabulary
  joint : rt'.Joint

theorem Untouched.trans {rt₁ rt₂ : Runtime γ} (h : Untouched rt rt₁) (h' : Untouched rt₁ rt₂) :
    Untouched rt rt₂ where
  eq := by rw [h'.eq, h.eq]
  slots := h'.slots.trans h.slots
  vocabulary := h'.vocabulary.trans h.vocabulary
  joint := h'.joint

/-- Another scheduler over the same requests. -/
theorem Joint.reschedule {s' : Scheduler} (h : rt.Joint) (hs : s'.SchedulerInv) (hidle : s'.Idle)
    (hslots : s'.slots = rt.scheduler.slots)
    (hcontext : s'.contextLimit = rt.scheduler.contextLimit) :
    Joint { rt with scheduler := s' } :=
  ⟨h.pool, h.poolIdle, hs, hidle, hcontext.trans h.context, h.budget_le, h.bound.sameSlots hslots⟩

/-- A scheduled batch whose pages are reserved. `p₁` is the pool that the reservation was made in,
`proposed` its state after the batch. -/
structure Staged (rt : Runtime γ) (submitted : Bool) (p₁ : PagedPool) (nowNs : ℕ)
    (scheduled : ScheduledBatch) (prepared : PreparedBatch) (paged : List PageRow)
    (proposed : TpPaged.State) : Prop where
  pool : p₁.PoolInv
  reserved : ∃ p₂, p₁.Prepared paged prepared p₂ proposed
  poolEq : rt.pool = { p₁ with
    nextBatch := p₁.nextBatch + 1, pending := some ⟨prepared.id, submitted, proposed⟩ }
  scheduler : rt.scheduler.SchedulerInv
  outstanding : ∃ pd, rt.scheduler.Outstanding scheduled.id pd ∧ pd.batch = scheduled
  preparedNs : scheduled.preparedNs = nowNs
  context : rt.scheduler.contextLimit = p₁.limits.contextTokens
  budget_le : rt.rowBudget ≤ p₁.rowCapacity
  bound : Bound p₁.identity p₁.state.sequences rt.scheduler rt.bindings
  paired : List.Forall₂ (Paired rt.bindings) scheduled.rows paged

/-- A batch is staged; no request has changed. -/
structure Loaded (rt : Runtime γ) (nowNs : ℕ) (scheduled : ScheduledBatch)
    (prepared : PreparedBatch) (p₁ : PagedPool) (paged : List PageRow) (proposed : TpPaged.State)
    (rt₁ : Runtime γ) : Prop where
  evicted : Evicted rt.pool p₁
  staged : rt₁.Staged false p₁ nowNs scheduled prepared paged proposed
  eq : rt₁ = { rt with pool := rt₁.pool, scheduler := rt₁.scheduler }
  slots : rt₁.scheduler.slots = rt.scheduler.slots
  vocabulary : rt₁.scheduler.vocabulary = rt.scheduler.vocabulary

/-- What scheduling and reserving leaves: nothing was ready, or the batch is staged. -/
def LoopDone (rt : Runtime γ) (nowNs : ℕ) (out : Option (ScheduledBatch × PreparedBatch))
    (rt' : Runtime γ) : Prop :=
  match out with
  | none => Untouched rt rt'
  | some (scheduled, prepared) =>
    ∃ p₁ paged proposed, Loaded rt nowNs scheduled prepared p₁ paged proposed rt'

theorem Untouched.loopDone {rt₁ rt₂ : Runtime γ} {nowNs : ℕ}
    {out : Option (ScheduledBatch × PreparedBatch)} (h : Untouched rt rt₁)
    (hd : LoopDone rt₁ nowNs out rt₂) : LoopDone rt nowNs out rt₂ := by
  cases out with
  | none => exact h.trans hd
  | some batch =>
    obtain ⟨p₁, paged, proposed, hl⟩ := hd
    refine ⟨p₁, paged, proposed, ?_, hl.staged, ?_, hl.slots.trans h.slots,
      hl.vocabulary.trans h.vocabulary⟩
    · have hev := hl.evicted
      rwa [h.eq] at hev
    · rw [hl.eq, h.eq]

/-- The errors that report a disagreement between the scheduler and the pool. -/
def Disagreement : RuntimeError → Prop
  | .schedulerAdmissionCancel _ _ => True
  | .bindingAbsent => True
  | .pageCountOverflow => True
  | .scheduleAbort _ => True
  | .dispatchPreflight _ aborted scheduledAbort => ¬ (aborted = .ok () ∧ scheduledAbort = .ok ())
  | .beginPageSubmission _ _ _ => True
  | .schedulerCompletion _ => True
  | .cancelPages _ => True
  | .retireRequest _ => True
  | _ => False

/-- **Scheduling and reserving.** The token budget is halved until the batch fits; a failure leaves
the requests and the pool as they were. -/
theorem reserveLoop_runs {tick nowNs fuel budget : ℕ} (h : rt.Joint) (hfuel : budget < fuel)
    (hle : budget ≤ rt.rowBudget) :
    Runs rt (reserveLoop tick nowNs fuel budget) (LoopDone rt nowNs)
      fun e rt' => Untouched rt rt' ∧ ¬ Disagreement e := by
  induction fuel generalizing rt budget with
  | zero => omega
  | succ fuel ih =>
    have hself : Untouched rt rt := ⟨rfl, rfl, rfl, h⟩
    rw [reserveLoop, onScheduler]
    refine runs_attempt (Scheduler.prepare_ensures h.scheduler) ?_ ?_
    · intro out s' _ hout
      simp only at hout
      obtain ⟨hnone, hsome⟩ := hout
      refine runs_orThrow ?_ (by simp)
      rintro _ ⟨⟩
      cases out with
      | none =>
        obtain ⟨hidle, hclock, rfl⟩ := hnone rfl
        exact runs_pure ⟨rfl, rfl, rfl, h.reschedule (h.scheduler.tick hidle hclock) hidle rfl rfl⟩
      | some scheduled =>
        have hs := hsome scheduled rfl
        obtain ⟨pd, hpd, heq⟩ := hs.eq
        have hinv := hs.inv h.scheduler
        have hslots : s'.slots = rt.scheduler.slots := by rw [heq]
        have hcontext : s'.contextLimit = rt.scheduler.contextLimit := by rw [heq]
        have hvoc : s'.vocabulary = rt.scheduler.vocabulary := by rw [heq]
        have hout : s'.Outstanding scheduled.id pd := by
          rw [heq, ← hpd]
          exact ⟨h.schedulerIdle.1, rfl, rfl⟩
        obtain ⟨paged, hpaged, hall⟩ := h.bound.pageRows_eq hs.batched.known
        refine runs_get ?_
        simp only [hpaged]
        have hfits : rt.pool.Fits paged := h.bound.fits h.scheduler h.context hs.batched hs.nonempty
          ((hs.length_le.trans hle).trans h.budget_le) hall
        have hreserve : Runs { rt with scheduler := s' } (reserveRows paged)
            (RowsReserved { rt with scheduler := s' } paged) fun _ _ => False :=
          reserveRows_runs h.pool h.poolIdle hfits
        refine (hreserve.mono (fun _ _ _ hq => hq) fun _ _ _ hf => hf.elim).bind ?_
        intro reply rt₁ _ hrows
        cases reply with
        | ok prepared =>
          obtain ⟨p₁, p₂, proposed, hev, hprep, rfl⟩ := hrows
          have hp₁ : p₁ = { rt.pool with state := p₁.state } := hev.eq
          refine runs_pure ⟨p₁, paged, proposed, hev, ?_, rfl, hslots, hvoc⟩
          refine ⟨hev.inv, ⟨p₂, hprep⟩, hprep.eq, hinv, ⟨pd, hout, hpd⟩, hs.preparedNs, ?_, ?_, ?_,
            hall⟩
          · rw [hp₁]
            exact hcontext.trans h.context
          · rw [hp₁]
            exact h.budget_le
          · have hid : p₁.identity = rt.pool.identity := by rw [hp₁]
            rw [hid, hev.sequences]
            exact h.bound.sameSlots hslots
        | error e =>
          obtain rfl := hrows
          refine runs_attempt (ensures_noReply Scheduler.abort_ensures) ?_ ?_
          · rintro ⟨⟩ s'' - ⟨-, hs''⟩
            simp only at hs''
            subst hs''
            have hun : Untouched rt { rt with scheduler := { s' with pending := none } } := by
              refine ⟨rfl, hslots, hvoc, h.reschedule hinv.abort ?_ hslots hcontext⟩
              rw [heq]
              exact ⟨h.schedulerIdle.1, rfl⟩
            refine runs_orThrow ?_ (by simp)
            rintro ⟨⟩ -
            split
            · refine (ih hun.joint (by omega) ?_).mono (fun _ _ _ hd => hun.loopDone hd)
                fun _ _ _ he => ⟨hun.trans he.1, he.2⟩
              show max (budget / 2) 1 ≤ rt.rowBudget
              omega
            · exact runs_fail ⟨hun, id⟩
          · intro e' _ hno
            exact absurd hout (hno pd)
    · intro e _ _
      refine runs_orThrow (by simp) ?_
      rintro _ ⟨⟩
      exact ⟨hself, id⟩

/-! ### Submitting -/

variable (R : Runner γ)

/-- A call on the runner. -/
theorem runs_onGpu {α β : Type} {op : γ → Except String α × γ} {f : Except String α → RuntimeM γ β}
    {P : β → Runtime γ → Prop} {E : RuntimeError → Runtime γ → Prop}
    (h : Runs { rt with gpu := (op rt.gpu).2 } (f (op rt.gpu).1) P E) :
    Runs rt (onGpu op >>= f) P E := by
  rw [onGpu, bind_assoc]
  refine runs_get ?_
  rw [bind_assoc]
  exact runs_modify h

/-- The runner after the rows of a batch are bound for numerical capture. -/
def numericalGpu (gpu : γ) (scheduled : ScheduledBatch) : γ :=
  (R.bindNumericalRows gpu scheduled.id scheduled.rows).2

/-- What the runner has to deliver for a batch: one token of the vocabulary for every row that
publishes, the completion token of the batch, and the expected dispatch counts on every rank. -/
structure Delivers (vocabulary worldSize : ℕ) (scheduled : ScheduledBatch)
    (prepared : PreparedBatch) (before expected : List ℕ) (output : BatchOutput) (gpu' : γ) :
    Prop where
  length : output.choices.length = (outputRows scheduled.rows).length
  token_lt : ∀ token ∈ output.choices, token < vocabulary
  completion : output.completion = .afterAllRanks prepared
  roster : before.length = worldSize ∧ (R.dispatchCounts gpu').length = worldSize ∧
    expected.length = worldSize
  counts : dispatchIncrements before (R.dispatchCounts gpu') = some expected

/-- The part of the runner and of the clock in completing a submitted batch. -/
structure Completes (gpu : γ) (vocabulary worldSize nowNs completedNs : ℕ)
    (scheduled : ScheduledBatch) (prepared : PreparedBatch) (before expected : List ℕ) : Prop where
  clock : nowNs ≤ completedNs
  numerical : (R.bindNumericalRows gpu scheduled.id scheduled.rows).1 = .ok ()
  output : ∃ output gpu', R.executeBatch (numericalGpu R gpu scheduled) prepared
      (outputRows scheduled.rows) = (.ok output, gpu') ∧
    Delivers R vocabulary worldSize scheduled prepared before expected output gpu'

theorem mem_outputRows {rows : List BatchRow} {index : ℕ} :
    index ∈ outputRows rows ↔
      ∃ row, rows[index]? = some row ∧ TpScheduler.publishes row = true := by
  rw [outputRows, List.mem_map]
  constructor
  · rintro ⟨⟨row, i⟩, hmem, rfl⟩
    obtain ⟨hmem, hkind⟩ := List.mem_filter.mp hmem
    exact ⟨row, List.mem_zipIdx_iff_getElem?.mp hmem, hkind⟩
  · rintro ⟨row, hrow, hpub⟩
    exact ⟨(row, index), List.mem_filter.mpr ⟨List.mem_zipIdx_iff_getElem?.mpr hrow, hpub⟩, rfl⟩

theorem nodup_outputRows {rows : List BatchRow} : (outputRows rows).Nodup := by
  have hsub : (outputRows rows).Sublist (rows.zipIdx.map Prod.snd) := List.filter_sublist.map _
  refine List.Nodup.sublist hsub ?_
  rw [List.zipIdx_map_snd]
  exact List.nodup_range'

theorem mem_rowChoices {indices : List ℕ} {tokens : List Token} {c : RowChoice}
    (h : c ∈ rowChoices indices tokens) :
    ∃ k : ℕ, indices[k]? = some c.rowIndex ∧ tokens[k]? = some c.tokenId := by
  obtain ⟨⟨index, token⟩, hmem, rfl⟩ := List.mem_map.mp h
  obtain ⟨k, hk⟩ := List.mem_iff_getElem?.mp hmem
  exact ⟨k, List.getElem?_zip_eq_some.mp hk⟩

theorem rowIndex_rowChoices {indices : List ℕ} {tokens : List Token}
    (hlen : tokens.length = indices.length) :
    (rowChoices indices tokens).map (·.rowIndex) = indices := by
  rw [rowChoices, List.map_map]
  exact List.map_fst_zip hlen.ge

/-- One token of the vocabulary for every row that publishes is a well-formed roster. -/
theorem wellFormed_rowChoices {rows : List BatchRow} {tokens : List Token} {vocabulary : ℕ}
    (hlen : tokens.length = (outputRows rows).length)
    (hlt : ∀ token ∈ tokens, token < vocabulary) :
    TpScheduler.WellFormed vocabulary rows (rowChoices (outputRows rows) tokens) where
  token_lt c hc := by
    obtain ⟨k, -, htoken⟩ := mem_rowChoices hc
    exact hlt _ (List.mem_of_getElem? htoken)
  row c hc := by
    obtain ⟨k, hindex, -⟩ := mem_rowChoices hc
    exact mem_outputRows.mp (List.mem_of_getElem? hindex)
  distinct := by
    rw [rowIndex_rowChoices hlen]
    exact nodup_outputRows
  covered index row hrow hpub := by
    have hmem : index ∈ (rowChoices (outputRows rows) tokens).map (·.rowIndex) := by
      rw [rowIndex_rowChoices hlen]
      exact mem_outputRows.mpr ⟨row, hrow, hpub⟩
    exact List.mem_map.mp hmem

/-- What a committed batch leaves. -/
structure Committed (rt : Runtime γ) (completedNs : ℕ) (scheduled : ScheduledBatch)
    (prepared : PreparedBatch) (proposed : TpPaged.State) (rt' : Runtime γ) : Prop where
  clock : scheduled.preparedNs ≤ completedNs
  effect : ∃ (output : BatchOutput) (pd : TpScheduler.Pending) (advances : Fin 32 → ℕ)
      (events : List OutputEvent),
    R.executeBatch (numericalGpu R rt.gpu scheduled) prepared (outputRows scheduled.rows) =
      (.ok output, rt'.gpu) ∧
    output.choices.length = (outputRows scheduled.rows).length ∧
    rt.scheduler.Outstanding scheduled.id pd ∧ pd.batch = scheduled ∧
    rt.scheduler.Completion scheduled.rows (rowChoices (outputRows scheduled.rows) output.choices)
      completedNs advances events ∧
    rt' = { rt with
      gpu := rt'.gpu
      pool := { rt.pool with pending := none, state := proposed }
      scheduler := rt.scheduler.completed pd advances events completedNs }

section Commit

variable {R} {p₁ : PagedPool} {nowNs completedNs : ℕ} {scheduled : ScheduledBatch}
  {prepared : PreparedBatch} {paged : List PageRow} {proposed : TpPaged.State}

theorem Staged.poolOutstanding {submitted : Bool}
    (h : rt.Staged submitted p₁ nowNs scheduled prepared paged proposed) :
    rt.pool.Outstanding prepared ⟨prepared.id, submitted, proposed⟩ := by
  obtain ⟨p₂, hprep⟩ := h.reserved
  rw [h.poolEq]
  exact ⟨hprep.idle.1, hprep.pool, hprep.scope, hprep.limits, rfl, rfl⟩

/-- **Executing and committing** a submitted batch. A check of the completion that passes is not
contradicted when the completion is performed. -/
theorem commit_runs {before expected : List ℕ} {outputHeadRows : ℕ}
    (h : rt.Staged true p₁ nowNs scheduled prepared paged proposed) :
    Runs rt (commit R nowNs completedNs scheduled prepared before expected outputHeadRows)
      (fun _ rt' => Committed R rt completedNs scheduled prepared proposed rt')
      fun e rt' => rt' = { rt with gpu := rt'.gpu } ∧ ¬ Disagreement e ∧
        (∀ error, e ≠ .pageReservation error) ∧
        ¬ Completes R rt.gpu rt.scheduler.vocabulary rt.worldSize nowNs completedNs scheduled
          prepared before expected := by
  obtain ⟨pd, hout, hpd⟩ := h.outstanding
  rw [commit]
  refine runs_onGpu (runs_orThrow ?_ ?_)
  case refine_2 =>
    intro e he
    refine ⟨rfl, id, by simp, fun hc => ?_⟩
    simp [hc.numerical] at he
  rintro ⟨⟩ hnumerical
  refine runs_onGpu (runs_orThrow ?_ ?_)
  case refine_2 =>
    intro e he
    refine ⟨rfl, id, by simp, fun hc => ?_⟩
    obtain ⟨output, gpu', hx, -⟩ := hc.output
    simp only [numericalGpu] at hx
    simp [hx] at he
  intro output houtput
  simp only at houtput ⊢
  generalize hx : R.executeBatch (R.bindNumericalRows rt.gpu scheduled.id scheduled.rows).2 prepared
    (outputRows scheduled.rows) = executed at houtput
  obtain ⟨reply, gpu'⟩ := executed
  obtain rfl : reply = .ok output := houtput
  -- What a well-behaved runner delivers is this output.
  have hdelivers : Completes R rt.gpu rt.scheduler.vocabulary rt.worldSize nowNs completedNs
      scheduled prepared before expected →
      Delivers R rt.scheduler.vocabulary rt.worldSize scheduled prepared before expected output
        gpu' := by
    intro hc
    obtain ⟨output', gpu'', hx', hd⟩ := hc.output
    rw [numericalGpu, hx] at hx'
    obtain ⟨ho, rfl⟩ := Prod.mk.inj hx'
    obtain rfl := Except.ok.inj ho
    exact hd
  refine runs_failIf (fun hbad => ⟨rfl, id, by simp, fun hc => ?_⟩) fun hok => ?_
  · exact hbad.elim (absurd (hdelivers hc).length) (absurd hc.clock ∘ Nat.not_le.mpr)
  obtain ⟨hlen, hclock⟩ := not_or.mp hok
  rw [not_not] at hlen
  refine runs_get (runs_failIf (fun hbad => ⟨rfl, id, by simp, fun hc => ?_⟩) fun _ => ?_)
  · obtain ⟨hbefore, hafter, -⟩ := (hdelivers hc).roster
    exact hbad.elim (absurd hbefore) (absurd hafter)
  simp only
  cases hinc : dispatchIncrements before (R.dispatchCounts gpu') with
  | none =>
    refine runs_fail ⟨rfl, id, by simp, fun hc => ?_⟩
    simp [(hdelivers hc).counts] at hinc
  | some counts =>
    refine runs_failIf (fun hbad => ⟨rfl, id, by simp, fun hc => ?_⟩) fun _ => ?_
    · have hcounts := (hdelivers hc).counts
      rw [hinc, Option.some.injEq] at hcounts
      exact hbad.elim (absurd (hdelivers hc).roster.2.2) (absurd hcounts)
    rw [onScheduler]
    refine runs_attempt (R := fun out => out.2 = rt.scheduler ∧ ∃ done, rt.scheduler.complete
      scheduled.id (rowChoices (outputRows scheduled.rows) output.choices) completedNs = .ok done)
      ((Scheduler.validateCompletion_ensures h.scheduler).bind
        fun _ _ hv => ensures_pure.mpr ⟨rfl, hv⟩) ?_ ?_
    · rintro ⟨⟩ s' - ⟨rfl, done, hdone⟩
      refine runs_orThrow ?_ (by simp)
      rintro ⟨⟩ -
      rw [onPool]
      refine runs_attempt (ensures_noReply PagedPool.commitBatch_ensures) ?_ ?_
      · rintro ⟨⟩ p' - ⟨pending, ho, -, hp'⟩
        simp only at hp'
        obtain rfl : (⟨prepared.id, true, proposed⟩ : TpPaged.Pending) = pending :=
          Option.some.inj (h.poolOutstanding.pending.symm.trans ho.pending)
        refine runs_orThrow ?_ (by simp)
        rintro ⟨⟩ -
        refine runs_attempt (Scheduler.complete_ensures h.scheduler) ?_ ?_
        · rintro events s'' - ⟨pd', advances, ho', hle, hcompletion, hs''⟩
          obtain rfl : pd = pd' := Option.some.inj (hout.pending.symm.trans ho'.pending)
          simp only at hs'' hcompletion
          refine runs_orThrow ?_ (by simp)
          rintro _ ⟨⟩
          subst hpd
          refine runs_pure ⟨hle, output, pd, advances, events, hx, hlen, hout, rfl, hcompletion, ?_⟩
          rw [hp', hs'']
        · intro e he _
          have hbad : rt.scheduler.complete scheduled.id
              (rowChoices (outputRows scheduled.rows) output.choices) completedNs =
              .error (.err e) := he
          simp [hdone] at hbad
      · rintro e - ⟨-, hno⟩
        refine runs_orThrow (by simp) ?_
        rintro _ ⟨⟩
        exact ⟨rfl, id, by simp, fun hc => hno _ h.poolOutstanding rfl (hdelivers hc).completion⟩
    · intro e _ hrejected
      refine runs_orThrow (by simp) ?_
      rintro _ ⟨⟩
      refine ⟨rfl, id, by simp, fun hc => ?_⟩
      have hd := hdelivers hc
      refine hrejected pd hout ?_ ?_
      · rw [hpd, h.preparedNs]
        exact hc.clock
      · rw [hpd]
        exact wellFormed_rowChoices hd.length hd.token_lt

/-- A committed batch keeps the invariant. -/
theorem Committed.joint {rt' : Runtime γ}
    (h : rt.Staged true p₁ nowNs scheduled prepared paged proposed)
    (hc : Committed R rt completedNs scheduled prepared proposed rt') : rt'.Joint := by
  obtain ⟨output, pd, advances, events, -, -, hout, hpd, hcompletion, heq⟩ := hc.effect
  obtain ⟨p₂, hprep⟩ := h.reserved
  have hclock := hc.clock
  rw [← hpd] at hclock hcompletion
  rw [heq, h.poolEq]
  refine ⟨⟨h.pool.limits, h.pool.capacity_le, hprep.minted.reserved.inv, by simp⟩,
    ⟨hprep.idle.1, rfl⟩, h.scheduler.complete hout hclock hcompletion, ⟨hout.poisoned, rfl⟩,
    h.context, h.budget_le, ?_⟩
  have hreserved : PagedPool.Reserved p₁ paged proposed := by
    rw [← hprep.input]
    exact hprep.minted.reserved
  refine h.bound.commit ?_ (hpd ▸ h.paired) hreserved hcompletion
  exact h.scheduler.batched pd hout.pending

/-- The runtime after an unsubmitted batch was undone. -/
def undone (R : Runner γ) (rt : Runtime γ) : Runtime γ :=
  { rt with
    gpu := R.abandonDispatchRows rt.gpu
    pool := { rt.pool with pending := none }
    scheduler := { rt.scheduler with pending := none } }

theorem Staged.joint_undone {submitted : Bool}
    (h : rt.Staged submitted p₁ nowNs scheduled prepared paged proposed) :
    (undone R rt).Joint := by
  obtain ⟨p₂, hprep⟩ := h.reserved
  obtain ⟨pd, hout, -⟩ := h.outstanding
  rw [undone, h.poolEq]
  exact ⟨⟨h.pool.limits, h.pool.capacity_le, h.pool.state, by simp⟩, ⟨hprep.idle.1, rfl⟩,
    h.scheduler.abort, ⟨hout.poisoned, rfl⟩, h.context, h.budget_le, h.bound.sameSlots rfl⟩

/-- **Undoing** an unsubmitted batch succeeds on both sides. -/
theorem rollback_runs (h : rt.Staged false p₁ nowNs scheduled prepared paged proposed) :
    Runs rt (rollback R scheduled prepared)
      (fun out rt' => out = (.ok (), .ok ()) ∧ rt' = undone R rt)
      fun _ _ => False := by
  obtain ⟨pd, hout, -⟩ := h.outstanding
  rw [rollback]
  refine runs_modify ?_
  rw [onPool]
  refine runs_attempt (ensures_noReply PagedPool.abortBatch_ensures) ?_ ?_
  · rintro ⟨⟩ p' - ⟨-, -, -, hp'⟩
    rw [onScheduler]
    refine runs_attempt (ensures_noReply Scheduler.abort_ensures) ?_ ?_
    · rintro ⟨⟩ s' - ⟨-, hs'⟩
      simp only at hp' hs'
      subst hp' hs'
      exact runs_pure ⟨rfl, rfl⟩
    · intro e _ hno
      exact absurd hout (hno pd)
  · rintro e - ⟨-, hno⟩
    simpa using hno _ h.poolOutstanding

/-- A staged batch does not depend on the runner. -/
theorem Staged.rebind {submitted : Bool} {gpu : γ}
    (h : rt.Staged submitted p₁ nowNs scheduled prepared paged proposed) :
    Staged { rt with gpu } submitted p₁ nowNs scheduled prepared paged proposed :=
  ⟨h.pool, h.reserved, h.poolEq, h.scheduler, h.outstanding, h.preparedNs, h.context,
    h.budget_le, h.bound, h.paired⟩

theorem Staged.submit {gpu : γ}
    (h : rt.Staged false p₁ nowNs scheduled prepared paged proposed) :
    Staged { rt with
      gpu
      pool := { rt.pool with pending := some ⟨prepared.id, true, proposed⟩ } }
      true p₁ nowNs scheduled prepared paged proposed :=
  ⟨h.pool, h.reserved, by rw [h.poolEq], h.scheduler, h.outstanding, h.preparedNs, h.context,
    h.budget_le, h.bound, h.paired⟩

end Commit

/-- The runner after the rows of a batch are bound for dispatch. -/
def dispatchGpu (gpu : γ) (scheduled : ScheduledBatch) (prepared : PreparedBatch) : γ :=
  (R.bindDispatchRows gpu prepared scheduled.rows).2

/-- The runner accepted a batch, and then it or the clock did not do its part. -/
def Faulty (gpu : γ) (vocabulary worldSize nowNs completedNs : ℕ) (scheduled : ScheduledBatch)
    (prepared : PreparedBatch) : Prop :=
  ∃ expected, R.expectedDispatchCountsForSelection (dispatchGpu R gpu scheduled prepared) prepared
      (outputRows scheduled.rows) = .ok expected ∧
    ¬ Completes R (dispatchGpu R gpu scheduled prepared) vocabulary worldSize nowNs completedNs
      scheduled prepared (R.dispatchCounts gpu) expected

/-- Why submitting fails: the batch was undone before the runner had it, or the runtime is
poisoned. -/
inductive SubmitError (rt : Runtime γ) (nowNs completedNs : ℕ) (scheduled : ScheduledBatch)
    (prepared : PreparedBatch) : RuntimeError → Runtime γ → Prop
  | undone (text : String) : SubmitError rt nowNs completedNs scheduled prepared
      (.dispatchPreflight text (.ok ()) (.ok ()))
      (undone R { rt with gpu := dispatchGpu R rt.gpu scheduled prepared })
  | poisoned {e : RuntimeError} {rt' : Runtime γ} (hdisagree : ¬ Disagreement e)
      (hreservation : ∀ error, e ≠ .pageReservation error) (hpoisoned : rt'.poisoned = true)
      (hslots : rt'.scheduler.slots = rt.scheduler.slots)
      (hfaulty : Faulty R rt.gpu rt.scheduler.vocabulary rt.worldSize nowNs completedNs scheduled
        prepared) : SubmitError rt nowNs completedNs scheduled prepared e rt'

section Submit

variable {R} {p₁ : PagedPool} {nowNs completedNs : ℕ} {scheduled : ScheduledBatch}
  {prepared : PreparedBatch} {paged : List PageRow} {proposed : TpPaged.State}

theorem preflight_runs :
    Runs rt (preflight R scheduled prepared)
      (fun out rt' => rt' = { rt with gpu := dispatchGpu R rt.gpu scheduled prepared } ∧
        ∀ expected, out = .ok expected → R.expectedDispatchCountsForSelection
          (dispatchGpu R rt.gpu scheduled prepared) prepared (outputRows scheduled.rows) =
            .ok expected)
      fun _ _ => False := by
  rw [preflight]
  refine runs_onGpu ?_
  cases hbind : (R.bindDispatchRows rt.gpu prepared scheduled.rows).1 with
  | error e => exact runs_pure ⟨rfl, by simp⟩
  | ok u => exact runs_get (runs_pure ⟨rfl, fun _ he => he⟩)

/-- The runtime that hands a batch to the runner. -/
def submitted (R : Runner γ) (rt : Runtime γ) (scheduled : ScheduledBatch)
    (prepared : PreparedBatch) (proposed : TpPaged.State) : Runtime γ :=
  { rt with
    gpu := dispatchGpu R rt.gpu scheduled prepared
    pool := { rt.pool with pending := some ⟨prepared.id, true, proposed⟩ } }

/-- **Submitting** a staged batch. -/
theorem submit_runs (h : rt.Staged false p₁ nowNs scheduled prepared paged proposed) :
    Runs rt (submit R nowNs completedNs scheduled prepared)
      (fun _ rt' => Committed R (submitted R rt scheduled prepared proposed) completedNs scheduled
        prepared proposed rt')
      (SubmitError R rt nowNs completedNs scheduled prepared) := by
  rw [submit]
  refine runs_get ((preflight_runs.mono (fun _ _ _ hq => hq) fun _ _ _ hf => hf.elim).bind ?_)
  rintro reply rt₁ - ⟨rfl, hexpected⟩
  have hbound : Staged { rt with gpu := dispatchGpu R rt.gpu scheduled prepared } false p₁ nowNs
      scheduled prepared paged proposed := h.rebind
  cases reply with
  | error text =>
    refine ((rollback_runs hbound).mono (fun _ _ _ hq => hq) fun _ _ _ hf => hf.elim).bind ?_
    rintro _ _ - ⟨rfl, rfl⟩
    exact runs_fail (.undone text)
  | ok expected =>
    refine runs_get ?_
    rw [onPool]
    refine runs_attempt (ensures_noReply PagedPool.beginSubmission_ensures) ?_ ?_
    · rintro ⟨⟩ p' - ⟨pending, ho, -, hp'⟩
      obtain rfl : (⟨prepared.id, false, proposed⟩ : TpPaged.Pending) = pending :=
        Option.some.inj (hbound.poolOutstanding.pending.symm.trans ho.pending)
      simp only at hp'
      subst hp'
      refine runs_handle (commit_runs (R := R) h.submit) ?_
      rintro e rt₂ - ⟨heq, hdisagree, hreservation, hfault⟩
      have hpoisoned : ∀ {rt' : Runtime γ}, rt'.poisoned = true →
          rt'.scheduler.slots = rt.scheduler.slots →
          SubmitError R rt nowNs completedNs scheduled prepared e rt' := fun hp hs =>
        .poisoned hdisagree hreservation hp hs ⟨expected, hexpected expected rfl, hfault⟩
      have hslots : rt₂.scheduler.slots = rt.scheduler.slots := by rw [heq]
      refine runs_modify ?_
      have hquarantine : ∀ {f : Except PagedError Unit → RuntimeM γ BatchReport} {P E}
          {rt₃ : Runtime γ}, (∀ reply p', Runs { rt₃ with pool := p' } (f reply) P E) →
          Runs rt₃
            (onPool (Action.noReply fun pool => pool.quarantineBatch prepared) >>= f) P E := by
        intro f P E rt₃ hf
        rw [onPool]
        exact runs_attempt (ensures_noReply PagedPool.quarantineBatch_ensures)
          (fun _ p' _ _ => hf _ p') fun e _ _ => hf (.error e) rt₃.pool
      refine hquarantine fun _ p' => ?_
      rw [onScheduler]
      refine runs_attempt (ensures_noReply Scheduler.fail_ensures) ?_ ?_
      · rintro ⟨⟩ s' - ⟨-, hs'⟩
        simp only at hs'
        subst hs'
        exact runs_fail (hpoisoned rfl hslots)
      · intro _ _ _
        exact runs_fail (hpoisoned rfl hslots)
    · rintro e - ⟨-, hno⟩
      simpa using hno _ hbound.poolOutstanding

/-- Why a step fails. -/
inductive StepError (R : Runner γ) (rt : Runtime γ) (tick nowNs completedNs : ℕ) :
    RuntimeError → Runtime γ → Prop
  | untouched {e : RuntimeError} {rt' : Runtime γ} (h : Untouched rt rt') (he : ¬ Disagreement e) :
      StepError R rt tick nowNs completedNs e rt'
  | submit {e : RuntimeError} {rt₁ rt' : Runtime γ} {scheduled : ScheduledBatch}
      {prepared : PreparedBatch} {p₁ : PagedPool} {paged : List PageRow} {proposed : TpPaged.State}
      (hloop : (reserveLoop tick nowNs (rt.rowBudget + 1) rt.rowBudget).exec rt =
        (.ok (some (scheduled, prepared)), rt₁))
      (h : Loaded rt nowNs scheduled prepared p₁ paged proposed rt₁)
      (he : SubmitError R rt₁ nowNs completedNs scheduled prepared e rt') :
      StepError R rt tick nowNs completedNs e rt'

/-- What a step leaves: nothing was ready, or one batch was committed. -/
def StepDone (R : Runner γ) (rt : Runtime γ) (nowNs completedNs : ℕ) (out : Option BatchReport)
    (rt' : Runtime γ) : Prop :=
  match out with
  | none => Untouched rt rt'
  | some _ => ∃ scheduled prepared p₁ paged proposed rt₁,
      Loaded rt nowNs scheduled prepared p₁ paged proposed rt₁ ∧
      Committed R (submitted R rt₁ scheduled prepared proposed) completedNs scheduled prepared
        proposed rt'

theorem requireReady_runs :
    Runs rt requireReady (fun _ rt' => rt = rt') fun e rt' => e = .closedOrPoisoned ∧ rt = rt' := by
  rw [requireReady]
  refine runs_get ?_
  rw [← bind_pure (Action.failIf _ _)]
  exact runs_failIf (fun _ => ⟨rfl, rfl⟩) fun _ => runs_pure rfl

/-- **One step.** -/
theorem step_runs {tick : ℕ} (h : rt.Joint) :
    Runs rt (step R tick nowNs completedNs) (StepDone R rt nowNs completedNs)
      (StepError R rt tick nowNs completedNs) := by
  rw [step]
  refine (requireReady_runs.mono (fun _ _ _ hq => hq) ?_).bind ?_
  · rintro _ _ - ⟨rfl, rfl⟩
    exact .untouched ⟨rfl, rfl, rfl, h⟩ id
  rintro _ _ - rfl
  refine runs_get (((reserveLoop_runs h (Nat.lt_succ_self _) le_rfl).mono (fun _ _ _ hq => hq)
    fun _ _ _ he => .untouched he.1 he.2).bind ?_)
  intro out rt₁ hloop hdone
  cases out with
  | none => exact runs_pure hdone
  | some batch =>
    obtain ⟨scheduled, prepared⟩ := batch
    obtain ⟨p₁, paged, proposed, hl⟩ := hdone
    refine ((submit_runs hl.staged).mono (fun _ _ _ hq => hq)
      fun _ _ _ he => .submit hloop hl he).bind ?_
    intro report rt₂ _ hcommitted
    exact runs_pure ⟨scheduled, prepared, p₁, paged, proposed, rt₁, hl, hcommitted⟩

end Submit

end Runtime

end TpBatchRuntime

end Ferric
