import Ferric.Lib.System
import Ferric.TpPaged.Reserve

/-!
# Runs of the pool

One specification for each public call, then the pool as a transition system: any call, with any
arguments, in any order.

A pool is *idle* when it is neither poisoned nor waiting for a batch. Only an idle pool changes its
committed state other than by completing the outstanding batch, so the reservation stays what it
was when it was made.

## Main definitions

* `PoolInv` — the invariant of a pool
* `Call`, `call` — the public operations
* `poolSystem` — pools under arbitrary calls

## Main results

* `call_ensures` — every call keeps the invariant, and neither panics nor reports `Invariant`
* `validated_of_reachable` — the pool's own check never fails
-/

namespace Ferric

namespace TpPaged

namespace PagedPool

/-- Neither poisoned nor waiting for a batch. -/
def Idle (p : PagedPool) : Prop := p.poisoned = false ∧ p.pending = none

instance (p : PagedPool) : Decidable p.Idle := inferInstanceAs (Decidable (_ ∧ _))

/-- A sequence of this pool that is live. -/
def Live (p : PagedPool) (sequence : SequenceId) : Prop :=
  sequence.pool = p.identity ∧ p.state.sequences.get? sequence.serial ≠ none

/-- The invariant of a pool: a reservation is minted from the committed state. -/
structure PoolInv (p : PagedPool) : Prop where
  limits : p.limits.Valid
  capacity_le : p.rowCapacity ≤ 32
  state : StateInv p.limits p.state
  pending : ∀ pd, p.pending = some pd → ∃ prepared, Minted p prepared pd.proposed

variable {p : PagedPool} {α : Type}

/-! ### Guards -/

theorem requireIdle_ensures :
    Ensures p.requireIdle (fun e => Benign e ∧ ¬ p.Idle) fun _ => p.Idle := by
  rw [requireIdle]
  refine (ensures_failIf (Q := fun _ => p.poisoned = false) (fun h => ?_) fun h => ?_).bind
    fun _ _ hp => ensures_failIf (fun h => ?_) fun h => ?_
  · exact ⟨by decide, fun hi => by simp [hi.1] at h⟩
  · simpa using h
  · exact ⟨by decide, fun hi => by simp [hi.2] at h⟩
  · exact ⟨hp, by simpa using h⟩

theorem requireSequence_ensures {sequence : SequenceId} :
    Ensures (p.requireSequence sequence) (fun e => Benign e ∧ ¬ p.Live sequence)
      fun _ => p.Live sequence := by
  rw [requireSequence]
  refine ensures_failIf (fun h => ⟨by decide, fun hl => ?_⟩) fun h => ?_
  · exact h.elim (absurd hl.1) (absurd · hl.2)
  · simpa [Live, not_or] using h

/-- The batch is the outstanding one of this pool. -/
structure Outstanding (p : PagedPool) (batch : PreparedBatch) (pd : Pending) : Prop where
  poisoned : p.poisoned = false
  pool : batch.pool = p.identity
  scope : batch.scope = p.scope
  limits : batch.limits = p.limits
  pending : p.pending = some pd
  id : pd.id = batch.id

theorem requireBatch_ensures {batch : PreparedBatch} :
    Ensures (p.requireBatch batch) (fun e => Benign e ∧ ∀ pd, ¬ p.Outstanding batch pd)
      fun _ => ∃ pd, p.Outstanding batch pd := by
  rw [requireBatch]
  refine (ensures_failIf (Q := fun _ => p.poisoned = false) (fun h => ?_) fun h => ?_).bind
    fun _ _ hp => ensures_failIf (fun h => ?_) fun h => ?_
  · exact ⟨by decide, fun pd ho => by simp [ho.poisoned] at h⟩
  · simpa using h
  · refine ⟨by decide, fun pd ho => ?_⟩
    simp [ho.pool, ho.scope, ho.limits, ho.pending, ho.id] at h
  · simp only [not_or, not_not, Bool.not_eq_true] at h
    obtain ⟨hpool, hscope, hlimits, hid⟩ := h
    cases hpd : p.pending with
    | none => simp [hpd] at hid
    | some pd => exact ⟨pd, hp, hpool, hscope, hlimits, hpd, by simpa [hpd] using hid⟩

/-! ### Transactions -/

/-- What a transaction leaves: the pool with a new committed state. -/
structure Transacted (p : PagedPool) (Q : State → Prop) (p' : PagedPool) : Prop where
  idle : p.Idle
  eq : p' = { p with state := p'.state }
  inv : StateInv p.limits p'.state
  post : Q p'.state

theorem transact_ensures {apply : State → Outcome PagedError (α × State)} {E : PagedError → Prop}
    {Q : α → State → Prop} (hE : ¬ p.Idle → ∀ e, Benign e → E e)
    (ha : p.Idle → Ensures (apply p.state) E fun r => StateInv p.limits r.2 ∧ Q r.1 r.2) :
    Ensures (p.transact apply) E fun r => p.Transacted (Q r.1) r.2 := by
  rw [transact]
  refine (requireIdle_ensures.mono (fun e he => hE he.2 e he.1) fun _ _ h => h).bind
    fun _ _ hidle => ?_
  refine (ha hidle).bind fun r _ ⟨hinv, hq⟩ => ?_
  rw [validateState_of_inv hinv, ok_bind]
  exact ensures_pure.mpr ⟨hidle, rfl, hinv, hq⟩

theorem Transacted.poolInv {Q : State → Prop} {p' : PagedPool} (h : p.Transacted Q p')
    (hp : p.PoolInv) : p'.PoolInv := by
  rw [h.eq]
  exact ⟨hp.limits, hp.capacity_le, h.inv, fun pd hpd => by simp [h.idle.2] at hpd⟩

/-- The committed contents of the device are those of the old state. -/
def Keeps (s s' : State) : Prop := ∀ mem, Faithful mem s → Faithful mem s'

theorem openSequence_ensures {scope : PoolScope} {prompt : List Token} {now : ℕ}
    (hp : p.PoolInv) :
    Ensures (p.openSequence scope prompt now) Benign fun r =>
      p.Transacted (fun s => Keeps p.state s ∧ Opened p.identity prompt now p.state (r.1, s))
        r.2 := by
  rw [openSequence]
  refine (ensures_failIf (Q := fun _ => True) (fun _ => by decide) fun _ => trivial).bind
    fun _ _ _ => ?_
  refine (ensures_failIf (Q := fun _ => prompt ≠ [] ∧ prompt.length ≤ p.limits.contextTokens)
    (fun _ => by decide) fun h => ?_).bind fun _ _ ⟨hne, hlen⟩ => ?_
  · simpa [not_or] using h
  · exact transact_ensures (Q := fun hit s => Keeps p.state s ∧
      Opened p.identity prompt now p.state (hit, s)) (fun _ _ he => he) fun _ =>
      openState_ensures hp.limits hp.state hne hlen

theorem retireSequence_ensures {sequence : SequenceId} {publishPrefix : Bool} {now : ℕ}
    (hp : p.PoolInv) :
    Ensures (p.retireSequence sequence publishPrefix now) Benign fun r =>
      p.Transacted (fun s => Keeps p.state s ∧
        s.sequences = p.state.sequences.erase sequence.serial ∧
        s.nextSequence = p.state.nextSequence) r.2 := by
  rw [retireSequence]
  refine (requireSequence_ensures.mono (fun _ h => h.1) fun _ _ h => h).bind fun _ _ _ => ?_
  refine transact_ensures (Q := fun _ s => Keeps p.state s ∧
    s.sequences = p.state.sequences.erase sequence.serial ∧
    s.nextSequence = p.state.nextSequence) (fun _ _ he => he) fun _ => ?_
  refine (retireState_ensures hp.limits hp.state).mono (fun _ h => h)
    fun r _ ⟨hinv, hkeep, hseqs, hnext, _, _⟩ => ⟨hinv, hkeep, hseqs, hnext⟩

/-- Cancelling a live sequence of an idle pool succeeds. -/
theorem cancelSequence_ensures {sequence : SequenceId} (hp : p.PoolInv) :
    Ensures (p.cancelSequence sequence) (fun e => Benign e ∧ ¬ (p.Idle ∧ p.Live sequence))
      fun r => p.Transacted (fun s => Keeps p.state s ∧
        s.sequences = p.state.sequences.erase sequence.serial ∧
        s.nextSequence = p.state.nextSequence) r.2 := by
  rw [cancelSequence]
  refine (requireSequence_ensures.mono (fun e h => ⟨h.1, fun hl => h.2 hl.2⟩) fun _ _ h => h).bind
    fun _ _ hlive => ?_
  refine transact_ensures (Q := fun _ s => Keeps p.state s ∧
    s.sequences = p.state.sequences.erase sequence.serial ∧
    s.nextSequence = p.state.nextSequence) (fun hi e he => ⟨he, fun h => hi h.1⟩) fun _ => ?_
  refine (cancelState_ensures hp.state).mono (fun e ⟨he, hnone⟩ => absurd hnone hlive.2)
    fun r _ ⟨hinv, hkeep, hseqs, hnext, _⟩ => ⟨hinv, hkeep, hseqs, hnext⟩

theorem expire_ensures {now : ℕ} (hp : p.PoolInv) :
    Ensures (p.expire now) Benign fun r => p.Transacted (fun s => Keeps p.state s ∧
      s.sequences = p.state.sequences ∧ s.nextSequence = p.state.nextSequence) r.2 := by
  refine transact_ensures (Q := fun _ s => Keeps p.state s ∧
    s.sequences = p.state.sequences ∧ s.nextSequence = p.state.nextSequence)
    (fun _ _ he => he) fun _ => ?_
  exact (expireState_ensures hp.state).mono (fun _ h => h)
    fun r _ ⟨hinv, hkeep, hseqs, hnext, _, _⟩ => ⟨hinv, hkeep, hseqs, hnext⟩

theorem evictUnused_ensures {pagesNeeded : ℕ} (hp : p.PoolInv) :
    Ensures (p.evictUnused pagesNeeded) Benign fun r => p.Transacted (fun s => Keeps p.state s ∧
      s.sequences = p.state.sequences ∧ s.nextSequence = p.state.nextSequence ∧
      pagesNeeded ≤ s.pages.countP (·.refs = 0)) r.2 := by
  rw [evictUnused]
  refine (ensures_failIf (Q := fun _ => True) (fun _ => by decide) fun _ => trivial).bind
    fun _ _ _ => ?_
  refine transact_ensures (Q := fun _ s => Keeps p.state s ∧
    s.sequences = p.state.sequences ∧ s.nextSequence = p.state.nextSequence ∧
    pagesNeeded ≤ s.pages.countP (·.refs = 0)) (fun _ _ he => he) fun _ => ?_
  exact (evictState_ensures hp.limits hp.state).mono (fun _ h => h)
    fun r _ ⟨hinv, hkeep, hseqs, hnext, _, hfree⟩ => ⟨hinv, hkeep, hseqs, hnext, hfree⟩

/-! ### Batches -/

/-- A reservation depends on the pool's identity, limits and committed state. -/
theorem Minted.congr {p' : PagedPool} {prepared : List PreparedRow} {r : State}
    (h : Minted p prepared r) (hid : p'.identity = p.identity) (hl : p'.limits = p.limits)
    (hs : p'.state = p.state) : Minted p' prepared r where
  reserved :=
    { inv := hl ▸ h.reserved.inv
      nodes := hs ▸ h.reserved.nodes
      clock := hs ▸ h.reserved.clock
      nextSequence := hs ▸ h.reserved.nextSequence
      live := hid ▸ hs ▸ h.reserved.live
      grow := hs ▸ h.reserved.grow
      absent := hs ▸ h.reserved.absent
      write_exclusive := h.reserved.write_exclusive
      free := hs ▸ h.reserved.free }
  rows := h.rows

/-- Why a reservation fails. -/
inductive ReserveError (p : PagedPool) (rows : List PageRow) : PagedError → Prop
  | notIdle {e : PagedError} (he : Benign e) (h : ¬ p.Idle) : ReserveError p rows e
  | shape (h : rows = [] ∨ p.rowCapacity < rows.length) : ReserveError p rows .invalidRows
  | exhausted (h : checkedAdd 64 p.nextBatch 1 = none) : ReserveError p rows .exhausted
  | row {e : PagedError} {done rest : List PageRow} {row : PageRow} {r : State}
      (hnext : checkedAdd 64 p.nextBatch 1 ≠ none) (hrows : rows = done ++ row :: rest)
      (hdone : Reserved p done r) (he : RowError p r row e) : ReserveError p rows e

theorem ReserveError.benign {rows : List PageRow} {e : PagedError} (h : ReserveError p rows e) :
    Benign e := by
  cases h with
  | notIdle he _ => exact he
  | shape _ => decide
  | exhausted _ => decide
  | row _ _ _ he => exact he.benign

/-- What a reservation leaves: the batch, and the pool that waits for it. -/
structure Prepared (p : PagedPool) (rows : List PageRow) (batch : PreparedBatch)
    (p' : PagedPool) (r : State) : Prop where
  idle : p.Idle
  minted : Minted p batch.rows r
  input : batch.rows.map (·.input) = rows
  nonempty : rows ≠ []
  pool : batch.pool = p.identity
  scope : batch.scope = p.scope
  id : batch.id = p.nextBatch
  limits : batch.limits = p.limits
  eq : p' = { p with nextBatch := p.nextBatch + 1, pending := some ⟨batch.id, false, r⟩ }

/-- **Reservation**, with the exact reasons for failure. -/
theorem reserveBatch_ensures {rows : List PageRow} (hp : p.PoolInv) :
    Ensures (p.reserveBatch rows) (ReserveError p rows) fun r =>
      ∃ proposed, p.Prepared rows r.1 r.2 proposed := by
  rw [reserveBatch]
  refine (requireIdle_ensures.mono (fun e h => .notIdle h.1 h.2) fun _ _ h => h).bind
    fun _ _ hidle => ?_
  refine (ensures_failIf (Q := fun _ => rows ≠ []) (fun h => .shape h)
    fun h => (not_or.mp h).1).bind fun _ _ hne => ?_
  refine (ensures_orErr (Q := fun n => checkedAdd 64 p.nextBatch 1 = some n)
    (fun h => .exhausted h) fun n h => h).bind fun n _ hnext => ?_
  obtain rfl : p.nextBatch + 1 = n := (checkedAdd_eq_some.mp hnext).2
  refine ((reserveRows_ensures hp.limits hp.state).mono (fun e ⟨_, _, _, _, hsplit, hd, he⟩ =>
    .row (by simp [hnext]) hsplit hd he) fun _ _ h => h).bind fun proposed _ hr => ?_
  rw [validateState_of_inv hr.inv, ok_bind]
  refine (prepareRows_ensures hr).bind fun prepared _ ⟨hinput, hrows⟩ => ensures_pure.mpr ?_
  exact ⟨proposed, hidle, ⟨hinput.symm ▸ hr, hrows⟩, hinput, hne, rfl, rfl, rfl, rfl, rfl⟩

/-- Rows that continue the committed positions of live sequences, inside the context. -/
structure Fits (p : PagedPool) (rows : List PageRow) : Prop where
  nonempty : rows ≠ []
  length_le : rows.length ≤ p.rowCapacity
  live : ∀ row ∈ rows, p.Live row.sequence
  positions : ∀ k q, p.state.sequences.get? k = some q →
    (rowsOf k rows).map (·.position) = List.range' q.tokens.length (rowsOf k rows).length
  position_lt : ∀ row ∈ rows, row.position < p.limits.contextTokens

theorem Fits.congr {p' : PagedPool} {rows : List PageRow} (h : p.Fits rows)
    (hid : p'.identity = p.identity) (hcap : p'.rowCapacity = p.rowCapacity)
    (hl : p'.limits = p.limits) (hseqs : p'.state.sequences = p.state.sequences) :
    p'.Fits rows where
  nonempty := h.nonempty
  length_le := hcap ▸ h.length_le
  live row hrow := by
    rw [Live, hid, hseqs]
    exact h.live row hrow
  positions := hseqs ▸ h.positions
  position_lt := hl ▸ h.position_lt

/-- **Backpressure.** Reserving rows that fit fails only for want of pages, or of batch numbers. -/
theorem Fits.error {rows : List PageRow} {e : PagedError} (hf : p.Fits rows) (hidle : p.Idle)
    (h : ReserveError p rows e) :
    (e = .exhausted ∧ checkedAdd 64 p.nextBatch 1 = none) ∨
      (e = .outOfPages ∧ checkedAdd 64 p.nextBatch 1 ≠ none ∧
        p.state.pages.countP (·.refs = 0) < rows.countP (·.position % 16 = 0)) := by
  cases h with
  | notIdle _ h => exact absurd hidle h
  | shape h =>
    rcases h with h | h
    · exact absurd h hf.nonempty
    · exact absurd hf.length_le (Nat.not_le.mpr h)
  | exhausted h => exact .inl ⟨rfl, h⟩
  | @row _ done rest row r hnext hrows hdone he =>
    refine .inr ?_
    have hmem : row ∈ rows := by simp [hrows]
    obtain ⟨q, hq⟩ := Option.ne_none_iff_exists'.mp (hf.live row hmem).2
    obtain ⟨q', hq', htokens, -, -⟩ := hdone.grow _ q hq
    cases he with
    | unknownSequence h =>
      rcases h with h | h | h
      · exact absurd (hf.live row hmem).1 h
      · simp [hq] at h
      · simp [hq'] at h
    | @invalidRows q₁ hq₁ h =>
      exfalso
      obtain rfl : q' = q₁ := Option.some.inj (hq'.symm.trans hq₁)
      have hpos := congrArg (·[(rowsOf row.sequence.serial done).length]?)
        (hf.positions _ q hq)
      have hsplit : rowsOf row.sequence.serial rows = rowsOf row.sequence.serial done ++
          row :: rowsOf row.sequence.serial rest := by
        simp [hrows, rowsOf]
      simp only [hsplit, List.map_append, List.map_cons, List.length_append,
        List.length_cons] at hpos
      rw [List.getElem?_append_right (by simp), List.getElem?_range' (by omega)] at hpos
      have hlt := hf.position_lt row hmem
      have hlen := congrArg List.length htokens
      rw [List.length_append, List.length_map] at hlen
      simp at hpos
      omega
    | outOfPages hm h =>
      refine ⟨rfl, hnext, ?_⟩
      have hfree := hdone.free
      rw [hrows, List.countP_append, List.countP_cons_of_pos (by simpa using hm)]
      omega

theorem Prepared.poolInv {rows : List PageRow} {batch : PreparedBatch} {p' : PagedPool} {r : State}
    (h : p.Prepared rows batch p' r) (hp : p.PoolInv) : p'.PoolInv := by
  rw [h.eq]
  refine ⟨hp.limits, hp.capacity_le, hp.state, fun pd hpd => ⟨batch.rows, ?_⟩⟩
  obtain rfl := Option.some.inj hpd
  exact h.minted.congr rfl rfl rfl

theorem beginSubmission_ensures {batch : PreparedBatch} :
    Ensures (p.beginSubmission batch)
      (fun e => Benign e ∧ ∀ pd, p.Outstanding batch pd → pd.submitted = true) fun p' =>
      ∃ pd, p.Outstanding batch pd ∧ pd.submitted = false ∧
        p' = { p with pending := some { pd with submitted := true } } := by
  rw [beginSubmission]
  refine (requireBatch_ensures.mono (fun e h => ⟨h.1, fun pd ho => absurd ho (h.2 pd)⟩)
    fun _ _ h => h).bind fun _ _ ⟨pd, ho⟩ => ?_
  rw [ho.pending, orErr, ok_bind]
  refine (ensures_failIf (Q := fun _ => pd.submitted = false) (fun h => ⟨by decide, ?_⟩)
    fun h => by simpa using h).bind fun _ _ hs => ensures_pure.mpr ⟨pd, ho, hs, rfl⟩
  intro pd' ho'
  obtain rfl : pd = pd' := Option.some.inj (ho.pending.symm.trans ho'.pending)
  exact h

theorem submitted_eq {pd : Pending} (h : p.pending = some pd) : p.submitted = pd.submitted := by
  simp [submitted, h]

theorem abortBatch_ensures {batch : PreparedBatch} :
    Ensures (p.abortBatch batch)
      (fun e => Benign e ∧ ∀ pd, p.Outstanding batch pd → pd.submitted = true) fun p' =>
      ∃ pd, p.Outstanding batch pd ∧ pd.submitted = false ∧ p' = { p with pending := none } := by
  rw [abortBatch]
  refine (requireBatch_ensures.mono (fun e h => ⟨h.1, fun pd ho => absurd ho (h.2 pd)⟩)
    fun _ _ h => h).bind fun _ _ ⟨pd, ho⟩ => ?_
  refine (ensures_failIf (Q := fun _ => pd.submitted = false) (fun h => ⟨by decide, ?_⟩)
    fun h => ?_).bind fun _ _ hs => ensures_pure.mpr ⟨pd, ho, hs, rfl⟩
  · rw [submitted_eq ho.pending] at h
    simpa using h
  · intro pd' ho'
    rw [← submitted_eq ho'.pending]
    exact h

theorem commitBatch_ensures {batch : PreparedBatch} {completion : BatchCompletion} :
    Ensures (p.commitBatch batch completion)
      (fun e => Benign e ∧ ∀ pd, p.Outstanding batch pd → pd.submitted = true →
        completion ≠ .afterAllRanks batch) fun p' =>
      ∃ pd, p.Outstanding batch pd ∧ pd.submitted = true ∧
        p' = { p with pending := none, state := pd.proposed } := by
  rw [commitBatch]
  refine (requireBatch_ensures.mono (fun e h => ⟨h.1, fun pd ho => absurd ho (h.2 pd)⟩)
    fun _ _ h => h).bind fun _ _ ⟨pd, ho⟩ => ?_
  refine (ensures_failIf (Q := fun _ => True) (fun h => ⟨by decide, fun pd' ho' _ => ?token⟩)
    fun _ => trivial).bind fun _ _ _ => ?submitted
  case token => rwa [BatchCompletion.afterAllRanks, ho'.pool]
  refine (ensures_failIf (Q := fun _ => pd.submitted = true)
    (fun h => ⟨by decide, fun pd' ho' hs => ?early⟩) fun h => ?phase).bind fun _ _ hs => ?publish
  case early => simp [submitted_eq ho'.pending, hs] at h
  case phase => rwa [submitted_eq ho.pending, Bool.not_eq_false] at h
  rw [ho.pending, orErr, ok_bind]
  exact ensures_pure.mpr ⟨pd, ho, hs, rfl⟩

theorem quarantineBatch_ensures {batch : PreparedBatch} :
    Ensures (p.quarantineBatch batch)
      (fun e => Benign e ∧ ∀ pd, p.Outstanding batch pd → pd.submitted = false) fun p' =>
      ∃ pd, p.Outstanding batch pd ∧ pd.submitted = true ∧ p' = { p with poisoned := true } := by
  rw [quarantineBatch]
  refine (requireBatch_ensures.mono (fun e h => ⟨h.1, fun pd ho => absurd ho (h.2 pd)⟩)
    fun _ _ h => h).bind fun _ _ ⟨pd, ho⟩ => ?_
  refine (ensures_failIf (Q := fun _ => pd.submitted = true) (fun h => ⟨by decide, ?_⟩)
    fun h => ?_).bind fun _ _ hs => ensures_pure.mpr ⟨pd, ho, hs, rfl⟩
  · rw [submitted_eq ho.pending] at h
    simpa using h
  · intro pd' ho'
    rw [← submitted_eq ho'.pending]
    exact h

/-- Marking, abandoning and quarantining keep what the pool is made of. -/
theorem PoolInv.keep {p' : PagedPool} (hp : p.PoolInv) (hid : p'.identity = p.identity)
    (hl : p'.limits = p.limits) (hcap : p'.rowCapacity = p.rowCapacity) (hs : p'.state = p.state)
    (hpd : ∀ pd, p'.pending = some pd → ∃ pd₀, p.pending = some pd₀ ∧ pd₀.proposed = pd.proposed) :
    p'.PoolInv where
  limits := hl ▸ hp.limits
  capacity_le := hcap ▸ hp.capacity_le
  state := hl ▸ hs ▸ hp.state
  pending pd hpd' := by
    obtain ⟨pd₀, hpd₀, hprop⟩ := hpd pd hpd'
    obtain ⟨prepared, hm⟩ := hp.pending pd₀ hpd₀
    exact ⟨prepared, hprop ▸ hm.congr hid hl hs⟩

theorem PoolInv.commit {pd : Pending} (hp : p.PoolInv) (hpd : p.pending = some pd) :
    PoolInv { p with pending := none, state := pd.proposed } := by
  obtain ⟨prepared, hm⟩ := hp.pending pd hpd
  exact ⟨hp.limits, hp.capacity_le, hm.reserved.inv, fun _ h => by simp at h⟩

/-! ### Observers -/

theorem committedPosition_ensures {sequence : SequenceId} (hp : p.PoolInv) :
    Ensures (p.committedPosition sequence) Benign fun _ => True := by
  rw [committedPosition]
  refine (requireSequence_ensures.mono (fun _ h => h.1) fun _ _ h => h).bind fun _ _ hlive => ?_
  refine (ensures_failIf (Q := fun _ => True) (fun _ => by decide) fun _ => trivial).bind
    fun _ _ _ => ?_
  obtain ⟨q, hq⟩ := Option.ne_none_iff_exists'.mp hlive.2
  obtain ⟨lab, hc⟩ := hp.state.coherent
  have hle := hc.tokens_le q (BTreeMap.mem_values.mpr ⟨_, hq⟩)
  have := hp.limits.context_le
  rw [hq, orPanic, ok_bind]
  exact ensures_count (by omega) trivial

/-- The state whose counters are reported. -/
theorem PoolInv.visible (hp : p.PoolInv) :
    StateInv p.limits (p.pending.elim p.state (·.proposed)) := by
  cases hpd : p.pending with
  | none => exact hp.state
  | some pd =>
    obtain ⟨prepared, hm⟩ := hp.pending pd hpd
    exact hm.reserved.inv

theorem stats_ensures (hp : p.PoolInv) : Ensures p.stats Benign fun _ => True := by
  rw [stats]
  have h := hp.visible
  generalize p.pending.elim p.state (·.proposed) = s at h
  have hsize := h.size_le
  have hseqs := hp.limits.sequences_le
  have hpages := hp.limits.pages_le
  have hnodes : s.nodes.length = p.limits.physicalPages := by
    obtain ⟨lab, hc⟩ := h.coherent
    rw [hc.nodes_length, h.pages_length]
  refine (freePages_ensures hp.limits h.pages_length).bind fun free _ hfree => ?_
  have hle : free ≤ p.limits.physicalPages := by
    rw [hfree, ← h.pages_length]
    exact List.countP_le_length
  refine (ensures_count (Q := fun _ => True) (by omega) trivial).bind fun _ _ _ => ?_
  refine Ensures.bind (Q := fun _ => True) ?_ fun _ _ _ => ?_
  · split
    · trivial
    · trivial
  refine Ensures.bind (Q := fun _ => True) ?_ fun _ _ _ => ensures_pure.mpr trivial
  split
  · trivial
  · have := List.countP_le_length (p := Option.isSome) (l := s.nodes)
    exact ensures_count (by omega) trivial

theorem checkInvariants_ensures (hp : p.PoolInv) :
    Ensures p.checkInvariants Benign fun _ => True := by
  rw [checkInvariants]
  refine (ensures_failIf (Q := fun _ => True) (fun _ => by decide) fun _ => trivial).bind
    fun _ _ _ => ?_
  rw [validateState_of_inv hp.state, ok_bind]
  cases hpd : p.pending with
  | none => trivial
  | some pd =>
    obtain ⟨prepared, hm⟩ := hp.pending pd hpd
    simp only [validateState_of_inv hm.reserved.inv]
    trivial

/-! ### The pool as a system -/

/-- A public call with its arguments. -/
inductive Call where
  | openSequence (scope : PoolScope) (prompt : List Token) (now : ℕ)
  | reserveBatch (rows : List PageRow)
  | beginSubmission (batch : PreparedBatch)
  | abortBatch (batch : PreparedBatch)
  | commitBatch (batch : PreparedBatch) (completion : BatchCompletion)
  | quarantineBatch (batch : PreparedBatch)
  | retireSequence (sequence : SequenceId) (publishPrefix : Bool) (now : ℕ)
  | cancelSequence (sequence : SequenceId)
  | expire (now : ℕ)
  | evictUnused (pagesNeeded : ℕ)
  | committedPosition (sequence : SequenceId)
  | stats
  | checkInvariants

/-- What a call returns. -/
inductive Reply where
  | unit
  | hit (hit : PrefixHit)
  | batch (batch : PreparedBatch)
  | position (position : ℕ)
  | stats (stats : PagedStats)

/-- One call. -/
def call (p : PagedPool) : Call → Outcome PagedError (Reply × PagedPool)
  | .openSequence scope prompt now => do
    let (hit, p) ← p.openSequence scope prompt now
    return (.hit hit, p)
  | .reserveBatch rows => do
    let (batch, p) ← p.reserveBatch rows
    return (.batch batch, p)
  | .beginSubmission batch => do return (.unit, ← p.beginSubmission batch)
  | .abortBatch batch => do return (.unit, ← p.abortBatch batch)
  | .commitBatch batch completion => do return (.unit, ← p.commitBatch batch completion)
  | .quarantineBatch batch => do return (.unit, ← p.quarantineBatch batch)
  | .retireSequence sequence publishPrefix now => do
    return (.unit, (← p.retireSequence sequence publishPrefix now).2)
  | .cancelSequence sequence => do return (.unit, (← p.cancelSequence sequence).2)
  | .expire now => do return (.unit, (← p.expire now).2)
  | .evictUnused pagesNeeded => do return (.unit, (← p.evictUnused pagesNeeded).2)
  | .committedPosition sequence => do return (.position (← p.committedPosition sequence), p)
  | .stats => do return (.stats (← p.stats), p)
  | .checkInvariants => do
    p.checkInvariants
    return (.unit, p)

/-- A pool as its constructors return it, over limits that passed their own check. -/
def Fresh (p : PagedPool) : Prop :=
  ∃ nextPoolId scope limits next contextTokens sequences physicalPages cacheTtl profile,
    PagedLimits.newBounded contextTokens sequences physicalPages cacheTtl profile = .ok limits ∧
    (new nextPoolId scope limits = .ok (p, next) ∨
      newWide32 nextPoolId scope limits = .ok (p, next) ∨
      ∃ binding, newLargeKv32 nextPoolId scope limits binding = .ok (p, next))

/-- Pools under any calls with any arguments. A call that fails leaves the pool as it was. -/
def poolSystem : System PagedPool Call where
  init := Fresh
  step p c p' := (∃ reply, p.call c = .ok (reply, p')) ∨ (∃ e, p.call c = .error e) ∧ p' = p

theorem newBounded_eq_ok {nextPoolId rowCapacity next : ℕ} {scope : PoolScope}
    {limits : PagedLimits} {largeKv : Option LargeKvBinding}
    (h : newBounded nextPoolId scope limits rowCapacity largeKv = .ok (p, next)) :
    p = { identity := nextPoolId, scope, limits, rowCapacity, largeKv
          state := freshState limits, pending := none, nextBatch := 1, poisoned := false } := by
  rw [newBounded] at h
  obtain ⟨_, -, h⟩ := bind_eq_ok.mp h
  obtain ⟨_, -, h⟩ := bind_eq_ok.mp h
  exact (Prod.mk.inj (Except.ok.inj h)).1.symm

/-- A fresh pool, and the limits it was made with. -/
theorem Fresh.eq (h : p.Fresh) :
    p.limits.Valid ∧ p.rowCapacity ≤ 32 ∧ p.state = freshState p.limits ∧ p.pending = none ∧
      p.nextBatch = 1 ∧ p.poisoned = false := by
  obtain ⟨_, _, limits, _, _, _, _, _, _, hl, h⟩ := h
  have hv := PagedLimits.valid_of_newBounded hl
  rcases h with h | h | ⟨_, h⟩
  · exact newBounded_eq_ok h ▸ ⟨hv, Nat.le_add_right 16 16, rfl, rfl, rfl, rfl⟩
  · exact newBounded_eq_ok h ▸ ⟨hv, le_refl _, rfl, rfl, rfl, rfl⟩
  · obtain ⟨_, -, h⟩ := bind_eq_ok.mp h
    exact newBounded_eq_ok h ▸ ⟨hv, le_refl _, rfl, rfl, rfl, rfl⟩

theorem stateInv_fresh (limits : PagedLimits) : StateInv limits (freshState limits) where
  pages_length := List.length_replicate
  size_le := Nat.zero_le _
  next_pos := Nat.one_pos
  serial k q h := by simp [freshState] at h
  timed i n h := by
    have := List.mem_of_getElem? h
    simp [freshState] at this
  coherent := ⟨_, coherent_fresh _ _⟩

theorem Fresh.poolInv (h : p.Fresh) : p.PoolInv := by
  obtain ⟨hv, hcap, hs, hpd, -, -⟩ := h.eq
  exact ⟨hv, hcap, hs ▸ stateInv_fresh _, fun pd hpd' => by simp [hpd] at hpd'⟩

/-- **Every call** keeps the invariant; it neither panics nor reports a broken invariant. -/
theorem call_ensures (hp : p.PoolInv) (c : Call) :
    Ensures (p.call c) Benign fun r => r.2.PoolInv := by
  cases c with
  | openSequence scope prompt now =>
    exact (openSequence_ensures hp).bind fun r _ hr => ensures_pure.mpr (hr.poolInv hp)
  | reserveBatch rows =>
    exact ((reserveBatch_ensures hp).mono (fun _ h => h.benign) fun _ _ h => h).bind
      fun r _ ⟨_, hr⟩ => ensures_pure.mpr (hr.poolInv hp)
  | beginSubmission batch =>
    refine (beginSubmission_ensures.mono (fun _ h => h.1) fun _ _ h => h).bind
      fun p' _ ⟨pd, ho, _, heq⟩ => ensures_pure.mpr ?_
    refine heq ▸ hp.keep rfl rfl rfl rfl fun pd' hpd' => ⟨pd, ho.pending, ?_⟩
    exact (congrArg Pending.proposed (Option.some.inj hpd') :)
  | abortBatch batch =>
    refine (abortBatch_ensures.mono (fun _ h => h.1) fun _ _ h => h).bind
      fun p' _ ⟨pd, ho, _, heq⟩ => ensures_pure.mpr ?_
    exact heq ▸ hp.keep rfl rfl rfl rfl fun pd' hpd' => by simp at hpd'
  | commitBatch batch completion =>
    refine (commitBatch_ensures.mono (fun _ h => h.1) fun _ _ h => h).bind
      fun p' _ ⟨pd, ho, _, heq⟩ => ensures_pure.mpr ?_
    exact heq ▸ hp.commit ho.pending
  | quarantineBatch batch =>
    refine (quarantineBatch_ensures.mono (fun _ h => h.1) fun _ _ h => h).bind
      fun p' _ ⟨pd, ho, _, heq⟩ => ensures_pure.mpr ?_
    exact heq ▸ hp.keep rfl rfl rfl rfl fun pd' hpd' => ⟨pd', hpd', rfl⟩
  | retireSequence sequence publishPrefix now =>
    exact (retireSequence_ensures hp).bind fun r _ hr => ensures_pure.mpr (hr.poolInv hp)
  | cancelSequence sequence =>
    exact ((cancelSequence_ensures hp).mono (fun _ h => h.1) fun _ _ h => h).bind
      fun r _ hr => ensures_pure.mpr (hr.poolInv hp)
  | expire now => exact (expire_ensures hp).bind fun r _ hr => ensures_pure.mpr (hr.poolInv hp)
  | evictUnused pagesNeeded =>
    exact (evictUnused_ensures hp).bind fun r _ hr => ensures_pure.mpr (hr.poolInv hp)
  | committedPosition sequence =>
    exact (committedPosition_ensures hp).bind fun _ _ _ => ensures_pure.mpr hp
  | stats => exact (stats_ensures hp).bind fun _ _ _ => ensures_pure.mpr hp
  | checkInvariants => exact (checkInvariants_ensures hp).bind fun _ _ _ => ensures_pure.mpr hp

theorem poolInv_of_reachable (h : poolSystem.Reachable p) : p.PoolInv := by
  refine h.induction (fun p (hp : p.Fresh) => hp.poolInv) ?_
  rintro p c p' - hp (⟨reply, hc⟩ | ⟨-, rfl⟩)
  · exact (call_ensures hp c).of_ok hc
  · exact hp

/-- **The pool's own check never fails.** In every reachable pool no call panics, diverges or
returns `Invariant`, and both the committed and the proposed state pass `validateState`. -/
theorem validated_of_reachable {p : PagedPool} (h : poolSystem.Reachable p) :
    (∀ c, p.call c ≠ .error (.err .invariant) ∧ p.call c ≠ .error .panic ∧
      p.call c ≠ .error .diverge) ∧
    validateState p.state p.limits = .ok () ∧
    ∀ pd, p.pending = some pd → validateState pd.proposed p.limits = .ok () := by
  have hp := poolInv_of_reachable h
  refine ⟨fun c => ⟨fun he => ?_, (call_ensures hp c).ne_panic, (call_ensures hp c).ne_diverge⟩,
    validateState_of_inv hp.state, fun pd hpd => ?_⟩
  · exact (call_ensures hp c).of_err he rfl
  · obtain ⟨prepared, hm⟩ := hp.pending pd hpd
    exact validateState_of_inv hm.reserved.inv

/-- A run of calls, up to the first that fails. -/
def runCalls (p : PagedPool) (calls : List Call) : Outcome PagedError PagedPool :=
  calls.foldlM (fun p c => do return (← p.call c).2) p

theorem reachable_of_runCalls {p' : PagedPool} {calls : List Call} (h : poolSystem.Reachable p)
    (hr : p.runCalls calls = .ok p') : poolSystem.Reachable p' := by
  induction calls generalizing p with
  | nil => exact Except.ok.inj hr ▸ h
  | cons c calls ih =>
    rw [runCalls, List.foldlM_cons] at hr
    obtain ⟨p₁, hstep, hr⟩ := bind_eq_ok.mp hr
    obtain ⟨⟨reply, p₂⟩, hc, hp⟩ := bind_eq_ok.mp hstep
    obtain rfl : p₂ = p₁ := Except.ok.inj hp
    exact ih (.step (a := c) h (.inl ⟨reply, hc⟩)) hr

/-- A pool of eight pages for four requests. -/
def smallPool : PagedPool where
  identity := 1
  scope := ⟨Vector.replicate 32 1, Vector.replicate 32 2⟩
  limits := ⟨.legacy, 64, 4, 8, 10⟩
  rowCapacity := 16
  largeKv := none
  state := freshState ⟨.legacy, 64, 4, 8, 10⟩
  pending := none
  nextBatch := 1
  poisoned := false

theorem fresh_smallPool : smallPool.Fresh :=
  ⟨1, smallPool.scope, smallPool.limits, 2, 64, 4, 8, 10, .legacy, by decide, .inl (by decide)⟩

/-- Sixteen rows of a sequence of the small pool. -/
def pageRows (serial start : ℕ) : List PageRow :=
  (List.range' start 16).map fun i => ⟨⟨1, serial⟩, i, i⟩

/-- A batch of the small pool, from its reservation to its completion. -/
def batchCalls (id : ℕ) (rows : List PageRow) : List Call :=
  let batch : PreparedBatch := ⟨1, smallPool.scope, id, smallPool.limits, []⟩
  [.reserveBatch rows, .beginSubmission batch, .commitBatch batch ⟨1, id⟩]

/-- A pool with a live request and an outstanding reservation passes its check. -/
theorem validated_of_reachable_reserved :
    ∃ p, poolSystem.Reachable p ∧ p.pending.isSome = true ∧
      validateState p.state p.limits = .ok () ∧
      ∀ pd, p.pending = some pd → validateState pd.proposed p.limits = .ok () := by
  have hpending : (smallPool.runCalls [.openSequence smallPool.scope [5, 6, 7] 3,
    .reserveBatch [⟨⟨1, 1⟩, 5, 0⟩, ⟨⟨1, 1⟩, 6, 1⟩]]).map (·.pending.isSome) = .ok true := by
    decide
  cases hr : smallPool.runCalls [.openSequence smallPool.scope [5, 6, 7] 3,
    .reserveBatch [⟨⟨1, 1⟩, 5, 0⟩, ⟨⟨1, 1⟩, 6, 1⟩]] with
  | error e => simp [hr, Except.map] at hpending
  | ok p =>
    have h := reachable_of_runCalls (.init fresh_smallPool) hr
    exact ⟨p, h, by simpa [hr, Except.map] using hpending, (validated_of_reachable h).2⟩

end PagedPool

end TpPaged

end Ferric
