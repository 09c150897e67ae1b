import Ferric.TpPaged.Tail
import Ferric.TpSpeculative.Model

/-!
# One pool of the pair

What each of the two pools contributes to a round. A pool *serves* the sequence of its role, and
while a round is open it *holds* one reservation: tokens at the positions right behind the committed
ones. The lemmas here are the contracts of the pool's calls in these terms, and of the two
operations that only the pair has: keeping a beginning of a reservation, and writing another token
into it.

## Main definitions

* `rowsAt` — rows of one sequence at consecutive positions
* `tokensOf`, `Serves`, `Holding`

## Main results

* `indexedRows_eq` — the rows of a round
* `Serves.reserve`, `prefixState_ensures`, `Holding.patch`
-/

namespace Ferric

namespace TpSpeculative

open TpPaged TpPaged.PagedPool Ferric.Action

open Spec hiding Token

/-! ### Rows -/

/-- Rows of one sequence at consecutive positions. -/
def rowsAt (sequence : SequenceId) (start : ℕ) (tokens : List Token) : List PageRow :=
  (tokens.zipIdx start).map fun x => ⟨sequence, x.1, x.2⟩

variable {sequence : SequenceId} {start : ℕ} {tokens : List Token}

@[simp] theorem length_rowsAt : (rowsAt sequence start tokens).length = tokens.length := by
  simp [rowsAt]

theorem getElem?_rowsAt (i : ℕ) :
    (rowsAt sequence start tokens)[i]? =
      tokens[i]?.map fun token => ⟨sequence, token, start + i⟩ := by
  rw [rowsAt, List.getElem?_map, List.getElem?_zipIdx, Option.map_map]
  rfl

theorem map_token_rowsAt : (rowsAt sequence start tokens).map (·.token) = tokens := by
  refine List.ext_getElem? fun i => ?_
  rw [List.getElem?_map, getElem?_rowsAt, Option.map_map]
  exact Option.map_id'

theorem sequence_of_mem_rowsAt {row : PageRow} (h : row ∈ rowsAt sequence start tokens) :
    row.sequence = sequence := by
  obtain ⟨x, -, rfl⟩ := List.mem_map.mp h
  rfl

/-- **The rows of a round.** The target consumes the anchor and all candidates, the draft model all
of these inputs but the last. -/
theorem indexedRows_eq {x : RoundIndex} (h : x.Valid) (sequence : SequenceId) :
    indexedRows x .target8B sequence = .ok (rowsAt sequence x.targetPreCommitted x.inputs) ∧
      indexedRows x .draft06B sequence =
        .ok (rowsAt sequence x.targetPreCommitted (x.inputs.take x.draftTokenCount)) := by
  have hle := h.count_le
  have hlen := h.length_inputs
  -- Both roles read the same inputs, so the rows agree wherever both exist.
  have hrow : ∀ (n : ℕ) (f : ℕ → Outcome SpeculativeError PageRow),
      n ≤ x.draftTokenCount + 1 →
      (∀ i < n, ∃ token, x.inputs[i]? = some token ∧
        f i = .ok ⟨sequence, token, x.targetPreCommitted + i⟩) →
      (List.range n).mapM f = .ok (rowsAt sequence x.targetPreCommitted (x.inputs.take n)) := by
    intro n f hn hf
    induction n with
    | zero => simp [rowsAt, pure, Except.pure]
    | succ n ih =>
      obtain ⟨token, htoken, hfn⟩ := hf n (Nat.lt_succ_self n)
      rw [List.range_succ, List.mapM_append, ih (by omega) fun i hi => hf i (by omega), ok_bind,
        List.mapM_cons, hfn, ok_bind, List.mapM_nil]
      have htake : x.inputs.take (n + 1) = x.inputs.take n ++ [token] := by
        rw [List.take_add_one, htoken]
        rfl
      have hmin : min n x.inputs.length = n := by omega
      simp [htake, rowsAt, List.zipIdx_append, hmin, pure, Except.pure, bind, Except.bind]
  constructor
  · rw [indexedRows, if_pos rfl, checkedAdd, if_pos (by omega), orPanic, ok_bind,
      hrow _ _ (Nat.le_refl _) fun i hi => ?_, ← hlen, List.take_length]
    obtain ⟨_, token, htoken, hb⟩ := h.inputAt_eq .target8B (by omega : i ≤ _)
    obtain ⟨b, hb', he⟩ := Option.map_eq_some_iff.mp hb
    obtain ⟨rfl, hpos⟩ := Prod.mk.inj he
    refine ⟨_, htoken, ?_⟩
    simp only [RoundIndex.targetInput]
    rw [dif_neg (by omega), hb', orErr, ok_bind, hpos]
    rfl
  · rw [indexedRows, if_neg (by decide), checkedAdd, if_pos (by omega), orPanic, ok_bind,
      Nat.add_zero, hrow _ _ (by omega) fun i hi => ?_]
    obtain ⟨_, token, htoken, hb⟩ := h.inputAt_eq .draft06B (by omega : i ≤ _)
    obtain ⟨b, hb', he⟩ := Option.map_eq_some_iff.mp hb
    obtain ⟨rfl, hpos⟩ := Prod.mk.inj he
    refine ⟨_, htoken, ?_⟩
    simp only [RoundIndex.draftInput, h.cursors]
    rw [dif_neg (by omega), hb', orErr, ok_bind, hpos]
    rfl

/-! ### Serving a sequence -/

theorem ensures_fromPool {α : Type} {x : Outcome PagedError α} {E : SpeculativeError → Prop}
    {Q : α → Prop} (h : Ensures x (fun e => E (.pool e)) Q) : Ensures (fromPool x) E Q :=
  ensures_mapErr h

/-- The committed tokens of a sequence. -/
def tokensOf (p : PagedPool) (sequence : SequenceId) : List Token :=
  match p.state.sequences.get? sequence.serial with
  | some q => q.tokens
  | none => []

theorem tokensOf_eq {p : PagedPool} {q : Sequence}
    (h : p.state.sequences.get? sequence.serial = some q) : tokensOf p sequence = q.tokens := by
  rw [tokensOf, h]

/-- The pool is sound, and the sequence is one of its live ones. -/
structure Serves (p : PagedPool) (sequence : SequenceId) : Prop where
  inv : p.PoolInv
  live : p.Live sequence

/-- The pool's outstanding batch adds `tokens` to the sequence. -/
structure Holding (p : PagedPool) (sequence : SequenceId) (batch : PreparedBatch)
    (tokens : List Token) : Prop where
  outstanding : ∃ pd, p.Outstanding batch pd ∧ Minted p batch.rows pd.proposed
  rows : inputs batch = rowsAt sequence (tokensOf p sequence).length tokens
  nonempty : tokens ≠ []

variable {p p' : PagedPool} {batch : PreparedBatch}

theorem Serves.get (h : Serves p sequence) :
    ∃ q, p.state.sequences.get? sequence.serial = some q ∧ tokensOf p sequence = q.tokens := by
  obtain ⟨q, hq⟩ := Option.ne_none_iff_exists'.mp h.live.2
  exact ⟨q, hq, tokensOf_eq hq⟩

/-- The committed position is the number of committed tokens. -/
theorem Serves.committedPosition_eq (h : Serves p sequence) (hp : p.poisoned = false) :
    p.committedPosition sequence = .ok (tokensOf p sequence).length := by
  obtain ⟨q, hq, htokens⟩ := h.get
  obtain ⟨lab, hc⟩ := h.inv.state.coherent
  have hle := hc.tokens_le q (BTreeMap.mem_values.mpr ⟨_, hq⟩)
  have := h.inv.limits.context_le
  rw [committedPosition, requireSequence, failIf, if_neg (by simp [h.live.1, hq]), ok_bind, failIf,
    if_neg (by simp [hp]), ok_bind, hq, orPanic, ok_bind, count, if_pos (by omega), htokens]
  rfl

/-- A pool whose committed state and identity are kept serves the same sequence. -/
theorem Serves.congr (h : Serves p sequence) (hinv : p'.PoolInv)
    (hid : p'.identity = p.identity) (hs : p'.state = p.state) : Serves p' sequence :=
  ⟨hinv, by rw [Live, hid, hs]; exact h.live⟩

/-- Poisoning keeps a pool sound. -/
theorem Serves.poison (h : Serves p sequence) : Serves { p with poisoned := true } sequence :=
  h.congr (h.inv.keep rfl rfl rfl rfl fun pd hpd => ⟨pd, hpd, rfl⟩) rfl rfl

/-- The rows of a reservation are as many as its tokens. -/
theorem Holding.length_rows (h : Holding p sequence batch tokens) :
    batch.rows.length = tokens.length := by
  have := congrArg List.length h.rows
  simpa [inputs] using this

/-! ### Reserving, marking, abandoning -/

theorem rowsAt_ne_nil (h : rowsAt sequence start tokens ≠ []) : tokens ≠ [] := by
  rintro rfl
  exact h rfl

/-- Reserve tokens behind the committed ones. -/
theorem Serves.reserve (h : Serves p sequence) :
    Ensures (p.reserveBatch (rowsAt sequence (tokensOf p sequence).length tokens))
      (fun _ => True) fun r =>
      p.Idle ∧ Serves r.2 sequence ∧ Holding r.2 sequence r.1 tokens ∧ r.2.state = p.state ∧
        r.2.identity = p.identity ∧ r.2.submitted = false := by
  refine (reserveBatch_ensures h.inv).mono (fun _ _ => trivial) ?_
  rintro ⟨batch, p'⟩ - ⟨r, hr⟩
  have hinv := hr.poolInv h.inv
  obtain rfl : p' = { p with nextBatch := p.nextBatch + 1
                             pending := some ⟨batch.id, false, r⟩ } := hr.eq
  refine ⟨hr.idle, h.congr hinv rfl rfl, ⟨⟨⟨batch.id, false, r⟩, ?_, ?_⟩, hr.input,
    rowsAt_ne_nil hr.nonempty⟩, rfl, rfl, rfl⟩
  · exact ⟨hr.idle.1, hr.pool, hr.scope, hr.limits, rfl, rfl⟩
  · exact hr.minted.congr rfl rfl rfl

/-- The pool holds its reservation as before, apart from the mark. -/
theorem Holding.congr (h : Holding p sequence batch tokens) (hid : p'.identity = p.identity)
    (hscope : p'.scope = p.scope) (hl : p'.limits = p.limits) (hs : p'.state = p.state)
    (hpoison : p'.poisoned = p.poisoned)
    (hpd : ∀ pd, p.pending = some pd → ∃ submitted,
      p'.pending = some { pd with submitted }) : Holding p' sequence batch tokens := by
  obtain ⟨pd, ho, hm⟩ := h.outstanding
  obtain ⟨submitted, hpending⟩ := hpd pd ho.pending
  refine ⟨⟨_, ⟨hpoison.trans ho.poisoned, ho.pool.trans hid.symm, ho.scope.trans hscope.symm,
    ho.limits.trans hl.symm, hpending, ho.id⟩, hm.congr hid hl hs⟩, ?_, h.nonempty⟩
  rw [tokensOf, hs]
  exact h.rows

/-- Mark the reservation submitted. -/
theorem Holding.begin (h : Holding p sequence batch tokens) (hp : p.PoolInv) :
    Ensures (p.beginSubmission batch) (fun _ => True) fun p' =>
      p'.PoolInv ∧ Holding p' sequence batch tokens ∧ p'.state = p.state ∧
        p'.identity = p.identity := by
  refine beginSubmission_ensures.mono (fun _ _ => trivial) ?_
  rintro p' - ⟨pd, ho, -, rfl⟩
  refine ⟨hp.keep rfl rfl rfl rfl fun pd' hpd' => ⟨pd, ho.pending, ?_⟩,
    h.congr rfl rfl rfl rfl rfl fun pd' hpd' => ⟨true, ?_⟩, rfl, rfl⟩
  · exact Option.some.inj hpd' ▸ rfl
  · rw [← Option.some.inj (ho.pending.symm.trans hpd')]

/-- Dropping the reservation leaves an idle pool. -/
theorem Holding.release (h : Holding p sequence batch tokens) (hp : p.PoolInv) :
    PoolInv { p with pending := none } ∧ Idle { p with pending := none } := by
  obtain ⟨pd, ho, -⟩ := h.outstanding
  exact ⟨hp.keep rfl rfl rfl rfl fun pd' hpd' => by simp at hpd', ho.poisoned, rfl⟩

/-- An unsubmitted reservation can be abandoned. -/
theorem Holding.abort (h : Holding p sequence batch tokens) (hs : p.submitted = false) :
    p.abortBatch batch = .ok { p with pending := none } := by
  obtain ⟨pd, ho, -⟩ := h.outstanding
  have hx : Ensures (p.abortBatch batch) (fun _ => False) fun p' =>
      p' = { p with pending := none } := by
    refine abortBatch_ensures.mono (fun e he => ?_) fun p' _ hp' => ?_
    · have := he.2 pd ho
      rw [submitted_eq ho.pending] at hs
      simp [hs] at this
    · obtain ⟨_, _, _, heq⟩ := hp'
      exact heq
  match hr : p.abortBatch batch, hx with
  | .ok p', hx => rw [hx]

/-! ### What the reservation proposes -/

/-- The proposed tokens are the committed ones and the reserved ones. -/
theorem Holding.proposed {pd : Pending} (h : Holding p sequence batch tokens)
    (hserves : Serves p sequence) (hpd : p.pending = some pd) :
    ∃ q', pd.proposed.sequences.get? sequence.serial = some q' ∧
      q'.tokens = tokensOf p sequence ++ tokens := by
  obtain ⟨q, hq, htokens⟩ := hserves.get
  obtain ⟨pd', ho, hm⟩ := h.outstanding
  obtain rfl : pd' = pd := Option.some.inj (ho.pending.symm.trans hpd)
  obtain ⟨q', hq', htok, -, -⟩ := hm.reserved.grow _ q hq
  have hserial : ∀ row ∈ batch.rows.map (·.input), row.sequence.serial = sequence.serial := by
    intro row hrow
    rw [show batch.rows.map (·.input) = _ from h.rows] at hrow
    rw [sequence_of_mem_rowsAt hrow]
  have hrows : batch.rows.map (·.input) = _ := h.rows
  refine ⟨q', hq', ?_⟩
  rw [htok, rowsOf_eq_self hserial, hrows, map_token_rowsAt, htokens]

/-- Releasing exclusive pages sets their reference counts to zero, one by one. It fails at a page
that is shared or was there before. -/
theorem releasePages_ensures {before : Sequence} {pages : List PhysicalPage} {released : List ℕ}
    (hnd : released.Nodup) (hlt : ∀ a ∈ released, a < pages.length) :
    Ensures (released.foldlM (releasePage before) pages)
      (fun _ => ∃ a ∈ released, pages[a]? ≠ some ⟨1, false⟩ ∨ a ∈ before.pages) fun pages' =>
      pages'.length = pages.length ∧ ∀ a pg, pages[a]? = some pg →
        pages'[a]? = some (if a ∈ released then ⟨0, false⟩ else pg) := by
  refine (ensures_foldlM (d := [])
    (I := fun done rest pages' => done ++ rest = released ∧ pages'.length = pages.length ∧
      ∀ a pg, pages[a]? = some pg → pages'[a]? = some (if a ∈ done then ⟨0, false⟩ else pg))
    ⟨rfl, rfl, fun a pg h => by simpa using h⟩ ?_).mono (fun _ h => h) fun pages' _ h => ?_
  · rintro done a rest pages' ⟨hsplit, hlen, hget⟩
    have hmem : a ∈ released := hsplit ▸ by simp
    have hfresh : a ∉ done := by
      rw [← hsplit] at hnd
      exact fun hd => (List.nodup_append.mp hnd).2.2 a hd a List.mem_cons_self rfl
    have halt := hlt a hmem
    have hpg := List.getElem?_eq_getElem halt
    have hpg' := hget a _ hpg
    rw [if_neg hfresh] at hpg'
    rw [releasePage, hpg', orPanic, ok_bind]
    refine (ensures_failIf (Q := fun _ => pages[a].cached = false) (fun h => ?shared)
      fun h => ?_).bind fun _ _ hcached => ensures_pure.mpr
        ⟨by simpa using hsplit, by simpa using hlen, fun b pg hb => ?_⟩
    case shared =>
      refine ⟨a, hmem, ?_⟩
      rw [hpg]
      rcases h with h | h | h
      · exact .inl fun he => h (congrArg PhysicalPage.refs (Option.some.inj he))
      · refine .inl fun he => ?_
        rw [Option.some.inj he] at h
        cases h
      · exact .inr h
    · simp only [not_or, Bool.not_eq_true] at h
      exact h.2.1
    · by_cases hba : a = b
      · subst hba
        rw [List.getElem?_set_self (hlen ▸ halt)]
        simp [hcached]
      · rw [List.getElem?_set_ne hba, hget b pg hb]
        simp [Ne.symm hba]
  · simpa using h.2

/-- **Keeping a beginning.** The state keeps the committed tokens and the reserved ones up to
`stop`. -/
theorem prefixState_ensures {stop : ℕ} (h : Holding p sequence batch tokens)
    (hserves : Serves p sequence) :
    Ensures (prefixState p batch sequence stop) (fun _ => True) fun next =>
      StateInv p.limits next ∧ ∃ q, next.sequences.get? sequence.serial = some q ∧
        q.tokens = (tokensOf p sequence ++ tokens).take stop := by
  obtain ⟨before, hbefore, hcommitted⟩ := hserves.get
  obtain ⟨pd, ho, hm⟩ := h.outstanding
  obtain ⟨q, hq, htokens⟩ := h.proposed hserves ho.pending
  obtain ⟨lab, hc⟩ := hm.reserved.inv.coherent
  have hqmem := BTreeMap.mem_values.mpr ⟨_, hq⟩
  have hle := hc.tokens_le q hqmem
  have hplen := hc.pages_length q hqmem
  have hctx := hserves.inv.limits.context_le
  have hlt : before.tokens.length < q.tokens.length := by
    have := List.length_pos_iff.mpr h.nonempty
    rw [htokens, List.length_append, hcommitted]
    omega
  rw [prefixState]
  refine (ensures_fromPool (Q := fun _ => True)
    (requireBatch_ensures.mono (fun _ _ => trivial) fun _ _ _ => trivial)).bind fun _ _ _ => ?_
  refine (ensures_fromPool (Q := fun _ => True)
    ((checkInvariants_ensures hserves.inv).mono (fun _ _ => trivial)
      fun _ _ _ => trivial)).bind fun _ _ _ => ?_
  rw [ho.pending, orErr, ok_bind]
  refine (ensures_failIf (Q := fun _ => True) (fun _ => trivial) fun _ => trivial).bind
    fun _ _ _ => ?_
  simp only [hbefore, hq, orErr, ok_bind]
  refine (ensures_fromPool (Q := fun n => before.tokens.length = n)
    ((ensures_count (by omega) rfl).mono (fun _ _ => trivial) fun _ _ h => h)).bind fun n _ hn => ?_
  subst hn
  refine (ensures_failIf (Q := fun _ => before.tokens.length ≤ stop) (fun _ => trivial)
    fun hlo => by omega).bind fun _ _ hlo => ?_
  refine (ensures_fromPool (Q := fun n => q.tokens.length = n)
    ((ensures_count (by omega) rfl).mono (fun _ _ => trivial) fun _ _ h => h)).bind fun n _ hn => ?_
  subst hn
  refine (ensures_failIf (Q := fun _ => stop ≤ q.tokens.length) (fun _ => trivial)
    fun hhi => by omega).bind fun _ _ hhi => ?_
  rw [if_pos (by omega), orPanic, ok_bind]
  refine ((releasePages_ensures ((hc.pages_nodup q hqmem).sublist (List.drop_sublist _ _))
    fun a ha => hc.pages_lt q hqmem a (List.mem_of_mem_drop ha)).mono (fun _ _ => trivial)
      fun _ _ h => h).bind fun pages' _ hreleased => ?_
  obtain ⟨hlen, hget⟩ := hreleased
  have hinv := hm.reserved.truncate hbefore hq hlt hlo hhi hlen hget
  rw [validateState_of_inv hinv]
  refine ensures_pure.mpr ⟨hinv, _, BTreeMap.get?_insert_self, ?_⟩
  rw [htokens]

/-! ### Writing another token -/

/-- Put a token into a row. -/
def retoken (x : PreparedRow) (choice : Token) : PreparedRow :=
  { x with input := { x.input with token := choice } }

/-- **Patching.** The reservation, its proposed state and its rows, with the token of one row
replaced. -/
theorem Holding.patch {pd : Pending} {ordinal : ℕ} (h : Holding p sequence batch tokens)
    (choice : Token) (hserves : Serves p sequence)
    (hpd : p.pending = some pd) (hordinal : ordinal < tokens.length) :
    ∃ next rows, SpeculativeKv.patchState pd.proposed sequence.serial
        ((tokensOf p sequence).length + ordinal) choice = .ok next ∧
      SpeculativeKv.patchRow batch.rows ordinal choice = .ok rows ∧
      PoolInv { p with pending := some { pd with proposed := next } } ∧
      Holding { p with pending := some { pd with proposed := next } } sequence
        { batch with rows } (tokens.set ordinal choice) := by
  obtain ⟨q, hq, hcommitted⟩ := hserves.get
  obtain ⟨q', hq', htokens⟩ := h.proposed hserves hpd
  obtain ⟨pd', ho, hm⟩ := h.outstanding
  obtain rfl : pd' = pd := Option.some.inj (ho.pending.symm.trans hpd)
  have hrows : batch.rows.map (·.input) = _ := h.rows
  have hlen : batch.rows.length = tokens.length := by
    simpa using congrArg List.length hrows
  have hlt : ordinal < batch.rows.length := hlen ▸ hordinal
  obtain ⟨x, hx⟩ : ∃ x, batch.rows[ordinal]? = some x := ⟨_, List.getElem?_eq_getElem hlt⟩
  have hrow : SpeculativeKv.patchRow batch.rows ordinal choice =
      .ok (batch.rows.set ordinal (retoken x choice)) := by
    rw [SpeculativeKv.patchRow, hx]
    rfl
  have hinput : ∀ i : ℕ, (batch.rows[i]?).map PreparedRow.input =
      tokens[i]?.map fun token => ⟨sequence, token, (tokensOf p sequence).length + i⟩ := by
    intro i
    rw [← getElem?_rowsAt, ← hrows, List.getElem?_map]
  have hbound : (tokensOf p sequence).length + ordinal < q'.tokens.length := by
    rw [htokens, List.length_append]
    omega
  -- The rows keep their shape, and their tokens are the patched ones.
  have hshape : (batch.rows.set ordinal (retoken x choice)).map PagedPool.shape =
      batch.rows.map PagedPool.shape := by
    rw [List.map_set]
    refine List.ext_getElem? fun i => ?_
    by_cases hi : ordinal = i
    · subst hi
      rw [List.getElem?_set_self (by simpa using hlt), List.getElem?_map, hx]
      rfl
    · rw [List.getElem?_set_ne hi]
  have hpatched : (batch.rows.set ordinal (retoken x choice)).map (·.input) =
      rowsAt sequence (tokensOf p sequence).length (tokens.set ordinal choice) := by
    refine List.ext_getElem? fun i => ?_
    rw [List.getElem?_map, getElem?_rowsAt]
    by_cases hi : ordinal = i
    · subst hi
      rw [List.getElem?_set_self hlt, List.getElem?_set_self (hlen ▸ hlt)]
      have := hinput ordinal
      rw [hx, List.getElem?_eq_getElem (hlen ▸ hlt)] at this
      obtain ⟨input, pages, writePage⟩ := x
      simp only [Option.map_some, Option.some.injEq] at this
      simp [retoken, this]
    · rw [List.getElem?_set_ne hi, List.getElem?_set_ne hi]
      exact hinput i
  have htoken : q.tokens ++ (batch.rows.set ordinal (retoken x choice)).map (·.input.token) =
      q'.tokens.set ((tokensOf p sequence).length + ordinal) choice := by
    have := congrArg (List.map PageRow.token) hpatched
    rw [List.map_map, map_token_rowsAt] at this
    rw [htokens, List.set_append_right _ _ (by omega), Nat.add_sub_cancel_left, ← this, hcommitted]
    rfl
  have hserial : ∀ y ∈ batch.rows, y.input.sequence.serial = sequence.serial := by
    intro y hy
    have hmem := List.mem_map_of_mem (f := fun x : PreparedRow => x.input) hy
    rw [hrows] at hmem
    rw [sequence_of_mem_rowsAt hmem]
  obtain ⟨next, hnext, hnew⟩ : ∃ next, SpeculativeKv.patchState pd'.proposed sequence.serial
      ((tokensOf p sequence).length + ordinal) choice = .ok next ∧
        Minted p (batch.rows.set ordinal (retoken x choice)) next := by
    have hnew := hm.retoken hserial (List.ne_nil_of_length_pos (by omega)) hq hq' hshape
    rw [htoken] at hnew
    refine ⟨_, ?_, hnew⟩
    rw [SpeculativeKv.patchState, hq', orErr, ok_bind, failIf, if_neg (by omega)]
    rfl
  refine ⟨next, _, hnext, hrow,
    ⟨hserves.inv.limits, hserves.inv.capacity_le, hserves.inv.state, ?_⟩,
    ⟨⟨{ pd' with proposed := next }, ?_, hnew.congr rfl rfl rfl⟩, hpatched, ?_⟩⟩
  · intro pd₂ hpd₂
    obtain rfl := Option.some.inj hpd₂
    exact ⟨_, hnew.congr rfl rfl rfl⟩
  · exact ⟨ho.poisoned, ho.pool, ho.scope, ho.limits, rfl, ho.id⟩
  · have hpos : 0 < (tokens.set ordinal choice).length := by
      rw [List.length_set]
      omega
    exact List.ne_nil_of_length_pos hpos

/-- A token beyond the reservation is not written. -/
theorem Holding.patchIf {pd : Pending} (h : Holding p sequence batch tokens) (choice : Token)
    (hserves : Serves p sequence) (hpd : p.pending = some pd) (ordinal : ℕ) :
    ∃ next rows, (if ordinal < tokens.length then SpeculativeKv.patchState pd.proposed
        sequence.serial ((tokensOf p sequence).length + ordinal) choice
        else .ok pd.proposed) = .ok next ∧
      (if ordinal < batch.rows.length then SpeculativeKv.patchRow batch.rows ordinal choice
        else .ok batch.rows) = .ok rows ∧
      PoolInv { p with pending := some { pd with proposed := next } } ∧
      Holding { p with pending := some { pd with proposed := next } } sequence
        { batch with rows } (tokens.set ordinal choice) := by
  rw [h.length_rows]
  by_cases hlt : ordinal < tokens.length
  · rw [if_pos hlt, if_pos hlt]
    exact h.patch choice hserves hpd hlt
  · rw [if_neg hlt, if_neg hlt, List.set_eq_of_length_le (Nat.not_lt.mp hlt)]
    have hp : { p with pending := some { pd with proposed := pd.proposed } } = p := by
      rw [← hpd]
    exact ⟨_, _, rfl, rfl, hp.symm ▸ hserves.inv, hp.symm ▸ h⟩

end TpSpeculative

end Ferric
