import Ferric.TpSpeculative.Rollback

/-!
# Other tokens in the same rows

Which pages a reservation takes depends on the positions of its rows and not on their tokens. Hence
a reservation that is made with placeholders, and into which the tokens are written afterwards, is
the reservation that is made with these tokens in the first place.

## Main definitions

* `retokenState`, `retokenRows`, `retokenBatch` — a proposed state, prepared rows, and a batch with
  other tokens for one sequence
* `held`, `Reserves` — a pool that waits for a batch, and the reservation it made for it

## Main results

* `reserveBatch_retoken` — reserving commutes with replacing the tokens, also when it fails
* `patchState_retoken`, `patchRow_retoken` — writing one token replaces one of them
* `Reserves.retoken` — a reservation with other tokens is a reservation
-/

namespace Ferric

namespace TpSpeculative

open TpPaged TpPaged.PagedPool Ferric.Action

open Spec hiding Token

variable {k start : ℕ} {q : Sequence} {r r' : State} {p : PagedPool} {sequence : SequenceId}
  {row : PageRow} {ts us old new : List Token} {t u : Token}

/-! ### States -/

/-- The sequence of serial `k` has other tokens. -/
def retokenState (k : ℕ) (tokens : List Token) (r : State) : State :=
  match r.sequences.get? k with
  | some q => { r with sequences := r.sequences.insert k { q with tokens } }
  | none => r

theorem retokenState_eq (h : r.sequences.get? k = some q) (tokens : List Token) :
    retokenState k tokens r =
      { r with sequences := r.sequences.insert k ⟨tokens, q.pages⟩ } := by
  rw [retokenState, h]

theorem retokenState_get? (h : r.sequences.get? k = some q) (tokens : List Token) :
    (retokenState k tokens r).sequences.get? k = some ⟨tokens, q.pages⟩ := by
  rw [retokenState_eq h]
  exact BTreeMap.get?_insert_self

theorem retokenState_self (h : r.sequences.get? k = some q) : retokenState k q.tokens r = r := by
  rw [retokenState_eq h, BTreeMap.insert_eq_self h]

/-- Writing one token into a state whose tokens are known. -/
theorem patchState_retoken {position : ℕ} (h : r.sequences.get? k = some q)
    (hlt : position < new.length) (choice : Token) :
    SpeculativeKv.patchState (retokenState k new r) k position choice =
      .ok (retokenState k (new.set position choice) r) := by
  rw [SpeculativeKv.patchState, retokenState_get? h, orErr, ok_bind,
    failIf_of_not (Nat.not_le.mpr hlt), ok_bind, retokenState_eq h, retokenState_eq h]
  simp only [BTreeMap.insert_insert]
  rfl

/-! ### Rows -/

/-- Prepared rows with other tokens, one for each. -/
def retokenRows (rows : List PreparedRow) (tokens : List Token) : List PreparedRow :=
  rows.zipWith retoken tokens

theorem patchRow_retoken {rows : List PreparedRow} {ordinal : ℕ} (hlen : new.length = rows.length)
    (hlt : ordinal < new.length) (choice : Token) :
    SpeculativeKv.patchRow (retokenRows rows new) ordinal choice =
      .ok (retokenRows rows (new.set ordinal choice)) := by
  have hrow : (retokenRows rows new)[ordinal]? = some (retoken rows[ordinal] new[ordinal]) := by
    simp only [retokenRows, List.getElem?_zipWith, List.getElem?_eq_getElem hlt,
      List.getElem?_eq_getElem (hlen ▸ hlt)]
  rw [SpeculativeKv.patchRow, hrow, orPanic, ok_bind]
  refine congrArg _ (List.ext_getElem? fun i => ?_)
  simp only [retokenRows, List.getElem?_set, List.length_zipWith, List.getElem?_zipWith]
  by_cases hi : ordinal = i
  · subst hi
    rw [if_pos rfl, if_pos (by omega), if_pos rfl, if_pos hlt,
      List.getElem?_eq_getElem (hlen ▸ hlt)]
    rfl
  · rw [if_neg hi, if_neg hi]

/-- A row takes the same page whatever its token, and whatever the tokens before it. -/
theorem reserveRow_retoken {position : ℕ} (hq : r.sequences.get? sequence.serial = some q)
    (hlen : us.length = q.tokens.length) :
    reserveRow p (retokenState sequence.serial us r) ⟨sequence, u, position⟩ =
      retokenState sequence.serial (us ++ [u]) <$> reserveRow p r ⟨sequence, t, position⟩ := by
  have hadd : ∀ (pages : List PhysicalPage) (s : List ℕ),
      retokenState sequence.serial (us ++ [u]) { r with
        pages
        sequences := r.sequences.insert sequence.serial ⟨q.tokens ++ [t], s⟩ } =
      { r with
        pages
        sequences := (r.sequences.insert sequence.serial ⟨us, q.pages⟩).insert sequence.serial
          ⟨us ++ [u], s⟩ } := by
    intro pages s
    rw [retokenState_eq BTreeMap.get?_insert_self]
    simp only [BTreeMap.insert_insert]
  rw [reserveRow, reserveRow, retokenState_get? hq, hq]
  simp only [orErr, ok_bind, hlen, map_bind]
  refine congrArg _ (funext fun _ => congrArg _ (funext fun _ => ?_))
  rw [reservePage, reservePage, retokenState_eq hq]
  split
  · simp only [bind_assoc, pure_bind, map_pure, hadd]
  · simp only [pure_bind, map_pure, hadd]

theorem rowsAt_cons : rowsAt sequence start (t :: ts) =
    ⟨sequence, t, start⟩ :: rowsAt sequence (start + 1) ts := by
  simp [rowsAt, List.zipIdx_cons]

/-- **Rows take the same pages** whatever their tokens. -/
theorem reserveRows_retoken (hq : r.sequences.get? sequence.serial = some q)
    (hold : old.length = q.tokens.length) (hlen : us.length = ts.length) :
    (rowsAt sequence start us).foldlM (reserveRow p) (retokenState sequence.serial old r) =
      retokenState sequence.serial (old ++ us) <$>
        (rowsAt sequence start ts).foldlM (reserveRow p) r := by
  induction ts generalizing us old r q start with
  | nil =>
    obtain rfl := List.length_eq_zero_iff.mp hlen
    simp [rowsAt]
  | cons t ts ih =>
    obtain ⟨u, us, rfl⟩ := List.exists_cons_of_length_pos (by simp [hlen] : 0 < us.length)
    rw [rowsAt_cons, rowsAt_cons, List.foldlM_cons, List.foldlM_cons, reserveRow_retoken hq hold,
      map_bind, bind_map_left]
    cases hrow : reserveRow p r ⟨sequence, t, start⟩ with
    | error e => rfl
    | ok r' =>
      obtain ⟨q', more, hgrown⟩ := reserveRow_grown hrow
      obtain rfl := Option.some.inj (hgrown.get.symm.trans hq)
      rw [ok_bind, ok_bind, ih hgrown.get' (by simp [hold]) (by simpa using hlen),
        List.append_assoc, List.singleton_append]

/-- The metadata of a row is read from its pages. -/
theorem prepareRow_retoken {position : ℕ} (hq : r.sequences.get? sequence.serial = some q) :
    prepareRow (retokenState sequence.serial new r) ⟨sequence, u, position⟩ =
      (retoken · u) <$> prepareRow r ⟨sequence, t, position⟩ := by
  rw [prepareRow, prepareRow, retokenState_get? hq, hq]
  simp only [orPanic, ok_bind, map_bind, map_pure, retoken]

theorem prepareRows_retoken (hq : r.sequences.get? sequence.serial = some q)
    (hlen : us.length = ts.length) :
    (rowsAt sequence start us).mapM (prepareRow (retokenState sequence.serial new r)) =
      (retokenRows · us) <$> (rowsAt sequence start ts).mapM (prepareRow r) := by
  induction ts generalizing us start with
  | nil =>
    obtain rfl := List.length_eq_zero_iff.mp hlen
    simp [rowsAt, retokenRows]
  | cons t ts ih =>
    obtain ⟨u, us, rfl⟩ := List.exists_cons_of_length_pos (by simp [hlen] : 0 < us.length)
    rw [rowsAt_cons, rowsAt_cons, List.mapM_cons, List.mapM_cons, prepareRow_retoken (t := t) hq,
      ih (by simpa using hlen)]
    simp only [map_bind, bind_map_left, map_pure, retokenRows, List.zipWith_cons_cons]

/-! ### Batches -/

/-- A batch with other tokens in its rows. -/
def retokenBatch (tokens : List Token) (batch : PreparedBatch) : PreparedBatch :=
  { batch with rows := retokenRows batch.rows tokens }

/-- The pool waits for a batch that proposes `r`. -/
def held (p : PagedPool) (batch : PreparedBatch) (r : State) (next : ℕ) (submitted : Bool) :
    PagedPool :=
  { p with nextBatch := next, pending := some ⟨batch.id, submitted, r⟩ }

/-- **Reserving commutes with replacing the tokens.** -/
theorem reserveBatch_retoken (hserves : Serves p sequence) (hlen : us.length = ts.length) :
    p.reserveBatch (rowsAt sequence start us) =
      (fun x => (retokenBatch us x.1, { x.2 with pending := x.2.pending.map fun pd =>
        { pd with proposed :=
          retokenState sequence.serial (tokensOf p sequence ++ us) pd.proposed } })) <$>
        p.reserveBatch (rowsAt sequence start ts) := by
  obtain ⟨q, hq, htokens⟩ := hserves.get
  have hp := hserves.inv
  have hrun : (rowsAt sequence start us).foldlM (reserveRow p) _ = _ :=
    reserveRows_retoken hq rfl hlen
  rw [retokenState_self hq, ← htokens] at hrun
  have hnil : rowsAt sequence start us = [] ↔ rowsAt sequence start ts = [] := by
    rw [← List.length_eq_zero_iff, ← List.length_eq_zero_iff, length_rowsAt, length_rowsAt, hlen]
  rw [reserveBatch, reserveBatch, hrun]
  simp only [length_rowsAt, hnil, hlen, map_bind, bind_map_left]
  refine congrArg _ (funext fun _ => congrArg _ (funext fun _ => congrArg _ (funext fun _ => ?_)))
  cases hr : (rowsAt sequence start ts).foldlM (reserveRow p) p.state with
  | error e => rfl
  | ok r =>
    rw [hr] at hrun
    obtain ⟨more, hgrown⟩ :=
      reserveRows_grown (fun row hrow => by rw [sequence_of_mem_rowsAt hrow]) hq hr
    have hold := (reserveRows_ensures hp.limits hp.state).of_ok hr
    have hnew := (reserveRows_ensures hp.limits hp.state).of_ok hrun
    show (do
        validateState (retokenState sequence.serial (tokensOf p sequence ++ us) r) p.limits
        let prepared ← (rowsAt sequence start us).mapM
          (prepareRow (retokenState sequence.serial (tokensOf p sequence ++ us) r))
        _) = (do
        validateState r p.limits
        _)
    rw [validateState_of_inv hold.inv, validateState_of_inv hnew.inv, ok_bind, ok_bind,
      prepareRows_retoken hgrown.get' hlen, bind_map_left]
    rfl

/-- The pool has reserved the tokens for the sequence, behind the committed ones. -/
structure Reserves (p : PagedPool) (sequence : SequenceId) (tokens : List Token)
    (batch : PreparedBatch) (r : State) : Prop where
  serves : Serves p sequence
  eq : p.reserveBatch (rowsAt sequence (tokensOf p sequence).length tokens) =
    .ok (batch, held p batch r (p.nextBatch + 1) false)

theorem Serves.reserves {batch : PreparedBatch} {p' : PagedPool} (h : Serves p sequence)
    (hreserve : p.reserveBatch (rowsAt sequence (tokensOf p sequence).length ts) =
      .ok (batch, p')) :
    ∃ r, Reserves p sequence ts batch r ∧ p' = held p batch r (p.nextBatch + 1) false := by
  obtain ⟨r, hr⟩ := (reserveBatch_ensures h.inv).of_ok hreserve
  have heq : p' = held p batch r (p.nextBatch + 1) false := hr.eq
  exact ⟨r, ⟨h, heq ▸ hreserve⟩, heq⟩

namespace Reserves

variable {batch : PreparedBatch} {tokens : List Token}

/-- **Other tokens.** A reservation with other tokens is the reservation of these. -/
theorem retoken (h : Reserves p sequence ts batch r) (hlen : us.length = ts.length) :
    Reserves p sequence us (retokenBatch us batch)
      (retokenState sequence.serial (tokensOf p sequence ++ us) r) := by
  refine ⟨h.serves, ?_⟩
  rw [reserveBatch_retoken h.serves hlen, h.eq]
  rfl

/-- Its own tokens are no other ones. -/
theorem retoken_self (h : Reserves p sequence tokens batch r) :
    retokenBatch tokens batch = batch ∧
      retokenState sequence.serial (tokensOf p sequence ++ tokens) r = r := by
  have heq := Except.ok.inj ((h.retoken rfl).eq.symm.trans h.eq)
  obtain ⟨hbatch, hpool⟩ := Prod.mk.inj heq
  have hpending := Option.some.inj (congrArg PagedPool.pending hpool)
  exact ⟨hbatch, congrArg Pending.proposed hpending⟩

/-- A reservation in terms of what it mints. -/
theorem prepared (h : Reserves p sequence tokens batch r) :
    p.Prepared (rowsAt sequence (tokensOf p sequence).length tokens) batch
      (held p batch r (p.nextBatch + 1) false) r := by
  obtain ⟨r', hr⟩ := (reserveBatch_ensures h.serves.inv).of_ok h.eq
  have heq : held p batch r (p.nextBatch + 1) false = _ := hr.eq
  have hpending := congrArg PagedPool.pending heq
  obtain rfl : r = r' := congrArg Pending.proposed (Option.some.inj hpending)
  exact hr

theorem inv (h : Reserves p sequence tokens batch r) : StateInv p.limits r :=
  h.prepared.minted.reserved.inv

theorem poolInv (h : Reserves p sequence tokens batch r) (next : ℕ) (submitted : Bool) :
    (held p batch r next submitted).PoolInv :=
  (h.prepared.poolInv h.serves.inv).keep rfl rfl rfl rfl fun _ hpd =>
    ⟨_, rfl, Option.some.inj hpd ▸ rfl⟩

theorem outstanding (h : Reserves p sequence tokens batch r) (next : ℕ) (submitted : Bool) :
    (held p batch r next submitted).Outstanding batch ⟨batch.id, submitted, r⟩ :=
  ⟨h.prepared.idle.1, h.prepared.pool, h.prepared.scope, h.prepared.limits, rfl, rfl⟩

theorem requireBatch (h : Reserves p sequence tokens batch r) (next : ℕ) (submitted : Bool) :
    (held p batch r next submitted).requireBatch batch = .ok () := by
  have hx : Ensures ((held p batch r next submitted).requireBatch batch) _ _ :=
    requireBatch_ensures
  obtain ⟨_, hok, -⟩ := (hx.mono (fun e he => he.2 _ (h.outstanding next submitted))
    fun _ _ h => h).exists_ok
  exact hok

theorem checkInvariants (h : Reserves p sequence tokens batch r) (next : ℕ) (submitted : Bool) :
    (held p batch r next submitted).checkInvariants = .ok () :=
  checkInvariants_eq_ok (h.poolInv next submitted) h.prepared.idle.1

theorem beginSubmission (h : Reserves p sequence tokens batch r) (next : ℕ) :
    (held p batch r next false).beginSubmission batch = .ok (held p batch r next true) := by
  rw [PagedPool.beginSubmission, h.requireBatch next false]
  rfl

theorem inputs_eq (h : Reserves p sequence tokens batch r) :
    inputs batch = rowsAt sequence (tokensOf p sequence).length tokens :=
  h.prepared.input

theorem length_rows (h : Reserves p sequence tokens batch r) :
    batch.rows.length = tokens.length := by
  have := congrArg List.length h.inputs_eq
  simpa [inputs] using this

/-- The reserved tokens stand behind the committed ones. -/
theorem get (h : Reserves p sequence tokens batch r) :
    ∃ q, r.sequences.get? sequence.serial = some q ∧ q.tokens = tokensOf p sequence ++ tokens := by
  obtain ⟨q, hq, htokens⟩ := h.serves.get
  obtain ⟨q', hq', htoks, -, -⟩ := h.prepared.minted.reserved.grow _ q hq
  rw [h.prepared.input, rowsOf_eq_self fun row hrow => by rw [sequence_of_mem_rowsAt hrow],
    map_token_rowsAt, ← htokens] at htoks
  exact ⟨q', hq', htoks⟩

/-- A beginning of a submitted reservation can be kept. What is kept does not depend on the number
of the pool's next batch. -/
theorem prefixState_eq {m : ℕ} (h : Reserves p sequence tokens batch r)
    (hle : m ≤ tokens.length) :
    ∃ s q, (∀ next, prefixState (held p batch r next true) batch sequence
        ((tokensOf p sequence).length + m) = .ok s) ∧
      s.sequences.get? sequence.serial = some q ∧
        q.tokens = tokensOf p sequence ++ tokens.take m := by
  obtain ⟨q, hq, htokens⟩ := h.serves.get
  obtain ⟨r', p₂, hbegin, hsub⟩ := submitted_of_reserveBatch h.serves.inv h.eq
  obtain rfl := Except.ok.inj ((h.beginSubmission _).symm.trans hbegin)
  -- the first rows alone lead to the kept state
  have hrun := hsub.run
  rw [← List.take_append_drop m (rowsAt _ _ _), List.foldlM_append] at hrun
  obtain ⟨s, hs, -⟩ := bind_eq_ok.mp hrun
  obtain ⟨more, hgrown⟩ := reserveRows_grown (fun row hrow => by
    rw [sequence_of_mem_rowsAt (List.mem_of_mem_take hrow)]) hq hs
  have hprefix := TpSpeculative.prefixState_eq h.serves.inv hsub
    (fun row => sequence_of_mem_rowsAt) hq (by simpa using hle) hs
  refine ⟨s, _, fun next => ?_, hgrown.get', ?_⟩
  · rw [htokens]
    exact hprefix
  · rw [List.map_take, map_token_rowsAt, htokens]

end Reserves

end TpSpeculative

end Ferric
