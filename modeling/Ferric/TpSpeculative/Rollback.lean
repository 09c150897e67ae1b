import Ferric.TpSpeculative.Reservation

/-!
# Rolling back a rejected tail

A driver writes all rows of a speculative batch, and learns afterwards how many of them are
accepted.
`prefix_state` then keeps the accepted rows and gives back what the others took, and the result is
the state that a batch of the accepted rows alone would have committed.

Reserving rows of one sequence appends: tokens to the sequence, and one free page to its page list
at every sixteenth token (`Grown`). The pages are taken first-fit, row by row, so those of the first
rows do not depend on the rows behind them. The pages of the rejected rows were free before these
rows, and they are what remains of the page list behind the last accepted token.

## Main definitions

* `Grown` — a state, and the same state with one sequence grown

## Main results

* `reserveRows_grown`, `Grown.release` — reserving grows a sequence, and releasing undoes it
* `prefixState_eq` — the state that `prefix_state` computes
* `rollback_exact` — rolling back equals never having reserved
-/

namespace Ferric

namespace TpSpeculative

open TpPaged TpPaged.PagedPool Ferric.Action

open Spec hiding Token

/-! ### Growing one sequence -/

/-- `r'` is `r` with `tokens` appended to the sequence `q` of serial `k`, and with the free pages
`more` appended to its pages. -/
structure Grown (k : ℕ) (q : Sequence) (more : List ℕ) (tokens : List Token) (r r' : State) :
    Prop where
  get : r.sequences.get? k = some q
  eq : r' = { r with
    pages := r'.pages
    sequences := r.sequences.insert k ⟨q.tokens ++ tokens, q.pages ++ more⟩ }
  pages : ∀ a : ℕ, r'.pages[a]? = if a ∈ more then some ⟨1, false⟩ else r.pages[a]?
  fresh : ∀ a ∈ more, r.pages[a]? = some ⟨0, false⟩
  nodup : more.Nodup

variable {k : ℕ} {q before : Sequence} {more more' : List ℕ} {tokens tokens' : List Token}
  {r r' r'' : State} {p : PagedPool} {row : PageRow} {rows : List PageRow} {sequence : SequenceId}

theorem Grown.refl (h : r.sequences.get? k = some q) : Grown k q [] [] r r where
  get := h
  eq := by simp only [List.append_nil, BTreeMap.insert_eq_self h]
  pages a := by simp
  fresh a ha := by simp at ha
  nodup := List.nodup_nil

theorem Grown.get' (h : Grown k q more tokens r r') :
    r'.sequences.get? k = some ⟨q.tokens ++ tokens, q.pages ++ more⟩ := by
  rw [h.eq]
  exact BTreeMap.get?_insert_self

/-- One growth after another. -/
theorem Grown.trans (h : Grown k q more tokens r r')
    (h' : Grown k ⟨q.tokens ++ tokens, q.pages ++ more⟩ more' tokens' r' r'') :
    Grown k q (more ++ more') (tokens ++ tokens') r r'' := by
  -- a page that is free after the first growth was not taken by it
  have hfree : ∀ a ∈ more', a ∉ more ∧ r.pages[a]? = some ⟨0, false⟩ := by
    intro a ha
    have hpg := h'.fresh a ha
    rw [h.pages] at hpg
    split at hpg
    · simp at hpg
    · next hnot => exact ⟨hnot, hpg⟩
  refine ⟨h.get, ?_, fun a => ?_, fun a ha => ?_, ?_⟩
  · have heq := h'.eq
    rw [h.eq] at heq
    simp only [BTreeMap.insert_insert] at heq
    rw [heq]
    simp only [List.append_assoc]
  · rw [h'.pages, h.pages]
    by_cases ha' : a ∈ more'
    · rw [if_pos ha', if_pos (List.mem_append_right _ ha')]
    · simp [ha']
  · rcases List.mem_append.mp ha with ha | ha
    · exact h.fresh a ha
    · exact (hfree a ha).2
  · exact List.nodup_append'.mpr ⟨h.nodup, h'.nodup, fun a ha ha' => (hfree a ha').1 ha⟩

/-- One row grows its sequence by its token, and at a page boundary by the first free page. -/
theorem reserveRow_grown (h : reserveRow p r row = .ok r') :
    ∃ q more, Grown row.sequence.serial q more [row.token] r r' := by
  rw [reserveRow] at h
  obtain ⟨_, -, h⟩ := bind_eq_ok.mp h
  obtain ⟨q, hq, h⟩ := bind_eq_ok.mp h
  obtain ⟨_, -, h⟩ := bind_eq_ok.mp h
  obtain ⟨⟨s, q'⟩, hpage, h⟩ := bind_eq_ok.mp h
  obtain ⟨_, -, h⟩ := bind_eq_ok.mp h
  obtain ⟨_, -, h⟩ := bind_eq_ok.mp h
  obtain ⟨_, -, h⟩ := bind_eq_ok.mp h
  obtain rfl := Except.ok.inj h
  have hget := orErr_eq_ok.mp hq
  rw [reservePage] at hpage
  split at hpage
  · obtain ⟨free, hfree, hpage⟩ := bind_eq_ok.mp hpage
    obtain ⟨physical, hphysical, hpage⟩ := bind_eq_ok.mp hpage
    obtain ⟨a, ha, hpage⟩ := bind_eq_ok.mp hpage
    obtain ⟨rfl, rfl⟩ := Prod.mk.inj (Except.ok.inj hpage)
    obtain rfl := count_eq_ok ha
    obtain ⟨hlt, hunused, -⟩ := List.findIdx?_eq_some_iff_getElem.mp (orErr_eq_ok.mp hfree)
    have hpg := orPanic_eq_ok.mp hphysical
    obtain rfl := Option.some.inj ((List.getElem?_eq_getElem hlt).symm.trans hpg)
    have hfresh : r.pages[a] = ⟨0, false⟩ := by
      cases hpage : r.pages[a] with
      | mk refs cached =>
        rw [hpage] at hunused
        simpa using hunused
    refine ⟨q, [a], hget, rfl, fun b => ?_, fun b hb => ?_, List.nodup_singleton a⟩
    · simp only [List.mem_singleton, hfresh]
      split
      · next hb => rw [hb, List.getElem?_set_self hlt]
      · next hb => rw [List.getElem?_set_ne (Ne.symm hb)]
    · obtain rfl := List.mem_singleton.mp hb
      rw [hpg, hfresh]
  · obtain ⟨rfl, rfl⟩ := Prod.mk.inj (Except.ok.inj hpage)
    refine ⟨q, [], hget, ?_, fun a => by simp, fun a ha => by simp at ha, List.nodup_nil⟩
    simp only [List.append_nil]

/-- **Rows of one sequence** grow it by their tokens and by free pages. -/
theorem reserveRows_grown (hk : ∀ row ∈ rows, row.sequence.serial = k)
    (hq : r.sequences.get? k = some q) (h : rows.foldlM (reserveRow p) r = .ok r') :
    ∃ more, Grown k q more (rows.map (·.token)) r r' := by
  induction rows generalizing r q with
  | nil =>
    obtain rfl := Except.ok.inj h
    exact ⟨[], .refl hq⟩
  | cons row rows ih =>
    rw [List.foldlM_cons] at h
    obtain ⟨s, hrow, h⟩ := bind_eq_ok.mp h
    obtain ⟨q', more, hgrown⟩ := reserveRow_grown hrow
    obtain rfl := hk row List.mem_cons_self
    obtain rfl := Option.some.inj (hgrown.get.symm.trans hq)
    obtain ⟨more', hrest⟩ := ih (fun a ha => hk a (List.mem_cons_of_mem row ha)) hgrown.get' h
    exact ⟨more ++ more', hgrown.trans hrest⟩

/-- **Releasing undoes growing.** -/
theorem Grown.release (h : Grown k q more tokens r r') (hnew : ∀ a ∈ more, a ∉ before.pages) :
    more.foldlM (releasePage before) r'.pages = .ok r.pages := by
  have htaken : ∀ a ∈ more, r'.pages[a]? = some ⟨1, false⟩ := fun a ha => by
    rw [h.pages, if_pos ha]
  have hrelease : Ensures (more.foldlM (releasePage before) r'.pages) _ _ :=
    releasePages_ensures h.nodup fun a ha => (List.getElem?_eq_some_iff.mp (htaken a ha)).1
  obtain ⟨pages', hok, hlen, hget⟩ := (hrelease.mono (fun _ ⟨a, ha, hbad⟩ =>
    hbad.elim (absurd (htaken a ha)) (absurd · (hnew a ha))) fun _ _ h => h).exists_ok
  rw [hok]
  refine congrArg _ (List.ext_getElem? fun a => ?_)
  have hpage := h.pages a
  cases hpg : r'.pages[a]? with
  | none =>
    rw [hpg] at hpage
    rw [List.getElem?_eq_none (hlen ▸ List.getElem?_eq_none_iff.mp hpg)]
    split at hpage
    · cases hpage
    · exact hpage
  | some pg =>
    rw [hget a pg hpg]
    rw [hpg] at hpage
    split at hpage
    · next ha => rw [if_pos ha, h.fresh a ha]
    · next ha => rw [if_neg ha, hpage]

/-! ### A batch and its first rows -/

/-- A page that no one references is in no live sequence. -/
theorem not_mem_of_free {limits : PagedLimits} {a : ℕ} (h : StateInv limits r)
    (hq : r.sequences.get? k = some q) (ha : r.pages[a]? = some ⟨0, false⟩) : a ∉ q.pages := by
  obtain ⟨lab, hc⟩ := h.coherent
  have hrefs := hc.refs_eq a _ ha
  have hcount := count_le_seqRefs (p := a) (BTreeMap.mem_values.mpr ⟨k, hq⟩)
  refine List.count_eq_zero.mp ?_
  simp only at hrefs
  omega

/-- A live sequence has a page for every sixteen tokens, and one for what remains. -/
theorem length_pages_of_get? {limits : PagedLimits} (h : StateInv limits r)
    (hq : r.sequences.get? k = some q) : q.pages.length = (q.tokens.length + 15) / 16 := by
  obtain ⟨lab, hc⟩ := h.coherent
  exact hc.pages_length q (BTreeMap.mem_values.mpr ⟨k, hq⟩)

/-- The check of a sound pool that is not poisoned passes. -/
theorem checkInvariants_eq_ok (hp : p.PoolInv) (h : p.poisoned = false) :
    p.checkInvariants = .ok () := by
  rw [checkInvariants, failIf_of_not (by simp [h]), ok_bind, validateState_of_inv hp.state, ok_bind]
  cases hpd : p.pending with
  | none => rfl
  | some pd =>
    obtain ⟨prepared, hm⟩ := hp.pending pd hpd
    exact validateState_of_inv hm.reserved.inv

/-- An accepted batch can be submitted, and then holds the state its rows lead to. -/
structure Submitted (p : PagedPool) (rows : List PageRow) (batch : PreparedBatch) (r : State)
    (p' : PagedPool) : Prop where
  idle : p.Idle
  inv : p'.PoolInv
  outstanding : p'.Outstanding batch ⟨batch.id, true, r⟩
  state : p'.state = p.state
  limits : p'.limits = p.limits
  input : batch.rows.map (·.input) = rows
  reserved : Reserved p rows r
  run : rows.foldlM (reserveRow p) p.state = .ok r

theorem submitted_of_reserveBatch {batch : PreparedBatch} {p₁ : PagedPool} (hp : p.PoolInv)
    (h : p.reserveBatch rows = .ok (batch, p₁)) :
    ∃ r p₂, p₁.beginSubmission batch = .ok p₂ ∧ Submitted p rows batch r p₂ := by
  obtain ⟨r, hr⟩ := (reserveBatch_ensures hp).of_ok h
  have heq : p₁ = { p with
      nextBatch := p.nextBatch + 1
      pending := some ⟨batch.id, false, r⟩ } := hr.eq
  have hrun : rows.foldlM (reserveRow p) p.state = .ok r := by
    rw [reserveBatch] at h
    obtain ⟨_, -, h⟩ := bind_eq_ok.mp h
    obtain ⟨_, -, h⟩ := bind_eq_ok.mp h
    obtain ⟨_, -, h⟩ := bind_eq_ok.mp h
    obtain ⟨s, hs, h⟩ := bind_eq_ok.mp h
    obtain ⟨_, -, h⟩ := bind_eq_ok.mp h
    obtain ⟨_, -, h⟩ := bind_eq_ok.mp h
    have hpending := congrArg PagedPool.pending ((Prod.mk.inj (Except.ok.inj h)).2.trans heq)
    rw [hs]
    exact congrArg _ (congrArg Pending.proposed (Option.some.inj hpending))
  have hinv : p₁.PoolInv := hr.poolInv hp
  have hout : p₁.Outstanding batch ⟨batch.id, false, r⟩ := by
    subst heq
    exact ⟨hr.idle.1, hr.pool, hr.scope, hr.limits, rfl, rfl⟩
  have hbegins : Ensures (p₁.beginSubmission batch) _ _ := beginSubmission_ensures
  obtain ⟨p₂, hbegin, pd, ho, -, rfl⟩ :=
    (hbegins.mono (fun e he => absurd (he.2 _ hout) Bool.false_ne_true) fun _ _ h => h).exists_ok
  obtain rfl : pd = ⟨batch.id, false, r⟩ := Option.some.inj (ho.pending.symm.trans hout.pending)
  refine ⟨r, _, hbegin, hr.idle, ?_,
    ⟨hout.poisoned, hout.pool, hout.scope, hout.limits, rfl, rfl⟩, by rw [heq], by rw [heq],
    hr.input, hr.input ▸ hr.minted.reserved, hrun⟩
  exact hinv.keep rfl rfl rfl rfl fun pd' hpd' =>
    ⟨_, hout.pending, Option.some.inj hpd' ▸ rfl⟩

/-- A submitted batch is committed by its completion. -/
theorem Submitted.commit {batch : PreparedBatch} {p₂ : PagedPool}
    (h : Submitted p rows batch r p₂) :
    ∃ p₃, p₂.commitBatch batch (.afterAllRanks batch) = .ok p₃ ∧ p₃.state = r := by
  have hcommits : Ensures (p₂.commitBatch batch (.afterAllRanks batch)) _ _ := commitBatch_ensures
  obtain ⟨p₃, hcommit, pd, ho, -, rfl⟩ :=
    (hcommits.mono (fun e he => he.2 _ h.outstanding rfl rfl) fun _ _ h => h).exists_ok
  obtain rfl : pd = ⟨batch.id, true, r⟩ :=
    Option.some.inj (ho.pending.symm.trans h.outstanding.pending)
  exact ⟨_, hcommit, rfl⟩

/-- The first rows of an accepted batch are accepted too. -/
theorem reserveBatch_take {batch : PreparedBatch} {p₁ : PagedPool} {m : ℕ} (hp : p.PoolInv)
    (h : p.reserveBatch rows = .ok (batch, p₁)) (hpos : 0 < m) :
    ∃ first p₂, p.reserveBatch (rows.take m) = .ok (first, p₂) := by
  rw [reserveBatch] at h
  obtain ⟨_, hidle, h⟩ := bind_eq_ok.mp h
  obtain ⟨_, hshape, h⟩ := bind_eq_ok.mp h
  obtain ⟨next, hnext, h⟩ := bind_eq_ok.mp h
  obtain ⟨r, hr, -⟩ := bind_eq_ok.mp h
  rw [← List.take_append_drop m rows, List.foldlM_append] at hr
  obtain ⟨s, hs, -⟩ := bind_eq_ok.mp hr
  have hreserved := (reserveRows_ensures hp.limits hp.state).of_ok hs
  obtain ⟨prepared, hprepared, -⟩ :=
    (prepareRows_ensures (E := fun _ => False) hreserved).exists_ok
  obtain ⟨hne, hlen⟩ := not_or.mp (failIf_eq_ok.mp hshape)
  have htake : ¬ (rows.take m = [] ∨ (rows.take m).length > p.rowCapacity) := by
    rw [List.take_eq_nil_iff, List.length_take]
    rintro ((hm | hnil) | hlong)
    · omega
    · exact hne hnil
    · omega
  have hok : p.reserveBatch (rows.take m) = .ok
      (⟨p.identity, p.scope, p.nextBatch, p.limits, prepared⟩,
        { p with nextBatch := next, pending := some ⟨p.nextBatch, false, s⟩ }) := by
    rw [reserveBatch, hidle, ok_bind, failIf_of_not htake, ok_bind, hnext, ok_bind, hs, ok_bind,
      validateState_of_inv hreserved.inv, ok_bind, hprepared, ok_bind]
    rfl
  exact ⟨_, _, hok⟩

/-- The rows of one sequence stand at consecutive positions. -/
theorem position_of_getElem? {i : ℕ} (h : Reserved p rows r)
    (hk : ∀ row ∈ rows, row.sequence.serial = k) (hq : p.state.sequences.get? k = some q)
    (hrow : rows[i]? = some row) : row.position = q.tokens.length + i := by
  obtain ⟨-, -, -, -, hpositions⟩ := h.grow k q hq
  rw [rowsOf_eq_self hk] at hpositions
  have hi := (List.getElem?_eq_some_iff.mp hrow).1
  have hat := congrArg (·[i]?) hpositions
  simpa [hrow, List.getElem?_range' hi] using hat

/-- What `prefix_state` requires of a submitted batch holds of one sequence's rows. -/
theorem Submitted.bound {batch : PreparedBatch} {p₂ : PagedPool}
    (h : Submitted p rows batch r p₂) (hrows : ∀ row ∈ rows, row.sequence = sequence)
    (hq : p.state.sequences.get? sequence.serial = some q) :
    ¬ ((q.tokens.isPrefixOf (q.tokens ++ rows.map (·.token))) = false ∨
      (q.tokens ++ rows.map (·.token)).length - q.tokens.length ≠ batch.rows.length ∨
      (batch.rows.zipIdx.any fun (row, ordinal) =>
        row.input.sequence ≠ sequence ∨ row.input.position ≠ q.tokens.length + ordinal ∨
          (q.tokens ++ rows.map (·.token))[row.input.position]? ≠ some row.input.token) =
            true) := by
  have hlength := congrArg List.length h.input
  rw [List.length_map] at hlength
  rintro (hpre | hlen | hany)
  · rw [List.isPrefixOf_iff_prefix.mpr (List.prefix_append _ _)] at hpre
    cases hpre
  · rw [List.length_append, List.length_map] at hlen
    omega
  · obtain ⟨⟨x, i⟩, hx, hbad⟩ := List.any_eq_true.mp hany
    have hat : rows[i]? = some x.input := by
      rw [← h.input, List.getElem?_map, List.mem_zipIdx_iff_getElem?.mp hx]
      rfl
    have hsequence := hrows x.input (List.mem_of_getElem? hat)
    have hposition :=
      position_of_getElem? h.reserved (fun row hrow => by rw [hrows row hrow]) hq hat
    have htoken : (q.tokens ++ rows.map (·.token))[q.tokens.length + i]? = some x.input.token := by
      rw [List.getElem?_append_right (Nat.le_add_right _ _), Nat.add_sub_cancel_left,
        List.getElem?_map, hat]
      rfl
    simp [hsequence, hposition, htoken] at hbad

/-! ### Rolling back -/

/-- **The rolled-back state.** Keeping the first `m` rows of a submitted batch gives the state that
these rows lead to. -/
theorem prefixState_eq {batch : PreparedBatch} {p₂ : PagedPool} {s : State} {m : ℕ}
    (hp : p.PoolInv) (h : Submitted p rows batch r p₂)
    (hrows : ∀ row ∈ rows, row.sequence = sequence)
    (hq : p.state.sequences.get? sequence.serial = some q) (hle : m ≤ rows.length)
    (hs : (rows.take m).foldlM (reserveRow p) p.state = .ok s) :
    prefixState p₂ batch sequence (q.tokens.length + m) = .ok s := by
  have hserial : ∀ row ∈ rows, row.sequence.serial = sequence.serial := fun row hrow => by
    rw [hrows row hrow]
  have hfirst := (reserveRows_ensures hp.limits hp.state).of_ok hs
  -- the first rows grow the sequence, and the others grow it further
  obtain ⟨more, hkept⟩ := reserveRows_grown
    (fun row hrow => hserial row (List.mem_of_mem_take hrow)) hq hs
  have hrest : (rows.drop m).foldlM (reserveRow p) s = .ok r := by
    have hrun := h.run
    rw [← List.take_append_drop m rows, List.foldlM_append, hs] at hrun
    exact hrun
  obtain ⟨more', hrejected⟩ := reserveRows_grown
    (fun row hrow => hserial row (List.mem_of_mem_drop hrow)) hkept.get' hrest
  have hall := hkept.trans hrejected
  rw [← List.map_append, List.take_append_drop] at hall
  have hget := hall.get'
  -- sizes: the pages of the first rows are those that their last token needs
  have hpages : (q.pages ++ more).length = (q.tokens.length + m + 15) / 16 := by
    rw [length_pages_of_get? hfirst.inv hkept.get', List.length_append, List.length_map,
      List.length_take, Nat.min_eq_left hle]
  have hdrop : (q.pages ++ (more ++ more')).drop ((q.tokens.length + m + 15) / 16) = more' := by
    rw [← List.append_assoc, ← hpages, List.drop_left]
  have htake : (q.pages ++ (more ++ more')).take ((q.tokens.length + m + 15) / 16) =
      q.pages ++ more := by
    rw [← List.append_assoc, ← hpages, List.take_left]
  have hrequires : Ensures (p₂.requireBatch batch) _ _ := requireBatch_ensures
  obtain ⟨_, hrequire, -⟩ :=
    (hrequires.mono (fun e he => he.2 _ h.outstanding) fun _ _ h => h).exists_ok
  have hcheck := checkInvariants_eq_ok h.inv h.outstanding.poisoned
  rw [prefixState, hrequire, hcheck, h.outstanding.pending, h.state]
  simp only [fromPool, mapErr, orErr, ok_bind, hq, hget]
  have hmore := h.bound hrows hq
  have hlen : (q.tokens ++ rows.map (·.token)).length = q.tokens.length + rows.length := by
    rw [List.length_append, List.length_map]
  have hcontext : (q.tokens ++ rows.map (·.token)).length ≤ p.limits.contextTokens := by
    obtain ⟨lab, hc⟩ := h.reserved.inv.coherent
    exact hc.tokens_le _ (BTreeMap.mem_values.mpr ⟨_, hget⟩)
  have hle32 := hp.limits.context_le
  rw [failIf_of_not (by decide), ok_bind, count_of_lt (by omega)]
  simp only [ok_bind]
  rw [failIf_of_not (by omega), ok_bind, count_of_lt (by omega)]
  simp only [ok_bind]
  rw [failIf_of_not (not_or.mpr ⟨by omega, hmore⟩), ok_bind, if_pos ?fits, orPanic, ok_bind, hdrop,
    hrejected.release ?fresh, ok_bind]
  case fits =>
    rw [← hpages, ← List.append_assoc]
    exact (List.sublist_append_left _ _).length_le
  case fresh =>
    intro a ha hold
    exact not_mem_of_free hfirst.inv hkept.get' (hrejected.fresh a ha)
      (List.mem_append_left _ hold)
  -- what is left of the proposed state is the state after the first rows
  have htokens : (q.tokens ++ rows.map (·.token)).take (q.tokens.length + m) =
      q.tokens ++ (rows.take m).map (·.token) := by
    rw [List.take_length_add_append, List.map_take]
  have hnext : { r with
      pages := s.pages
      sequences := r.sequences.insert sequence.serial
        ⟨q.tokens ++ (rows.take m).map (·.token), q.pages ++ more⟩ } = s := by
    rw [hrejected.eq]
    simp only [BTreeMap.insert_insert, BTreeMap.insert_eq_self hkept.get']
  rw [htokens, htake, hnext, h.limits, validateState_of_inv hfirst.inv]
  rfl

/-- **Rolling back equals never having reserved.** -/
theorem rollback_exact {batch : PreparedBatch} {p₁ : PagedPool} {m : ℕ}
    (h : poolSystem.Reachable p) (hrows : ∀ row ∈ rows, row.sequence = sequence)
    (hreserve : p.reserveBatch rows = .ok (batch, p₁)) (hpos : 0 < m) (hle : m ≤ rows.length) :
    ∃ committed p₂ next, p.committedPosition sequence = .ok committed ∧
      p₁.beginSubmission batch = .ok p₂ ∧
      prefixState p₂ batch sequence (committed + m) = .ok next ∧
      (∃ first q₁ q₂ q₃, p.reserveBatch (rows.take m) = .ok (first, q₁) ∧
        q₁.beginSubmission first = .ok q₂ ∧
        q₂.commitBatch first (.afterAllRanks first) = .ok q₃ ∧ q₃.state = next) ∧
      (∀ k ≠ sequence.serial, next.sequences.get? k = p.state.sequences.get? k) ∧
      next.nodes = p.state.nodes := by
  have hp := poolInv_of_reachable h
  obtain ⟨r, p₂, hbegin, hsub⟩ := submitted_of_reserveBatch hp hreserve
  obtain ⟨first, q₁, hfirst⟩ := reserveBatch_take hp hreserve hpos
  obtain ⟨s, q₂, hbegin', hsub'⟩ := submitted_of_reserveBatch hp hfirst
  obtain ⟨q₃, hcommit, hstate⟩ := hsub'.commit
  have hserves : Serves p sequence := by
    have hmem := List.getElem_mem (Nat.lt_of_lt_of_le hpos hle)
    exact ⟨hp, hrows _ hmem ▸ hsub.reserved.live _ hmem⟩
  obtain ⟨q, hq, htokens⟩ := hserves.get
  obtain ⟨more, hgrown⟩ := reserveRows_grown
    (fun row hrow => by rw [hrows row (List.mem_of_mem_take hrow)]) hq hsub'.run
  refine ⟨_, p₂, s, hserves.committedPosition_eq hsub.idle.1, hbegin, ?_,
    ⟨first, q₁, q₂, q₃, hfirst, hbegin', hcommit, hstate⟩, fun k hk => ?_, hsub'.reserved.nodes⟩
  · rw [htokens]
    exact prefixState_eq hp hsub hrows hq hle hsub'.run
  · rw [hgrown.eq]
    exact BTreeMap.get?_insert_of_ne hk

/-- A request whose prefix of fourteen tokens is committed. -/
def fourteenCalls : List Call :=
  [.openSequence smallPool.scope (List.range 15) 3] ++
    batchCalls 1 (rowsAt ⟨1, 1⟩ 0 (List.range 14))

/-- Four rows across a page boundary: keeping two of them gives the second page back. -/
theorem rollback_exact_boundary :
    ∃ p batch p₁ p₂ next, poolSystem.Reachable p ∧
      p.reserveBatch (rowsAt ⟨1, 1⟩ 14 [5, 6, 7, 8]) = .ok (batch, p₁) ∧
      p₁.beginSubmission batch = .ok p₂ ∧ prefixState p₂ batch ⟨1, 1⟩ 16 = .ok next ∧
      next.nodes = p.state.nodes := by
  have hrun : (smallPool.runCalls fourteenCalls).map (fun p => (p.committedPosition ⟨1, 1⟩,
      (p.reserveBatch (rowsAt ⟨1, 1⟩ 14 [5, 6, 7, 8])).toOption.isSome)) =
      .ok (.ok 14, true) := by
    decide +kernel
  cases hr : smallPool.runCalls fourteenCalls with
  | error e => simp [hr, Except.map] at hrun
  | ok p =>
    simp only [hr, Except.map, Except.ok.injEq, Prod.mk.injEq] at hrun
    obtain ⟨hcommitted, hok⟩ := hrun
    have h := reachable_of_runCalls (.init fresh_smallPool) hr
    cases hx : p.reserveBatch (rowsAt ⟨1, 1⟩ 14 [5, 6, 7, 8]) with
    | error e => simp [hx, Except.toOption] at hok
    | ok x =>
      obtain ⟨committed, p₂, next, hposition, hbegin, hprefix, -, -, hnodes⟩ :=
        rollback_exact (m := 2) h (fun row => sequence_of_mem_rowsAt) hx (by decide) (by decide)
      obtain rfl : 14 = committed := Except.ok.inj (hcommitted.symm.trans hposition)
      exact ⟨p, x.1, x.2, p₂, next, h, hx, hbegin, hprefix, hnodes⟩

end TpSpeculative

end Ferric
