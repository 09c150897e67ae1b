import Ferric.TpBatchRuntime.Model
import Ferric.TpPaged.Pool
import Ferric.TpScheduler.Stream

/-!
# The scheduler and the pool agree

Scheduler and pool evolve separately: they have clocks, capacities and error checks of their own.
What ties them is the list of bindings. `Bound` says that it pairs the retained requests with the
live sequences, and that a sequence holds exactly the tokens its request has committed.

## Main definitions

* `Agrees`, `Bound` — one pair, and all of them
* `Paired` — the pool's rows of a scheduled batch

## Main results

* `Bound.fits` — the rows of a scheduled batch fit the pool
* `Bound.commit` — a batch that is committed on both sides keeps the agreement
* `Bound.admit`, `Bound.retire`
-/

namespace Ferric

namespace TpBatchRuntime

open TpPaged (PagedError PagedPool PageRow PreparedBatch SequenceId Sequence)
open TpScheduler (SchedulerError Scheduler BatchRow RequestId RequestAdmission RequestRecord
  RowChoice ScheduledBatch OutputEvent Token Selected)

/-- The sequence holds the tokens that the request has committed. -/
structure Agrees (r : RequestRecord) (q : Sequence) : Prop where
  tokens : q.tokens = (r.promptTokens ++ r.generatedTokens).take r.committedPosition
  length : q.tokens.length = r.committedPosition

/-- The bindings pair retained requests with live sequences. -/
structure Bound (identity : ℕ) (sequences : BTreeMap ℕ Sequence) (s : Scheduler)
    (bindings : List (RequestId × SequenceId)) : Prop where
  requests_nodup : (bindings.map Prod.fst).Nodup
  sequences_nodup : (bindings.map Prod.snd).Nodup
  agree : ∀ b ∈ bindings, ∃ i r q, s.Retains i r ∧ r.id = b.1 ∧ b.2.pool = identity ∧
    sequences.get? b.2.serial = some q ∧ Agrees r q
  request : ∀ i r, s.Retains i r → ∃ b ∈ bindings, b.1 = r.id
  sequence : ∀ k q, sequences.get? k = some q → ∃ b ∈ bindings, b.2 = ⟨identity, k⟩

variable {identity : ℕ} {sequences : BTreeMap ℕ Sequence} {s : Scheduler}
  {bindings : List (RequestId × SequenceId)} {rows : List BatchRow} {paged : List PageRow}

/-- The pool's row for a scheduled row. -/
structure Paired (bindings : List (RequestId × SequenceId)) (row : BatchRow) (page : PageRow) :
    Prop where
  bound : (row.request, page.sequence) ∈ bindings
  token : page.token = row.tokenId
  position : page.position = row.absolutePosition

theorem paired_positions (hall : List.Forall₂ (Paired bindings) rows paged) :
    paged.map (·.position) = rows.map (·.absolutePosition) := by
  induction hall with
  | nil => rfl
  | cons hp _ ih => rw [List.map_cons, List.map_cons, hp.position, ih]

theorem paired_tokens (hall : List.Forall₂ (Paired bindings) rows paged) :
    paged.map (·.token) = rows.map (·.tokenId) := by
  induction hall with
  | nil => rfl
  | cons hp _ ih => rw [List.map_cons, List.map_cons, hp.token, ih]

namespace Bound

theorem fst_inj (h : Bound identity sequences s bindings) {b c : RequestId × SequenceId}
    (hb : b ∈ bindings) (hc : c ∈ bindings) (he : b.1 = c.1) : b = c :=
  List.inj_on_of_nodup_map h.requests_nodup hb hc he

theorem snd_inj (h : Bound identity sequences s bindings) {b c : RequestId × SequenceId}
    (hb : b ∈ bindings) (hc : c ∈ bindings) (he : b.2 = c.2) : b = c :=
  List.inj_on_of_nodup_map h.sequences_nodup hb hc he

/-- Looking a binding up. -/
theorem sequenceOf_eq (h : Bound identity sequences s bindings) {b : RequestId × SequenceId}
    (hb : b ∈ bindings) : sequenceOf bindings b.1 = some b.2 := by
  rw [sequenceOf]
  cases hfind : bindings.find? fun binding => binding.1 = b.1 with
  | none =>
    have := List.find?_eq_none.mp hfind b hb
    simp at this
  | some c =>
    have hc := List.mem_of_find?_eq_some hfind
    have he := List.find?_some hfind
    rw [h.fst_inj hc hb (by simpa using he)]
    rfl

/-- The request and the sequence of a retained request. -/
theorem of_retains (h : Bound identity sequences s bindings) (hs : s.SchedulerInv) {i : Fin 32}
    {r : RequestRecord} (hr : s.Retains i r) :
    ∃ k q, (r.id, ⟨identity, k⟩) ∈ bindings ∧ sequences.get? k = some q ∧ Agrees r q := by
  obtain ⟨b, hb, hid⟩ := h.request i r hr
  obtain ⟨j, r', q, hr', hid', hpool, hq, hagree⟩ := h.agree b hb
  obtain rfl := hs.slot_inj hr hr' (hid.symm.trans hid'.symm)
  obtain rfl : r = r' := Option.some.inj (hr.symm.trans hr')
  refine ⟨b.2.serial, q, ?_, hq, hagree⟩
  rw [← hid, ← hpool]
  exact hb

/-- Every scheduled row has a binding. -/
theorem pageRows_eq (h : Bound identity sequences s bindings)
    (hrows : ∀ row ∈ rows, ∃ i r, s.Retains i r ∧ row.request = r.id) :
    ∃ paged, pageRows bindings rows = some paged ∧
      List.Forall₂ (Paired bindings) rows paged := by
  rw [pageRows]
  induction rows with
  | nil => exact ⟨[], rfl, .nil⟩
  | cons row rows ih =>
    obtain ⟨paged, hpaged, hall⟩ := ih fun a ha => hrows a (.tail _ ha)
    obtain ⟨i, r, hr, hid⟩ := hrows row List.mem_cons_self
    obtain ⟨b, hb, hbid⟩ := h.request i r hr
    have hreq : b.1 = row.request := hbid.trans hid.symm
    have hseq : sequenceOf bindings row.request = some b.2 := hreq ▸ h.sequenceOf_eq hb
    refine ⟨⟨b.2, row.tokenId, row.absolutePosition⟩ :: paged, ?_,
      .cons ⟨hreq ▸ hb, rfl, rfl⟩ hall⟩
    rw [List.mapM_cons, hseq, hpaged]
    rfl

/-- The rows of a request are the rows of its sequence. -/
theorem rowsOf_paired (h : Bound identity sequences s bindings) {r : RequestRecord} {k : ℕ}
    (hb : (r.id, ⟨identity, k⟩) ∈ bindings) (hall : List.Forall₂ (Paired bindings) rows paged) :
    List.Forall₂ (Paired bindings) (TpScheduler.rowsOf r.id rows) (PagedPool.rowsOf k paged) := by
  refine List.rel_filter ?_ hall
  intro row page hp
  have hiff : row.request = r.id ↔ page.sequence.serial = k := by
    constructor
    · intro hid
      exact congrArg (fun b => b.2.serial) (h.fst_inj hp.bound hb hid)
    · intro hk
      obtain ⟨-, -, -, -, -, hpool, -, -⟩ := h.agree _ hp.bound
      have hsnd : page.sequence = ⟨identity, k⟩ := by
        cases hseq : page.sequence
        simp_all
      exact congrArg Prod.fst (h.snd_inj hp.bound hb hsnd)
  simpa using hiff

end Bound

/-- A row of a selected run lies inside the context. -/
theorem Selected.position_lt {r : RequestRecord} {contextLimit lastTimeNs : ℕ} {row : BatchRow}
    (hinv : TpScheduler.RecordInv contextLimit lastTimeNs r) (hs : Selected r rows)
    (hrow : row ∈ rows) : row.absolutePosition < contextLimit := by
  obtain ⟨before, after, rfl⟩ := List.append_of_mem hrow
  exact (hs.next hinv).2.1

variable {p : PagedPool}

/-- **The rows of a scheduled batch fit the pool.** -/
theorem Bound.fits (h : Bound p.identity p.state.sequences s bindings) (hs : s.SchedulerInv)
    (hcontext : s.contextLimit = p.limits.contextTokens) (hb : s.Batched rows)
    (hne : rows ≠ []) (hlen : rows.length ≤ p.rowCapacity)
    (hall : List.Forall₂ (Paired bindings) rows paged) : p.Fits paged where
  nonempty hnil := hne (List.length_eq_zero_iff.mp (by rw [hall.length_eq, hnil, List.length_nil]))
  length_le := hall.length_eq ▸ hlen
  live page hpage := by
    obtain ⟨row, -, hp⟩ := exists_of_forall₂ hall hpage
    obtain ⟨-, -, q, -, -, hpool, hq, -⟩ := h.agree _ hp.bound
    exact ⟨hpool, by simp [hq]⟩
  positions k q hq := by
    obtain ⟨b, hbm, hbk⟩ := h.sequence k q hq
    obtain ⟨i, r, q', hr, hid, -, hq', hagree⟩ := h.agree b hbm
    rw [hbk] at hq'
    obtain rfl : q = q' := Option.some.inj (hq.symm.trans hq')
    have hpair := h.rowsOf_paired (r := r) (k := k) (by rw [hid, ← hbk]; exact hbm) hall
    rw [paired_positions hpair, (hb.selected i r hr).positions, hagree.length, hpair.length_eq]
  position_lt page hpage := by
    obtain ⟨row, hrow, hp⟩ := exists_of_forall₂ hall hpage
    obtain ⟨i, r, hr, hid⟩ := hb.known row hrow
    rw [hp.position, ← hcontext]
    exact Selected.position_lt (hs.record i r hr) (hb.selected i r hr)
      (TpScheduler.mem_rowsOf.mpr ⟨hrow, hid⟩)

/-! ### Changes on both sides -/

/-- The scheduler keeps its requests, up to a change that no sequence notices. -/
theorem Bound.reschedule {s' : Scheduler} (h : Bound identity sequences s bindings)
    (hback : ∀ i r, s'.Retains i r → ∃ r₀, s.Retains i r₀ ∧ r₀.id = r.id)
    (hforth : ∀ i r₀, s.Retains i r₀ →
      ∃ r, s'.Retains i r ∧ r.id = r₀.id ∧ ∀ q, Agrees r₀ q → Agrees r q) :
    Bound identity sequences s' bindings where
  requests_nodup := h.requests_nodup
  sequences_nodup := h.sequences_nodup
  agree b hb := by
    obtain ⟨i, r₀, q, hr₀, hid, hpool, hq, hagree⟩ := h.agree b hb
    obtain ⟨r, hr, hrid, hkeep⟩ := hforth i r₀ hr₀
    exact ⟨i, r, q, hr, hrid.trans hid, hpool, hq, hkeep q hagree⟩
  request i r hr := by
    obtain ⟨r₀, hr₀, hid⟩ := hback i r hr
    obtain ⟨b, hb, hbid⟩ := h.request i r₀ hr₀
    exact ⟨b, hb, hbid.trans hid⟩
  sequence := h.sequence

theorem Bound.sameSlots {s' : Scheduler} (h : Bound identity sequences s bindings)
    (hslots : s'.slots = s.slots) : Bound identity sequences s' bindings := by
  refine h.reschedule (fun i r hr => ⟨r, ?_, rfl⟩) fun i r hr => ⟨r, ?_, rfl, fun _ hq => hq⟩
  · rwa [Scheduler.Retains, ← hslots]
  · rwa [Scheduler.Retains, hslots]

/-- A new request and its sequence. -/
theorem Bound.admit {admission : RequestAdmission} {nowNs next hit : ℕ} {i : Fin 32}
    {id : RequestId} {pages : List ℕ} {s' : Scheduler}
    (h : Bound identity sequences s bindings) (hs : s.SchedulerInv)
    (ha : s.Admitted { admission with cachedPrefixTokens := hit } nowNs i id s')
    (hfresh : sequences.get? next = none) :
    Bound identity (sequences.insert next ⟨admission.promptTokens.take hit, pages⟩) s'
      (bindings ++ [(id, ⟨identity, next⟩)]) := by
  have hlt : hit < admission.promptTokens.length := ha.cached_lt
  have hid : ∀ b ∈ bindings, b.1 ≠ id := by
    intro b hb he
    obtain ⟨j, r, -, hr, hrid, -, -, -⟩ := h.agree b hb
    have hslot := congrArg RequestId.slot (hrid.trans he)
    rw [hs.id j r hr, ha.id_eq] at hslot
    obtain rfl : j = i := Fin.ext hslot
    rw [Scheduler.Retains, ha.vacant] at hr
    simp at hr
  have hseq : ∀ b ∈ bindings, b.2 ≠ ⟨identity, next⟩ := by
    intro b hb he
    obtain ⟨-, -, q, -, -, -, hq, -⟩ := h.agree b hb
    rw [he, hfresh] at hq
    simp at hq
  refine ⟨?_, ?_, ?_, ?_, ?_⟩
  · rw [List.map_append, List.nodup_append]
    refine ⟨h.requests_nodup, by simp, ?_⟩
    intro a ha' c hc
    obtain ⟨b, hb, rfl⟩ := List.mem_map.mp ha'
    rw [List.map_singleton, List.mem_singleton] at hc
    exact hc ▸ hid b hb
  · rw [List.map_append, List.nodup_append]
    refine ⟨h.sequences_nodup, by simp, ?_⟩
    intro a ha' c hc
    obtain ⟨b, hb, rfl⟩ := List.mem_map.mp ha'
    rw [List.map_singleton, List.mem_singleton] at hc
    exact hc ▸ hseq b hb
  · intro b hb
    rcases List.mem_append.mp hb with hb | hb
    · obtain ⟨j, r, q, hr, hrid, hpool, hq, hagree⟩ := h.agree b hb
      have hij : i ≠ j := by
        rintro rfl
        rw [Scheduler.Retains, ha.vacant] at hr
        simp at hr
      refine ⟨j, r, q, ha.retains.mpr (.inr ⟨hij, hr⟩), hrid, hpool, ?_, hagree⟩
      rw [BTreeMap.get?_insert_of_ne, hq]
      rintro rfl
      rw [hfresh] at hq
      simp at hq
    · obtain rfl := List.mem_singleton.mp hb
      refine ⟨i, _, _, ha.retains.mpr (.inl ⟨rfl, rfl⟩), rfl, rfl,
        BTreeMap.get?_insert_self, ?_, ?_⟩
      · simp [RequestAdmission.record]
      · simp only [RequestAdmission.record, List.length_take]
        omega
  · intro j r hr
    rcases ha.retains.mp hr with ⟨rfl, rfl⟩ | ⟨-, hr⟩
    · exact ⟨_, List.mem_append_right _ List.mem_cons_self, rfl⟩
    · obtain ⟨b, hb, hbid⟩ := h.request j r hr
      exact ⟨b, List.mem_append_left _ hb, hbid⟩
  · intro k q hq
    rw [BTreeMap.get?_insert] at hq
    split at hq
    · next hk =>
      subst hk
      exact ⟨_, List.mem_append_right _ List.mem_cons_self, rfl⟩
    · obtain ⟨b, hb, hbk⟩ := h.sequence k q hq
      exact ⟨b, List.mem_append_left _ hb, hbk⟩

/-- A request and its sequence go together. -/
theorem Bound.retire {i : Fin 32} {r : RequestRecord} {sequence : SequenceId}
    (h : Bound identity sequences s bindings) (hs : s.SchedulerInv) (hr : s.Retains i r)
    (hb : (r.id, sequence) ∈ bindings) :
    Bound identity (sequences.erase sequence.serial) (s.setRequest i none)
      (bindings.filter fun binding => binding.1 ≠ r.id) := by
  have hsub : (bindings.filter fun binding => binding.1 ≠ r.id).Sublist bindings :=
    List.filter_sublist
  have hmem : ∀ {b}, b ∈ bindings.filter (fun binding => binding.1 ≠ r.id) ↔
      b ∈ bindings ∧ b.1 ≠ r.id := by
    intro b
    simp
  refine ⟨h.requests_nodup.sublist (hsub.map _), h.sequences_nodup.sublist (hsub.map _),
    ?_, ?_, ?_⟩
  · intro b hbm
    obtain ⟨hbm, hne⟩ := hmem.mp hbm
    obtain ⟨j, r', q, hr', hid, hpool, hq, hagree⟩ := h.agree b hbm
    refine ⟨j, r', q, TpScheduler.Scheduler.retains_setRequest.mpr (.inr ⟨?_, hr'⟩), hid, hpool, ?_,
      hagree⟩
    · rintro rfl
      obtain rfl : r = r' := Option.some.inj (hr.symm.trans hr')
      exact hne hid.symm
    · rw [BTreeMap.get?_erase, if_neg, hq]
      intro hk
      obtain ⟨-, -, -, -, -, hpool', -, -⟩ := h.agree _ hb
      have hsnd : b.2 = sequence := by
        cases hb2 : b.2
        cases sequence
        simp_all
      exact hne (congrArg Prod.fst (h.snd_inj hbm hb hsnd))
  · intro j r' hr'
    rcases TpScheduler.Scheduler.retains_setRequest.mp hr' with ⟨-, he⟩ | ⟨hij, hr'⟩
    · simp at he
    · obtain ⟨b, hbm, hbid⟩ := h.request j r' hr'
      refine ⟨b, hmem.mpr ⟨hbm, fun he => hij ?_⟩, hbid⟩
      exact hs.slot_inj hr hr' (he.symm.trans hbid)
  · intro k q hq
    rw [BTreeMap.get?_erase] at hq
    split at hq
    · simp at hq
    · next hk =>
      obtain ⟨b, hbm, hbk⟩ := h.sequence k q hq
      refine ⟨b, hmem.mpr ⟨hbm, fun he => hk ?_⟩, hbk⟩
      have hsequence : b.2 = sequence := congrArg Prod.snd (h.fst_inj hbm hb he)
      rw [← hsequence, hbk]

/-- Tokens at consecutive positions continue what was taken. -/
theorem take_append_run {tokens : List Token} {start : ℕ} (hstart : start ≤ tokens.length)
    (hpositions : rows.map (·.absolutePosition) = List.range' start rows.length)
    (htoken : ∀ row ∈ rows, tokens[row.absolutePosition]? = some row.tokenId) :
    tokens.take start ++ rows.map (·.tokenId) = tokens.take (start + rows.length) ∧
      start + rows.length ≤ tokens.length := by
  induction rows generalizing start with
  | nil => simpa using hstart
  | cons row rows ih =>
    rw [List.map_cons, List.length_cons, List.range'_succ, List.cons.injEq] at hpositions
    obtain ⟨hposition, hpositions⟩ := hpositions
    have hrow := htoken row List.mem_cons_self
    rw [hposition] at hrow
    have hlt := (List.getElem?_eq_some_iff.mp hrow).1
    obtain ⟨htake, hle⟩ := ih hlt hpositions
      fun a ha => htoken a (.tail _ ha)
    constructor
    · rw [List.map_cons, List.length_cons, Nat.add_comm rows.length 1, ← Nat.add_assoc, ← htake,
        List.take_add_one, hrow]
      simp
    · rw [List.length_cons]
      omega

/-- A committed batch extends a sequence as far as it advances its request. -/
theorem Agrees.advance {r : RequestRecord} {q q' : Sequence} {events : List OutputEvent}
    (h : Agrees r q) (hs : Selected r rows)
    (htokens : q'.tokens = q.tokens ++ rows.map (·.tokenId)) :
    Agrees (Scheduler.advanceRecord r rows.length events) q' := by
  have hstart : r.committedPosition ≤ (r.promptTokens ++ r.generatedTokens).length := by
    have := congrArg List.length h.tokens
    rw [h.length, List.length_take] at this
    omega
  obtain ⟨htake, hle⟩ := take_append_run hstart hs.positions fun row hrow =>
    (hs.rowAt row hrow).token
  constructor
  · rw [htokens, h.tokens, htake, Scheduler.advanceRecord]
    simp only
    rw [← List.append_assoc, List.take_append_of_le_length hle]
  · rw [htokens, List.length_append, h.length, List.length_map, Scheduler.advanceRecord]

/-- **Committing on both sides.** -/
theorem Bound.commit {r : TpPaged.State} {choices : List RowChoice} {completedNs : ℕ}
    {pd : TpScheduler.Pending} {advances : Fin 32 → ℕ} {events : List OutputEvent}
    (h : Bound p.identity p.state.sequences s bindings) (hb : s.Batched rows)
    (hall : List.Forall₂ (Paired bindings) rows paged) (hr : PagedPool.Reserved p paged r)
    (hc : s.Completion rows choices completedNs advances events) :
    Bound p.identity r.sequences (s.completed pd advances events completedNs) bindings where
  requests_nodup := h.requests_nodup
  sequences_nodup := h.sequences_nodup
  agree b hbm := by
    obtain ⟨i, rec, q, hrec, hid, hpool, hq, hagree⟩ := h.agree b hbm
    obtain ⟨q', hq', htokens, -, -⟩ := hr.grow _ q hq
    have hmem : (rec.id, (⟨p.identity, b.2.serial⟩ : SequenceId)) ∈ bindings := by
      rw [hid, ← hpool]
      exact hbm
    have hpair := h.rowsOf_paired hmem hall
    refine ⟨i, _, q', Scheduler.retains_completed.mpr ⟨rec, hrec, rfl⟩, hid, hpool, hq', ?_⟩
    rw [hc.advances i rec hrec]
    refine hagree.advance (hb.selected i rec hrec) ?_
    rw [htokens, paired_tokens hpair]
  request i rec hrec := by
    obtain ⟨rec₀, hrec₀, rfl⟩ := Scheduler.retains_completed.mp hrec
    exact h.request i rec₀ hrec₀
  sequence k q' hq' := by
    cases hq : p.state.sequences.get? k with
    | none => simp [hr.absent k hq] at hq'
    | some q => exact h.sequence k q hq

end TpBatchRuntime

end Ferric
