import Ferric.TpBatchRuntime.Serve
import Ferric.TpPaged.Fidelity

/-!
# Batching and caching are transparent

Over a device that is a memory, every request generates the tokens of greedy decoding from its own
prompt. Which other requests were served in between, how its prompt was cut into batches, and which
pages it found in the cache, does not show.

The proof follows the tags of the pool. A tag is the whole history of a slot; the device only has
the last token of it. As long as the device shows the last token of every tag, a row that reads its
pages reads the committed tokens of its own sequence, and these are the tokens of its request.

## Main definitions

* `greedy` — greedy decoding
* `Shows` — a memory that shows the last tokens of the tags
* `Served` — requests that have generated tokens of greedy decoding

## Main results

* `readRow_eq` — what a row reads
* `Committed.served` — one batch
* `transparent_of_reachable` — every run
-/

namespace Ferric

namespace TpBatchRuntime

open TpPaged (PagedError PagedPool PageRow PreparedBatch PreparedRow SequenceId Sequence Memory
  Faithful StateInv)
open TpScheduler (SchedulerError Scheduler BatchRow RequestId RequestAdmission RequestRecord
  RowChoice ScheduledBatch OutputEvent Token Selected publishes)

/-- The first tokens that greedy decoding appends to a prompt. -/
def greedy (f : List Token → Token) (prompt : List Token) : ℕ → List Token
  | 0 => []
  | n + 1 => greedy f prompt n ++ [f (prompt ++ greedy f prompt n)]

/-- The memory shows the last token of every tag. -/
def Shows (memory : ℕ × ℕ → Token) (tags : Memory) : Prop :=
  ∀ slot token, (tags slot).getLast? = some token → memory slot = token

/-- Writing tokens that end the tags written with them. -/
theorem Shows.write {memory : ℕ × ℕ → Token} {tags : Memory} {rows : List PreparedRow}
    {tag : PreparedRow → List Token} (h : Shows memory tags)
    (hlast : ∀ x ∈ rows, (tag x).getLast? = some x.input.token) :
    Shows (written memory rows) (writeAll PreparedRow.slot tag tags rows) := by
  induction rows using List.reverseRecOn with
  | nil => exact h
  | append_singleton rows x ih =>
    intro slot token htoken
    rw [writeAll_concat] at htoken
    rw [written, writeAll_concat]
    by_cases hslot : slot = x.slot
    · subst hslot
      rw [Function.update_self, hlast x (by simp)] at htoken
      rw [Function.update_self]
      exact Option.some.inj htoken
    · rw [Function.update_of_ne hslot] at htoken ⊢
      exact ih (fun y hy => hlast y (List.mem_append_left _ hy)) slot token htoken

theorem getLast?_take_succ {tokens : List Token} {i : ℕ} (hi : i < tokens.length) :
    (tokens.take (i + 1)).getLast? = some tokens[i] := by
  rw [List.take_add_one, List.getElem?_eq_getElem hi, Option.toList_some, List.getLast?_concat]

section Reading

variable {p : PagedPool} {prepared before after : List PreparedRow} {r : TpPaged.State}
  {x : PreparedRow} {memory : ℕ × ℕ → Token} {tags : Memory}

/-- The tag of a row ends in the row's token. -/
theorem tag_getLast? (hm : PagedPool.Minted p prepared r) (hx : x ∈ prepared) :
    (r.tag x).getLast? = some x.input.token := by
  obtain ⟨-, q', -, hq', -, htoken⟩ := hm.reserved.row_token (List.mem_map_of_mem hx)
  obtain ⟨hlt, htoken⟩ := List.getElem?_eq_some_iff.mp htoken
  rw [TpPaged.State.tag, hq']
  simp only
  rw [getLast?_take_succ hlt, htoken]

/-- The positions of a sequence up to a row's own were committed before the batch or belong to rows
that come no later. -/
theorem position_done (hm : PagedPool.Minted p (before ++ x :: after) r) {q : Sequence}
    (hq : p.state.sequences.get? x.input.sequence.serial = some q) {i : ℕ}
    (hi : i ≤ x.input.position) :
    i < q.tokens.length ∨ ∃ y ∈ before ++ [x],
      y.input.sequence.serial = x.input.sequence.serial ∧ y.input.position = i := by
  by_cases hlt : i < q.tokens.length
  · exact .inl hlt
  refine .inr ?_
  obtain ⟨-, -, -, -, hpositions⟩ := hm.reserved.grow _ q hq
  have hsplit : PagedPool.rowsOf x.input.sequence.serial ((before ++ x :: after).map (·.input)) =
      PagedPool.rowsOf x.input.sequence.serial (before.map (·.input)) ++
        x.input :: PagedPool.rowsOf x.input.sequence.serial (after.map (·.input)) := by
    simp [PagedPool.rowsOf]
  rw [hsplit, List.map_append, List.map_cons, List.length_append, List.length_cons,
    ← List.range'_append_1] at hpositions
  obtain ⟨hbefore, hrest⟩ := List.append_inj hpositions (by simp)
  rw [List.range'_succ, List.cons.injEq] at hrest
  by_cases heq : i = x.input.position
  · exact ⟨x, by simp, rfl, heq.symm⟩
  · have hmem : i ∈ (PagedPool.rowsOf x.input.sequence.serial (before.map (·.input))).map
        (·.position) := by
      rw [hbefore, List.mem_range'_1]
      omega
    obtain ⟨row, hrow, rfl⟩ := List.mem_map.mp hmem
    obtain ⟨hrow, hserial⟩ := PagedPool.mem_rowsOf.mp hrow
    obtain ⟨y, hy, rfl⟩ := List.mem_map.mp hrow
    exact ⟨y, List.mem_append_left _ hy, hserial, rfl⟩

/-- **What a row reads**: the tokens of its own sequence, up to its own position. -/
theorem readRow_eq (hm : PagedPool.Minted p (before ++ x :: after) r)
    (hp : StateInv p.limits p.state) (hfaithful : Faithful tags p.state)
    (hshows : Shows memory tags) {q' : Sequence}
    (hq' : r.sequences.get? x.input.sequence.serial = some q') :
    readRow (written memory (before ++ [x])) x = q'.tokens.take (x.input.position + 1) := by
  have hx : x ∈ before ++ x :: after := by simp
  have hdone : before ++ [x] <+: before ++ x :: after := ⟨after, by simp⟩
  obtain ⟨q, q₁, hq, hq₁, -, htoken⟩ := hm.reserved.row_token (List.mem_map_of_mem hx)
  obtain rfl : q₁ = q' := Option.some.inj (hq₁.symm.trans hq')
  have hlt := (List.getElem?_eq_some_iff.mp htoken).1
  obtain ⟨q₂, hq₂, hpages⟩ := (hm.rows x hx).get
  obtain rfl : q₂ = q₁ := Option.some.inj (hq₂.symm.trans hq')
  obtain ⟨lab, hc⟩ := hm.reserved.inv.coherent
  have hlen := hc.pages_length q₂ (BTreeMap.mem_values.mpr ⟨_, hq'⟩)
  refine List.ext_getElem ?_ fun i hi _ => ?_
  · rw [readRow, List.length_map, List.length_range, List.length_take]
    omega
  rw [readRow, List.length_map, List.length_range] at hi
  have hpage : i / 16 < q₂.pages.length := by omega
  have hget : q₂.pages[i / 16]? = some q₂.pages[i / 16] := List.getElem?_eq_getElem hpage
  have hread := hm.read_written hp hfaithful hdone hq hq' hget (position_done hm hq (by omega))
  have hsub : ∀ y ∈ before ++ [x], (r.tag y).getLast? = some y.input.token :=
    fun y hy => tag_getLast? hm (hdone.subset hy)
  have hlast := (hshows.write hsub) (q₂.pages[i / 16], i % 16) q₂.tokens[i]
    (by rw [hread]; exact getLast?_take_succ (by omega))
  simp only [readRow, List.getElem_map, List.getElem_range, hpages, List.getElem_take]
  rw [List.getD_eq_getElem?_getD, hget]
  exact hlast

end Reading

/-! ### Choices -/

section Choosing

variable {f : List Token → Token} {rows : List BatchRow} {prepared : List PreparedRow}
  {memory : ℕ × ℕ → Token}

theorem snd_outputEntries (hlen : prepared.length = rows.length) :
    (prepared.zipIdx.filter fun entry => entry.2 ∈ outputRows rows).map Prod.snd =
      outputRows rows := by
  have hfilter : (prepared.zipIdx.filter fun entry => entry.2 ∈ outputRows rows).map Prod.snd =
      (prepared.zipIdx.map Prod.snd).filter (· ∈ outputRows rows) := by
    rw [List.filter_map]
    rfl
  have hsub : (outputRows rows).Sublist (rows.zipIdx.map Prod.snd) := List.filter_sublist.map _
  rw [hfilter, List.zipIdx_map_snd, hlen, ← List.zipIdx_map_snd]
  refine filter_mem_of_sublist hsub ?_
  rw [List.zipIdx_map_snd]
  exact List.nodup_range'

/-- A choice for a row is made from what the row at that index reads. -/
theorem tokenId_of_mem_rowChoices (hlen : prepared.length = rows.length) {c : RowChoice}
    (hc : c ∈ rowChoices (outputRows rows) (executeRows f memory prepared (outputRows rows)).2) :
    ∃ before x after, prepared = before ++ x :: after ∧ before.length = c.rowIndex ∧
      c.tokenId = f (readRow (written memory (before ++ [x])) x) := by
  obtain ⟨k, hindex, htoken⟩ := Runtime.mem_rowChoices hc
  rw [← snd_outputEntries hlen, List.getElem?_map, Option.map_eq_some_iff] at hindex
  obtain ⟨⟨x, i⟩, hentry, hi⟩ := hindex
  rw [executeRows_eq List.prefix_rfl, List.getElem?_map, hentry, Option.map_some,
    Option.some.injEq] at htoken
  have hx := List.mem_zipIdx_iff_getElem?.mp (List.mem_filter.mp (List.mem_of_getElem? hentry)).1
  simp only at hi hx htoken
  obtain ⟨hlt, hget⟩ := List.getElem?_eq_some_iff.mp hx
  refine ⟨prepared.take i, x, prepared.drop (i + 1), ?_, ?_, ?_⟩
  · rw [← hget, List.getElem_cons_drop, List.take_append_drop]
  · rw [List.length_take, ← hi]
    omega
  · rw [← htoken, List.take_add_one, hx, Option.toList_some]

theorem length_executed (hlen : prepared.length = rows.length) :
    (executeRows f memory prepared (outputRows rows)).2.length = (outputRows rows).length := by
  rw [executeRows_eq List.prefix_rfl, List.length_map, ← List.length_map (f := Prod.snd),
    snd_outputEntries hlen]

end Choosing

/-- A row that publishes is the last that its request can have. -/
theorem Selected.publishes_last {contextLimit lastTimeNs : ℕ} {r : RequestRecord}
    {rows : List BatchRow} {row : BatchRow}
    (hinv : TpScheduler.RecordInv contextLimit lastTimeNs r) (hs : Selected r rows)
    (hrow : row ∈ rows) (hpub : publishes row = true) :
    row.absolutePosition + 1 = (r.promptTokens ++ r.generatedTokens).length := by
  have hge := (hs.rowAt row hrow).publishes_iff.mp hpub
  obtain ⟨before, after, rfl⟩ := List.append_of_mem hrow
  obtain ⟨hposition, -, -⟩ := hs.next hinv
  rw [List.length_append]
  rcases hs.phase (by simp) with ⟨hprefill, hle⟩ | ⟨hdecode, hone⟩
  · have hnil := hinv.nil_of_prefill (TpScheduler.state_eq_prefill hprefill).2
    rw [hnil, List.length_nil]
    simp only [List.length_append, List.length_cons] at hle
    omega
  · have hprod := hinv.produced
      (hinv.ne_nil_of_decode (TpScheduler.state_eq_decode hdecode).2)
    simp only [List.length_append, List.length_cons] at hone
    omega

/-! ### One batch -/

namespace Runtime

section Batch

variable {f : List Token → Token} {γ : Type} {rt : Runtime γ} {p₁ : PagedPool} {nowNs : ℕ}
  {submitted : Bool} {scheduled : ScheduledBatch} {prepared : PreparedBatch} {paged : List PageRow}
  {proposed : TpPaged.State} {memory : ℕ × ℕ → Token} {tags : Memory}

theorem Staged.length_rows (h : rt.Staged submitted p₁ nowNs scheduled prepared paged proposed) :
    prepared.rows.length = scheduled.rows.length := by
  obtain ⟨p₂, hprep⟩ := h.reserved
  rw [h.paired.length_eq, ← hprep.input, List.length_map]

/-- **What a row of a staged batch chooses**: the next token of greedy decoding. -/
theorem Staged.choice (h : rt.Staged submitted p₁ nowNs scheduled prepared paged proposed)
    (hfaithful : Faithful tags p₁.state) (hshows : Shows memory tags) {c : RowChoice}
    (hc : c ∈ rowChoices (outputRows scheduled.rows)
      (executeRows f memory prepared.rows (outputRows scheduled.rows)).2)
    {i : Fin 32} {r : RequestRecord} {row : BatchRow} (hr : rt.scheduler.Retains i r)
    (hrow : scheduled.rows[c.rowIndex]? = some row) (hid : row.request = r.id)
    (hpub : publishes row = true) : c.tokenId = f (r.promptTokens ++ r.generatedTokens) := by
  obtain ⟨p₂, hprep⟩ := h.reserved
  obtain ⟨pd, hout, hpd⟩ := h.outstanding
  obtain ⟨before, x, after, hsplit, hlen, htoken⟩ := tokenId_of_mem_rowChoices h.length_rows hc
  have hm := hprep.minted
  have hinput := hprep.input
  rw [hsplit] at hm hinput
  -- The row's pages belong to the sequence of its request.
  have hpair : Paired rt.bindings row x.input := by
    have hget := (List.forall₂_iff_get.mp h.paired).2 c.rowIndex
      (List.getElem?_eq_some_iff.mp hrow).1
      (by rw [← hinput, ← hlen]; simp)
    have hx : paged[c.rowIndex]? = some x.input := by
      rw [← hinput, ← hlen]
      simp
    simpa [(List.getElem?_eq_some_iff.mp hrow).2, (List.getElem?_eq_some_iff.mp hx).2] using hget
  obtain ⟨j, r', q, hr', hid', hpool, hq, hagree⟩ := h.bound.agree _ hpair.bound
  obtain rfl := h.scheduler.slot_inj hr hr' (hid.symm.trans hid'.symm)
  obtain rfl : r = r' := Option.some.inj (hr.symm.trans hr')
  have hreserved : PagedPool.Reserved p₁ paged proposed := by
    rw [← hprep.input]
    exact hprep.minted.reserved
  obtain ⟨q', hq', htokens, -, -⟩ := hreserved.grow _ q hq
  rw [htoken, readRow_eq hm h.pool.state hfaithful hshows hq']
  -- The sequence now holds all tokens of the request.
  have hmem : (r.id, (⟨p₁.identity, x.input.sequence.serial⟩ : SequenceId)) ∈ rt.bindings := by
    rw [← hid, ← hpool]
    exact hpair.bound
  have hbatched := h.scheduler.batched pd hout.pending
  rw [hpd] at hbatched
  have hselected := hbatched.selected i r hr
  have hown : row ∈ TpScheduler.rowsOf r.id scheduled.rows :=
    TpScheduler.mem_rowsOf.mpr ⟨List.mem_of_getElem? hrow, hid⟩
  have hstart : r.committedPosition ≤ (r.promptTokens ++ r.generatedTokens).length := by
    have := congrArg List.length hagree.tokens
    rw [hagree.length, List.length_take] at this
    omega
  obtain ⟨htake, hle⟩ := take_append_run hstart hselected.positions fun row hrow =>
    (hselected.rowAt row hrow).token
  rw [paired_tokens (h.bound.rowsOf_paired hmem h.paired), hagree.tokens, htake] at htokens
  have hlast := Selected.publishes_last (h.scheduler.record i r hr) hselected hown hpub
  have hlt : row.absolutePosition < r.committedPosition +
      (TpScheduler.rowsOf r.id scheduled.rows).length := by
    have hposition := List.mem_map_of_mem (f := (·.absolutePosition)) hown
    rw [hselected.positions, List.mem_range'_1] at hposition
    exact hposition.2
  have hall : (r.promptTokens ++ r.generatedTokens).length ≤
      r.committedPosition + (TpScheduler.rowsOf r.id scheduled.rows).length := by omega
  rw [htokens, List.take_of_length_le hall, hpair.position, hlast, List.take_length]

end Batch

/-- Every retained request has generated the first tokens of greedy decoding. -/
def Served (f : List Token → Token) (s : Scheduler) : Prop :=
  ∀ i r, s.Retains i r → r.generatedTokens = greedy f r.promptTokens r.generatedTokens.length

/-- The device shows the content that the pool relies on. -/
def Shown (rt : Runtime Device) : Prop :=
  ∃ tags, Faithful tags rt.pool.state ∧ Shows rt.gpu.memory tags

variable {f : List Token → Token} {capacity : ℕ} {expected : ℕ → PreparedBatch → List ℕ → ℕ}
  {rt rt' : Runtime Device}

/-- **A committed batch** continues greedy decoding. -/
theorem Committed.served {p₁ : PagedPool} {nowNs completedNs : ℕ} {scheduled : ScheduledBatch}
    {prepared : PreparedBatch} {paged : List PageRow} {proposed : TpPaged.State} {tags : Memory}
    (h : rt.Staged true p₁ nowNs scheduled prepared paged proposed)
    (hc : Committed (deviceRunner f capacity expected) rt completedNs scheduled prepared
      proposed rt')
    (hfaithful : Faithful tags p₁.state) (hshows : Shows rt.gpu.memory tags)
    (hserved : Served f rt.scheduler) : Served f rt'.scheduler ∧ Shown rt' := by
  obtain ⟨output, pd, advances, events, hexec, -, hout, hpd, hcompletion, heq⟩ := hc.effect
  obtain ⟨p₂, hprep⟩ := h.reserved
  simp only [deviceRunner, numericalGpu, Prod.mk.injEq, Except.ok.injEq] at hexec
  obtain ⟨houtput, hgpu⟩ := hexec
  have hchoices : output.choices =
      (executeRows f rt.gpu.memory prepared.rows (outputRows scheduled.rows)).2 := by
    rw [← houtput]
  have hmemory : rt'.gpu.memory = written rt.gpu.memory prepared.rows := by
    rw [← hgpu, executeRows_eq List.prefix_rfl]
  rw [hchoices] at hcompletion
  constructor
  · intro i r hr
    rw [heq] at hr
    obtain ⟨r₀, hr₀, rfl⟩ := Scheduler.retains_completed.mp hr
    have hold := hserved i r₀ hr₀
    have hbatched := h.scheduler.batched pd hout.pending
    rw [hpd] at hbatched
    have hone : (events.filter fun event => event.request = r₀.id).length ≤ 1 := by
      rw [hcompletion.length_own r₀.id, (hbatched.selected i r₀ hr₀).count_outputs]
      split <;> omega
    have hownEvents := hcompletion.own r₀.id
    rw [Scheduler.advanceRecord]
    generalize (events.filter fun event => event.request = r₀.id) = own at hone hownEvents
    rcases own with - | ⟨event, more⟩
    · simpa using hold
    · obtain rfl : more = [] := by simpa using hone
      obtain ⟨⟨row, index⟩, hentry, hreq, -, c, hcmem, hindex, htoken, -⟩ :=
        exists_of_forall₂ hownEvents (List.mem_singleton_self event)
      obtain ⟨hentry, hid⟩ := List.mem_filter.mp hentry
      obtain ⟨hentry, hpub⟩ := List.mem_filter.mp hentry
      have hrow := List.mem_zipIdx_iff_getElem?.mp hentry
      simp only at hindex hid hpub hrow
      have hchoice := h.choice hfaithful hshows hcmem hr₀ (hindex ▸ hrow) (by simpa using hid) hpub
      simp only [List.map_cons, List.map_nil, List.length_append, List.length_singleton, greedy]
      rw [← hold, ← htoken, hchoice]
  · refine ⟨writeAll PreparedRow.slot (proposed.tag ·) tags prepared.rows, ?_, ?_⟩
    · rw [heq]
      exact hprep.minted.faithful_write h.pool.state hfaithful
    · rw [hmemory]
      exact hshows.write fun x hx => tag_getLast? hprep.minted hx

/-! ### Every run -/

theorem Served.congr {s s' : Scheduler} (h : Served f s) (ht : SameTokens s s') : Served f s' := by
  intro i r hr
  rcases ht i r hr with hnil | ⟨r₀, hr₀, hprompt, hgenerated⟩
  · rw [hnil]
    rfl
  · rw [← hprompt, ← hgenerated]
    exact h i r₀ hr₀

/-- The invariant of a runtime over a device. -/
structure Transparent (f : List Token → Token) (rt : Runtime Device) : Prop where
  served : Served f rt.scheduler
  shown : rt.poisoned = false → Shown rt
  counts : rt.poisoned = false → rt.gpu.counts.length = rt.worldSize

theorem Transparent.effect {c : Call} (h : Transparent f rt) (hp : rt.poisoned = false)
    (he : Effect (deviceRunner f capacity expected) rt c rt') : Transparent f rt' := by
  obtain ⟨tags, hfaithful, hshows⟩ := h.shown hp
  cases he with
  | quiet hq =>
    refine ⟨h.served.congr hq.tokens, fun _ => ⟨tags, hq.keeps tags hfaithful, ?_⟩, fun _ => ?_⟩
    · rw [hq.gpu]
      exact hshows
    · rw [hq.gpu, hq.worldSize]
      exact h.counts hp
  | @undone tick nowNs completedNs scheduled prepared p₁ paged proposed rt₁ hl =>
    have hgpu : rt₁.gpu = rt.gpu := by rw [hl.eq]
    have hworld : rt₁.worldSize = rt.worldSize := by rw [hl.eq]
    refine ⟨h.served.congr (.of_slots hl.slots), fun _ => ⟨tags, ?_, ?_⟩, fun _ => ?_⟩
    · have hstate : rt₁.pool.state = p₁.state := by rw [hl.staged.poolEq]
      show Faithful tags rt₁.pool.state
      rw [hstate]
      exact hl.evicted.keeps tags hfaithful
    · show Shows rt₁.gpu.memory tags
      rw [hgpu]
      exact hshows
    · show rt₁.gpu.counts.length = rt₁.worldSize
      rw [hgpu, hworld]
      exact h.counts hp
  | @committed tick nowNs completedNs scheduled prepared p₁ paged proposed rt₁ _ hl hc =>
    have hgpu : rt₁.gpu = rt.gpu := by rw [hl.eq]
    have hworld : rt₁.worldSize = rt.worldSize := by rw [hl.eq]
    have hserved : Served f rt₁.scheduler := h.served.congr (.of_slots hl.slots)
    obtain ⟨hs, hshown⟩ := Committed.served hl.staged.submit hc
      (hl.evicted.keeps tags hfaithful) (by rw [← hgpu] at hshows; exact hshows) hserved
    refine ⟨hs, fun _ => hshown, fun _ => ?_⟩
    obtain ⟨output, _, _, _, hexec, -, -, -, -, heq⟩ := hc.effect
    have hcounts : rt'.gpu.counts.length = rt₁.gpu.counts.length := by
      rw [← (Prod.mk.inj hexec).2]
      simp [numericalGpu, submitted, dispatchGpu, deviceRunner]
    rw [hcounts, heq, hgpu, h.counts hp]
    exact hworld.symm
  | poisoned hpoisoned hslots _ _ =>
    exact ⟨h.served.congr (.of_slots hslots), fun hlive => by simp [hpoisoned] at hlive,
      fun hlive => by simp [hpoisoned] at hlive⟩

theorem transparent (h : (runtimeSystem (deviceRunner f capacity expected)).Reachable rt) :
    Transparent f rt := by
  refine System.Reachable.induction (S := runtimeSystem (deviceRunner f capacity expected))
    (I := Transparent f) ?_ ?_ h
  · intro rt hfresh
    have hs := Fresh.started hfresh
    refine ⟨fun i r hr => absurd hr (hs.vacant i r), fun _ => ⟨fun _ => [], ?_, ?_⟩,
      fun _ => hs.worldSize.symm⟩
    · exact (PagedPool.unused_of_reachable hs.reachable hs.unused).faithful _
    · intro slot token hlast
      simp at hlast
  · rintro rt c rt' hr ih rfl
    cases hpoisoned : rt.poisoned with
    | true =>
      rw [call_of_poisoned hpoisoned]
      exact ih
    | false => exact ih.effect hpoisoned (effect_of_call (joint_of_not_poisoned hr hpoisoned) c)

/-- The increments of counts that have each grown by what was expected. -/
theorem dispatchIncrements_of_expected (expect : ℕ → ℕ) (counts : List ℕ) (start : ℕ) :
    dispatchIncrements counts ((counts.zipIdx start).map fun count => count.1 + expect count.2) =
      some ((List.range' start counts.length).map expect) := by
  rw [dispatchIncrements]
  induction counts generalizing start with
  | nil => rfl
  | cons count counts ih =>
    rw [List.zipIdx_cons, List.map_cons, List.zip_cons_cons, List.mapM_cons, ih,
      checkedSub_of_le (by simp), List.length_cons, List.range'_succ, List.map_cons]
    simp

/-- The device does its part. -/
theorem completes_device {rt₁ : Runtime Device} {p₁ : PagedPool}
    {nowNs completedNs vocabulary worldSize : ℕ} {scheduled : ScheduledBatch}
    {prepared : PreparedBatch} {paged : List PageRow} {proposed : TpPaged.State} {gpu : Device}
    {submitted : Bool} (h : rt₁.Staged submitted p₁ nowNs scheduled prepared paged proposed)
    (hclock : nowNs ≤ completedNs) (hworld : gpu.counts.length = worldSize)
    (hf : ∀ tokens, f tokens < vocabulary) :
    Completes (deviceRunner f capacity expected) gpu vocabulary worldSize nowNs completedNs
      scheduled prepared gpu.counts ((List.range gpu.counts.length).map fun rank =>
        expected rank prepared (outputRows scheduled.rows)) where
  clock := hclock
  numerical := rfl
  output := by
    refine ⟨_, _, rfl, length_executed h.length_rows, ?_, rfl, ⟨hworld, ?_, ?_⟩, ?_⟩
    · intro token htoken
      simp only [numericalGpu, deviceRunner, executeRows_eq List.prefix_rfl, List.mem_map] at htoken
      obtain ⟨entry, -, rfl⟩ := htoken
      exact hf _
    · simpa [numericalGpu, deviceRunner] using hworld
    · simpa using hworld
    · rw [List.range_eq_range']
      exact dispatchIncrements_of_expected
        (fun rank => expected rank prepared (outputRows scheduled.rows)) gpu.counts 0

/-- **Continuous batching with prefix caching is transparent.** In every run over a device, every
retained request has generated the first tokens of greedy decoding from its own prompt, and all of
them once it is completed. Such a device never poisons the runtime, unless the clock goes back. -/
theorem transparent_of_reachable {f : List Token → Token} {capacity : ℕ}
    {expected : ℕ → PreparedBatch → List ℕ → ℕ} {rt : Runtime Device}
    (h : (runtimeSystem (deviceRunner f capacity expected)).Reachable rt)
    (hf : ∀ tokens, f tokens < rt.scheduler.vocabulary) :
    (∀ i r, rt.scheduler.Retains i r →
      r.generatedTokens = greedy f r.promptTokens r.generatedTokens.length ∧
        (r.state = .completed → r.generatedTokens = greedy f r.promptTokens r.maxNewTokens)) ∧
    (rt.poisoned = false → ∀ tick nowNs completedNs, nowNs ≤ completedNs →
      ((call (deviceRunner f capacity expected)
        (.step tick nowNs completedNs)).exec rt).2.poisoned =
        false) := by
  have ht := transparent h
  constructor
  · intro i r hr
    refine ⟨ht.served i r hr, fun hcompleted => ?_⟩
    rw [← TpScheduler.state_eq_completed hcompleted]
    exact ht.served i r hr
  · intro hp tick nowNs completedNs hclock
    have hj := joint_of_not_poisoned h hp
    by_contra hpoisoned
    obtain ⟨_, _, _, scheduled, prepared, rt₁, hcall, hloop, expect, hexpect, hfault⟩ :=
      (hj.callSafe (R := deviceRunner f capacity expected) hp
        (.step tick nowNs completedNs)).poisons
        (by simpa using hpoisoned)
    obtain ⟨rfl, rfl, rfl⟩ : tick = _ ∧ nowNs = _ ∧ completedNs = _ := by simpa using hcall
    obtain ⟨p₁, paged, proposed, hl⟩ :=
      (reserveLoop_runs hj (Nat.lt_succ_self _) le_rfl).of_ok hloop
    obtain rfl := Except.ok.inj hexpect
    exact hfault (completes_device hl.staged hclock (ht.counts hp) hf)

/-- A prompt is computed and its first page kept. Two requests with that page in their prompts are
then served at once. -/
def sharedPrompts : List Call :=
  [.admitRequest ⟨List.range 17, 1, 0, 0, 0⟩ 1 1, .step 1 2 3, .step 1 4 5, .retire ⟨0, 1⟩ 2,
    .admitRequest ⟨List.range 17, 2, 0, 0, 5⟩ 3 6,
    .admitRequest ⟨List.range 16 ++ [50, 51], 2, 0, 0, 7⟩ 3 7,
    .step 3 8 9, .step 3 10 11, .step 3 12 13]

/-- How far a request has come. -/
structure Progress where
  cachedTokens : ℕ
  state : TpScheduler.RequestState
  generated : List Token
  deriving DecidableEq

def progress (rt : Runtime Device) (i : Fin 32) : Option Progress :=
  (rt.scheduler.slots i).request.map fun r => ⟨r.cachedPrefixTokens, r.state, r.generatedTokens⟩

/-- Both are served from the cached page, and have the tokens of greedy decoding from their own
prompts. -/
theorem transparent_of_reachable_smallRun :
    ∃ rt r₀ r₁, (runtimeSystem addingRunner).Reachable rt ∧
      rt.pool.state.sequences.entries.map (·.2.pages) = [[0, 2], [0, 1]] ∧
      rt.scheduler.Retains 0 r₀ ∧ r₀.cachedPrefixTokens = 16 ∧ r₀.state = .completed ∧
      r₀.generatedTokens = [36, 72] ∧
      r₀.generatedTokens = greedy sumTokens r₀.promptTokens r₀.maxNewTokens ∧
      rt.scheduler.Retains 1 r₁ ∧ r₁.cachedPrefixTokens = 16 ∧ r₁.state = .completed ∧
      r₁.generatedTokens = [21, 42] ∧
      r₁.generatedTokens = greedy sumTokens r₁.promptTokens r₁.maxNewTokens := by
  have hrun : (smallRun 16 16 sharedPrompts).map (fun rt => (rt.scheduler.vocabulary,
      rt.pool.state.sequences.entries.map (·.2.pages), progress rt 0, progress rt 1)) =
      some (100, [[0, 2], [0, 1]], some ⟨16, .completed, [36, 72]⟩,
        some ⟨16, .completed, [21, 42]⟩) := by
    decide +kernel
  obtain ⟨rt, hrt, hresult⟩ := Option.map_eq_some_iff.mp hrun
  simp only [progress, Prod.mk.injEq, Progress.mk.injEq, Option.map_eq_some_iff] at hresult
  obtain ⟨hvocabulary, hpages, ⟨r₀, hr₀, hcached₀, hstate₀, hgenerated₀⟩,
    r₁, hr₁, hcached₁, hstate₁, hgenerated₁⟩ := hresult
  have h := reachable_smallRun hrt
  have hf : ∀ tokens, sumTokens tokens < rt.scheduler.vocabulary := by
    intro tokens
    rw [hvocabulary]
    exact Nat.mod_lt _ (by decide)
  have hserved := (transparent_of_reachable h hf).1
  exact ⟨rt, r₀, r₁, h, hpages, hr₀, hcached₀, hstate₀, hgenerated₀,
    (hserved 0 r₀ hr₀).2 hstate₀, hr₁, hcached₁, hstate₁, hgenerated₁,
    (hserved 1 r₁ hr₁).2 hstate₁⟩

end Runtime

end TpBatchRuntime

end Ferric
