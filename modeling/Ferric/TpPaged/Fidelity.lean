import Ferric.TpPaged.Pool

/-!
# Pages hold what the pool says they hold

The pool never reads the device. This module follows a ghost memory along the pool's calls: a
completed batch writes the tag of each of its rows, and nothing else writes. Whatever the order of
calls, the memory stays faithful to the committed state, and the slots an outstanding batch is
about to write are its own.

A prepared batch has private fields and only `reserveBatch` makes one, so a batch argument is one
that this pool returned earlier or belongs to another pool. `Genuine` says so; every other argument
is arbitrary.

## Main results

* `WorldInv.step` — one call
* `content_of_reachable` — every state of every run
-/

namespace Ferric

namespace TpPaged

namespace PagedPool

/-- A pool, the batches it has returned, and the device memory. -/
structure World where
  pool : PagedPool
  issued : List PreparedBatch
  mem : Memory

/-- The batch argument of a call. -/
def Call.batch? : Call → Option PreparedBatch
  | .beginSubmission b | .abortBatch b | .commitBatch b _ | .quarantineBatch b => some b
  | _ => none

/-- A batch argument was returned by this pool, or comes from another one. -/
def World.Genuine (w : World) (c : Call) : Prop :=
  ∀ b, c.batch? = some b → b ∈ w.issued ∨ b.pool ≠ w.pool.identity

/-- The world after a call that returned: a reservation is recorded, and a commit writes. -/
def World.after (w : World) (c : Call) (reply : Reply) (pool : PagedPool) : World where
  pool := pool
  issued := match reply with
    | .batch b => b :: w.issued
    | _ => w.issued
  mem := match c with
    | .commitBatch b _ => writeAll PreparedRow.slot (pool.state.tag ·) w.mem b.rows
    | _ => w.mem

/-- Pools and their device memory under any calls. The memory is arbitrary at the start. -/
def worldSystem : System World Call where
  init w := w.pool.Fresh ∧ w.issued = []
  step w c w' := w.Genuine c ∧
    ((∃ reply pool, w.pool.call c = .ok (reply, pool) ∧ w' = w.after c reply pool) ∨
      (∃ e, w.pool.call c = .error e) ∧ w' = w)

/-- The memory is faithful, and the outstanding batch is the one the pool returned for it. -/
structure WorldInv (w : World) : Prop where
  pool : w.pool.PoolInv
  id_lt : ∀ b ∈ w.issued, b.id < w.pool.nextBatch
  issued : ∀ pd, w.pool.pending = some pd → ∃ b ∈ w.issued, b.id = pd.id
  minted : ∀ pd, w.pool.pending = some pd → ∀ b ∈ w.issued, b.id = pd.id →
    Minted w.pool b.rows pd.proposed
  faithful : Faithful w.mem w.pool.state

variable {w : World}

/-- A transaction that keeps contents. -/
theorem WorldInv.transacted {p : PagedPool} {Q : State → Prop} (h : WorldInv w)
    (ht : w.pool.Transacted Q p) (hk : Keeps w.pool.state p.state) :
    WorldInv { w with pool := p } := by
  have hpd : p.pending = none := ht.eq ▸ ht.idle.2
  have hnext : p.nextBatch = w.pool.nextBatch := by rw [ht.eq]
  exact ⟨ht.poolInv h.pool, fun b hb => hnext ▸ h.id_lt b hb, fun pd hpd' => by simp [hpd] at hpd',
    fun pd hpd' => by simp [hpd] at hpd', hk _ h.faithful⟩

/-- A change of the outstanding batch's phase, or its end. -/
theorem WorldInv.rephased {p : PagedPool} (h : WorldInv w) (hid : p.identity = w.pool.identity)
    (hl : p.limits = w.pool.limits) (hcap : p.rowCapacity = w.pool.rowCapacity)
    (hs : p.state = w.pool.state) (hn : p.nextBatch = w.pool.nextBatch)
    (hpd : ∀ pd, p.pending = some pd →
      ∃ pd₀, w.pool.pending = some pd₀ ∧ pd₀.id = pd.id ∧ pd₀.proposed = pd.proposed) :
    WorldInv { w with pool := p } where
  pool := h.pool.keep hid hl hcap hs fun pd hpd' => by
    obtain ⟨pd₀, hpd₀, -, hprop⟩ := hpd pd hpd'
    exact ⟨pd₀, hpd₀, hprop⟩
  id_lt b hb := by
    rw [hn]
    exact h.id_lt b hb
  issued pd hpd' := by
    obtain ⟨pd₀, hpd₀, hpid, -⟩ := hpd pd hpd'
    obtain ⟨b, hb, hbid⟩ := h.issued pd₀ hpd₀
    exact ⟨b, hb, hbid.trans hpid⟩
  minted pd hpd' b hb hbid := by
    obtain ⟨pd₀, hpd₀, hpid, hprop⟩ := hpd pd hpd'
    exact hprop ▸ (h.minted pd₀ hpd₀ b hb (hbid.trans hpid.symm)).congr hid hl hs
  faithful := hs.symm ▸ h.faithful

/-- A reservation is recorded under a new identity. -/
theorem WorldInv.prepared {p : PagedPool} {rows : List PageRow} {batch : PreparedBatch} {r : State}
    (h : WorldInv w) (hr : w.pool.Prepared rows batch p r) :
    WorldInv { w with pool := p, issued := batch :: w.issued } := by
  obtain rfl := hr.eq
  refine ⟨hr.poolInv h.pool, fun b hb => ?_, fun pd hpd => ?_, fun pd hpd b hb hbid => ?_,
    h.faithful⟩
  · rcases List.mem_cons.mp hb with rfl | hb
    · simp [hr.id]
    · exact Nat.lt_succ_of_lt (h.id_lt b hb)
  · exact ⟨batch, List.mem_cons_self, congrArg Pending.id (Option.some.inj hpd)⟩
  · obtain rfl := Option.some.inj hpd
    rcases List.mem_cons.mp hb with rfl | hb
    · exact hr.minted.congr rfl rfl rfl
    · have := h.id_lt b hb
      have := hr.id
      simp only at hbid
      omega

/-- A completed batch writes its rows. -/
theorem WorldInv.committed {batch : PreparedBatch} {pd : Pending} (h : WorldInv w)
    (ho : w.pool.Outstanding batch pd) (hb : batch ∈ w.issued) :
    WorldInv { w with
      pool := { w.pool with pending := none, state := pd.proposed }
      mem := writeAll PreparedRow.slot (pd.proposed.tag ·) w.mem batch.rows } where
  pool := h.pool.commit ho.pending
  id_lt := h.id_lt
  issued pd hpd := by simp at hpd
  minted pd hpd := by simp at hpd
  faithful :=
    (h.minted pd ho.pending batch hb ho.id.symm).faithful_write h.pool.state h.faithful

/-- **One call.** -/
theorem WorldInv.step {c : Call} {reply : Reply} {p : PagedPool} (h : WorldInv w)
    (hg : w.Genuine c) (hc : w.pool.call c = .ok (reply, p)) : WorldInv (w.after c reply p) := by
  cases c with
  | openSequence scope prompt now =>
    obtain ⟨r, hr, he⟩ := bind_eq_ok.mp hc
    obtain ⟨rfl, rfl⟩ := Prod.mk.inj (Except.ok.inj he)
    have ht := (openSequence_ensures h.pool).of_ok hr
    exact h.transacted ht ht.post.1
  | reserveBatch rows =>
    obtain ⟨r, hr, he⟩ := bind_eq_ok.mp hc
    obtain ⟨rfl, rfl⟩ := Prod.mk.inj (Except.ok.inj he)
    obtain ⟨proposed, hp⟩ := (reserveBatch_ensures h.pool).of_ok hr
    exact h.prepared hp
  | beginSubmission batch =>
    obtain ⟨p', hr, he⟩ := bind_eq_ok.mp hc
    obtain ⟨rfl, rfl⟩ := Prod.mk.inj (Except.ok.inj he)
    obtain ⟨pd, ho, -, rfl⟩ := beginSubmission_ensures.of_ok hr
    refine h.rephased rfl rfl rfl rfl rfl fun pd' hpd' => ⟨pd, ho.pending, ?_⟩
    exact Option.some.inj hpd' ▸ ⟨rfl, rfl⟩
  | abortBatch batch =>
    obtain ⟨p', hr, he⟩ := bind_eq_ok.mp hc
    obtain ⟨rfl, rfl⟩ := Prod.mk.inj (Except.ok.inj he)
    obtain ⟨pd, ho, -, rfl⟩ := abortBatch_ensures.of_ok hr
    exact h.rephased rfl rfl rfl rfl rfl fun pd' hpd' => by simp at hpd'
  | commitBatch batch completion =>
    obtain ⟨p', hr, he⟩ := bind_eq_ok.mp hc
    obtain ⟨rfl, rfl⟩ := Prod.mk.inj (Except.ok.inj he)
    obtain ⟨pd, ho, -, rfl⟩ := commitBatch_ensures.of_ok hr
    exact h.committed ho ((hg batch rfl).resolve_right (not_not.mpr ho.pool))
  | quarantineBatch batch =>
    obtain ⟨p', hr, he⟩ := bind_eq_ok.mp hc
    obtain ⟨rfl, rfl⟩ := Prod.mk.inj (Except.ok.inj he)
    obtain ⟨pd, ho, -, rfl⟩ := quarantineBatch_ensures.of_ok hr
    exact h.rephased rfl rfl rfl rfl rfl fun pd' hpd' => ⟨pd', hpd', rfl, rfl⟩
  | retireSequence sequence publishPrefix now =>
    obtain ⟨r, hr, he⟩ := bind_eq_ok.mp hc
    obtain ⟨rfl, rfl⟩ := Prod.mk.inj (Except.ok.inj he)
    have ht := (retireSequence_ensures h.pool).of_ok hr
    exact h.transacted ht ht.post.1
  | cancelSequence sequence =>
    obtain ⟨r, hr, he⟩ := bind_eq_ok.mp hc
    obtain ⟨rfl, rfl⟩ := Prod.mk.inj (Except.ok.inj he)
    have ht := (cancelSequence_ensures h.pool).of_ok hr
    exact h.transacted ht ht.post.1
  | expire now =>
    obtain ⟨r, hr, he⟩ := bind_eq_ok.mp hc
    obtain ⟨rfl, rfl⟩ := Prod.mk.inj (Except.ok.inj he)
    have ht := (expire_ensures h.pool).of_ok hr
    exact h.transacted ht ht.post.1
  | evictUnused pagesNeeded =>
    obtain ⟨r, hr, he⟩ := bind_eq_ok.mp hc
    obtain ⟨rfl, rfl⟩ := Prod.mk.inj (Except.ok.inj he)
    have ht := (evictUnused_ensures h.pool).of_ok hr
    exact h.transacted ht ht.post.1
  | committedPosition sequence =>
    obtain ⟨r, hr, he⟩ := bind_eq_ok.mp hc
    obtain ⟨rfl, rfl⟩ := Prod.mk.inj (Except.ok.inj he)
    exact h
  | stats =>
    obtain ⟨r, hr, he⟩ := bind_eq_ok.mp hc
    obtain ⟨rfl, rfl⟩ := Prod.mk.inj (Except.ok.inj he)
    exact h
  | checkInvariants =>
    obtain ⟨r, hr, he⟩ := bind_eq_ok.mp hc
    obtain ⟨rfl, rfl⟩ := Prod.mk.inj (Except.ok.inj he)
    exact h

/-- There is no content before the first admission. -/
theorem faithful_fresh {mem : Memory} {limits : PagedLimits} :
    Faithful mem (freshState limits) := by
  refine ⟨fun k q hk => by simp [freshState] at hk, fun i n t hn => ?_⟩
  have := List.mem_of_getElem? hn
  simp [freshState] at this

theorem worldInv_of_fresh (hp : w.pool.Fresh) (hi : w.issued = []) : WorldInv w := by
  obtain ⟨-, -, hs, hpd, -, -⟩ := hp.eq
  refine ⟨hp.poolInv, by simp [hi], fun pd h => by simp [hpd] at h,
    fun pd h => by simp [hpd] at h, ?_⟩
  rw [hs]
  exact faithful_fresh

theorem worldInv_of_reachable (h : worldSystem.Reachable w) : WorldInv w := by
  refine System.Reachable.induction (S := worldSystem) (I := WorldInv)
    (fun w hw => worldInv_of_fresh hw.1 hw.2) ?_ h
  rintro w c w' - hw ⟨hg, ⟨reply, pool, hc, rfl⟩ | ⟨-, rfl⟩⟩
  · exact hw.step hg hc
  · exact hw

/-- The pages of the outstanding batch, seen from the committed state. -/
theorem Minted.exclusive_committed {p : PagedPool} {prepared : List PreparedRow} {r : State}
    {x : PreparedRow} (h : Minted p prepared r) (hx : x ∈ prepared) {k : ℕ} {q : Sequence}
    (hk : p.state.sequences.get? k = some q) (hmem : x.writePage ∈ q.pages) :
    k = x.input.sequence.serial := by
  obtain ⟨-, -, -, -, hown⟩ := h.exclusive hx
  obtain ⟨q', hq', -, hpages, -⟩ := h.reserved.grow k q hk
  exact hown k q' hq' (hpages.subset hmem)

/-- **Content fidelity.** In every reachable state the slot of every committed position of a live
sequence holds the tag of the position, every slot of a cached page holds the tag its path spells,
and the rows of an outstanding batch write distinct slots of pages that no other sequence and no
node references. -/
theorem content_of_reachable {w : World} (h : worldSystem.Reachable w) :
    (∀ k q, w.pool.state.sequences.get? k = some q → ∀ i < q.tokens.length,
      ∃ page, q.pages[i / 16]? = some page ∧ w.mem (page, i % 16) = q.tokens.take (i + 1)) ∧
    (∀ i n, NodeAt w.pool.state.nodes i n → ∃ t, PathTo w.pool.state.nodes (some i) t ∧
      ∀ j < 16, w.mem (n.page, j) = t.take (t.length - 16 + j + 1)) ∧
    ∀ pd, w.pool.pending = some pd →
      (∃ b ∈ w.issued, b.id = pd.id) ∧
      ∀ b ∈ w.issued, b.id = pd.id →
        (b.rows.Pairwise fun x y => x.slot ≠ y.slot) ∧
        ∀ x ∈ b.rows, (∀ i n, NodeAt w.pool.state.nodes i n → n.page ≠ x.writePage) ∧
          ∀ s, s = w.pool.state ∨ s = pd.proposed → ∀ k q, s.sequences.get? k = some q →
            x.writePage ∈ q.pages → k = x.input.sequence.serial := by
  have hw := worldInv_of_reachable h
  obtain ⟨lab, hc⟩ := hw.pool.state.coherent
  refine ⟨fun k q hq i hi => ?_, fun i n hn => ⟨_, hc.lab_node i n hn, ?_⟩, fun pd hpd =>
    ⟨hw.issued pd hpd, fun b hb hid => ?_⟩⟩
  · have hlen := hc.pages_length q (BTreeMap.mem_values.mpr ⟨k, hq⟩)
    have hlt : i / 16 < q.pages.length := by omega
    exact ⟨_, List.getElem?_eq_getElem hlt,
      hw.faithful.seq k q hq i _ hi (List.getElem?_eq_getElem hlt)⟩
  · exact hw.faithful.node i n _ hn (hc.lab_node i n hn)
  · have hm := hw.minted pd hpd b hb hid
    refine ⟨hm.slots_distinct, fun x hx => ?_⟩
    obtain ⟨-, -, -, hnode, hown⟩ := hm.exclusive hx
    refine ⟨fun i n hn => hnode i n (hm.reserved.nodes.symm ▸ hn), ?_⟩
    rintro s (rfl | rfl) k q hk hmem
    · exact hm.exclusive_committed hx hk hmem
    · exact hown k q hk hmem

/-- One call, followed by its effect on the memory. -/
def World.exec (w : World) (c : Call) : Outcome PagedError World := do
  let (reply, pool) ← w.pool.call c
  return w.after c reply pool

theorem reachable_of_exec {w' : World} {c : Call} (h : worldSystem.Reachable w)
    (hg : w.Genuine c) (hx : w.exec c = .ok w') : worldSystem.Reachable w' := by
  obtain ⟨⟨reply, pool⟩, hc, he⟩ := bind_eq_ok.mp hx
  exact .step (a := c) h ⟨hg, .inl ⟨reply, pool, hc, (Except.ok.inj he).symm⟩⟩

/-- A batch from its reservation to its completion. -/
def World.compute (w : World) (rows : List PageRow) : Outcome PagedError World := do
  let w ← w.exec (.reserveBatch rows)
  let b ← orPanic w.issued.head?
  let w ← w.exec (.beginSubmission b)
  w.exec (.commitBatch b (.afterAllRanks b))

theorem reachable_of_compute {w' : World} {rows : List PageRow} (h : worldSystem.Reachable w)
    (hx : w.compute rows = .ok w') : worldSystem.Reachable w' := by
  obtain ⟨w₁, h₁, hx⟩ := bind_eq_ok.mp hx
  obtain ⟨b, hb, hx⟩ := bind_eq_ok.mp hx
  obtain ⟨w₂, h₂, h₃⟩ := bind_eq_ok.mp hx
  have hb₁ : b ∈ w₁.issued := List.mem_of_mem_head? (orPanic_eq_ok.mp hb)
  have hb₂ : b ∈ w₂.issued := by
    obtain ⟨⟨reply, pool⟩, hc, he⟩ := bind_eq_ok.mp h₂
    obtain ⟨p', -, hp⟩ := bind_eq_ok.mp hc
    obtain ⟨rfl, rfl⟩ := Prod.mk.inj (Except.ok.inj hp)
    exact Except.ok.inj he ▸ hb₁
  have hreserved : worldSystem.Reachable w₁ :=
    reachable_of_exec h (fun _ hb' => by simp [Call.batch?] at hb') h₁
  have hsubmitted : worldSystem.Reachable w₂ :=
    reachable_of_exec (c := .beginSubmission b) hreserved
      (fun _ hb' => .inl (Option.some.inj hb' ▸ hb₁)) h₂
  exact reachable_of_exec (c := .commitBatch b (.afterAllRanks b)) hsubmitted
    (fun _ hb' => .inl (Option.some.inj hb' ▸ hb₂)) h₃

/-- A page is computed and retained, and the next request with this prompt takes it and computes
only its last token. -/
def cachedPage : Outcome PagedError World := do
  let w ← World.exec ⟨smallPool, [], fun _ => []⟩
    (.openSequence smallPool.scope (List.range 17) 3)
  let w ← w.compute (pageRows 1 0)
  let w ← w.exec (.retireSequence ⟨1, 1⟩ true 4)
  let w ← w.exec (.openSequence smallPool.scope (List.range 17) 4)
  w.compute [⟨⟨1, 2⟩, 16, 16⟩]

theorem reachable_cachedPage (h : cachedPage = .ok w) : worldSystem.Reachable w := by
  obtain ⟨w₁, h₁, h⟩ := bind_eq_ok.mp h
  obtain ⟨w₂, h₂, h⟩ := bind_eq_ok.mp h
  obtain ⟨w₃, h₃, h⟩ := bind_eq_ok.mp h
  obtain ⟨w₄, h₄, h₅⟩ := bind_eq_ok.mp h
  have hopened : worldSystem.Reachable w₁ :=
    reachable_of_exec (.init ⟨fresh_smallPool, rfl⟩) (fun _ hb => by simp [Call.batch?] at hb) h₁
  have hretired : worldSystem.Reachable w₃ :=
    reachable_of_exec (reachable_of_compute hopened h₂) (fun _ hb => by simp [Call.batch?] at hb) h₃
  exact reachable_of_compute
    (reachable_of_exec hretired (fun _ hb => by simp [Call.batch?] at hb) h₄) h₅

/-- All seventeen positions of the second request hold its tokens, the first sixteen in the cached
page. -/
theorem content_of_reachable_cachedPage :
    ∃ w, worldSystem.Reachable w ∧
      (w.pool.state.sequences.get? 2).map (fun q => (q.tokens, q.pages)) =
        some (List.range 17, [0, 1]) ∧
      w.pool.state.nodes.filterMap (Option.map RadixNode.page) = [0] ∧
      ∀ k q, w.pool.state.sequences.get? k = some q → ∀ i < q.tokens.length,
        ∃ page, q.pages[i / 16]? = some page ∧ w.mem (page, i % 16) = q.tokens.take (i + 1) := by
  have hrun : cachedPage.map (fun w =>
      ((w.pool.state.sequences.get? 2).map (fun q => (q.tokens, q.pages)),
        w.pool.state.nodes.filterMap (Option.map RadixNode.page))) =
      .ok (some (List.range 17, [0, 1]), [0]) := by decide +kernel
  cases hr : cachedPage with
  | error e => simp [hr, Except.map] at hrun
  | ok w =>
    rw [hr] at hrun
    obtain ⟨hsequence, hnodes⟩ := Prod.mk.inj (Except.ok.inj hrun)
    have h := reachable_cachedPage hr
    exact ⟨w, h, hsequence, hnodes, (content_of_reachable h).1⟩

/-! ### Pools that have admitted nothing -/

/-- Before the first admission there is nothing to be faithful to. -/
structure Unused (p : PagedPool) : Prop where
  pending : p.pending = none
  faithful : ∀ mem, Faithful mem p.state

variable {p : PagedPool}

theorem Unused.transacted {Q : State → Prop} {p' : PagedPool} (h : p.Unused)
    (ht : p.Transacted Q p') (hkeeps : Keeps p.state p'.state) : p'.Unused := by
  refine ⟨?_, fun mem => hkeeps mem (h.faithful mem)⟩
  rw [ht.eq]
  exact h.pending

/-- No batch can be reserved before the first admission. -/
theorem Prepared.admitted {rows : List PageRow} {batch : PreparedBatch} {p' : PagedPool} {r : State}
    (h : p.Prepared rows batch p' r) (hp : p.PoolInv) : p.state.nextSequence ≠ 1 := by
  intro hone
  obtain ⟨row, hrow⟩ := List.exists_mem_of_ne_nil _ h.nonempty
  obtain ⟨-, hlive⟩ := h.minted.reserved.live row (h.input ▸ hrow)
  obtain ⟨q, hq⟩ := Option.ne_none_iff_exists'.mp hlive
  have := hp.state.serial _ q hq
  omega

theorem Unused.call {reply : Reply} {p' : PagedPool} {c : Call} (hp : p.PoolInv)
    (h : p.state.nextSequence = 1 → p.Unused) (hc : p.call c = .ok (reply, p'))
    (hone : p'.state.nextSequence = 1) : p'.Unused := by
  -- A call on an outstanding batch is a call on a pool that has admitted something.
  have hbusy : ∀ {batch pd}, p.Outstanding batch pd → p.state.nextSequence ≠ 1 := by
    intro batch pd ho hn
    have hpending := (h hn).pending
    simp [ho.pending] at hpending
  cases c with
  | openSequence scope prompt now =>
    obtain ⟨⟨hit, p₁⟩, hr, he⟩ := bind_eq_ok.mp hc
    obtain ⟨-, rfl⟩ := Prod.mk.inj (Except.ok.inj he)
    have ht := (openSequence_ensures hp).of_ok hr
    have hnext := ht.post.2.nextSequence
    have := hp.state.next_pos
    simp only at hnext hone
    omega
  | reserveBatch rows =>
    obtain ⟨⟨batch, p₁⟩, hr, he⟩ := bind_eq_ok.mp hc
    obtain ⟨-, rfl⟩ := Prod.mk.inj (Except.ok.inj he)
    obtain ⟨r, hprep⟩ := (reserveBatch_ensures hp).of_ok hr
    have heq : p₁ = _ := hprep.eq
    refine absurd ?_ (hprep.admitted hp)
    rwa [heq] at hone
  | beginSubmission batch =>
    obtain ⟨p₁, hr, he⟩ := bind_eq_ok.mp hc
    obtain ⟨-, rfl⟩ := Prod.mk.inj (Except.ok.inj he)
    obtain ⟨pd, ho, -, rfl⟩ := beginSubmission_ensures.of_ok hr
    exact absurd hone (hbusy ho)
  | abortBatch batch =>
    obtain ⟨p₁, hr, he⟩ := bind_eq_ok.mp hc
    obtain ⟨-, rfl⟩ := Prod.mk.inj (Except.ok.inj he)
    obtain ⟨pd, ho, -, rfl⟩ := abortBatch_ensures.of_ok hr
    exact absurd hone (hbusy ho)
  | commitBatch batch completion =>
    obtain ⟨p₁, hr, he⟩ := bind_eq_ok.mp hc
    obtain ⟨-, rfl⟩ := Prod.mk.inj (Except.ok.inj he)
    obtain ⟨pd, ho, -, rfl⟩ := commitBatch_ensures.of_ok hr
    obtain ⟨prepared, hm⟩ := hp.pending pd ho.pending
    exact absurd (hm.reserved.nextSequence.symm.trans hone) (hbusy ho)
  | quarantineBatch batch =>
    obtain ⟨p₁, hr, he⟩ := bind_eq_ok.mp hc
    obtain ⟨-, rfl⟩ := Prod.mk.inj (Except.ok.inj he)
    obtain ⟨pd, ho, -, rfl⟩ := quarantineBatch_ensures.of_ok hr
    exact absurd hone (hbusy ho)
  | retireSequence sequence publishPrefix now =>
    obtain ⟨⟨_, p₁⟩, hr, he⟩ := bind_eq_ok.mp hc
    obtain ⟨-, rfl⟩ := Prod.mk.inj (Except.ok.inj he)
    have ht := (retireSequence_ensures hp).of_ok hr
    exact (h (ht.post.2.2.symm.trans hone)).transacted ht ht.post.1
  | cancelSequence sequence =>
    obtain ⟨⟨_, p₁⟩, hr, he⟩ := bind_eq_ok.mp hc
    obtain ⟨-, rfl⟩ := Prod.mk.inj (Except.ok.inj he)
    have ht := (cancelSequence_ensures hp).of_ok hr
    exact (h (ht.post.2.2.symm.trans hone)).transacted ht ht.post.1
  | expire now =>
    obtain ⟨⟨_, p₁⟩, hr, he⟩ := bind_eq_ok.mp hc
    obtain ⟨-, rfl⟩ := Prod.mk.inj (Except.ok.inj he)
    have ht := (expire_ensures hp).of_ok hr
    exact (h (ht.post.2.2.symm.trans hone)).transacted ht ht.post.1
  | evictUnused pagesNeeded =>
    obtain ⟨⟨_, p₁⟩, hr, he⟩ := bind_eq_ok.mp hc
    obtain ⟨-, rfl⟩ := Prod.mk.inj (Except.ok.inj he)
    have ht := (evictUnused_ensures hp).of_ok hr
    exact (h (ht.post.2.2.1.symm.trans hone)).transacted ht ht.post.1
  | committedPosition sequence =>
    obtain ⟨_, -, he⟩ := bind_eq_ok.mp hc
    obtain ⟨-, rfl⟩ := Prod.mk.inj (Except.ok.inj he)
    exact h hone
  | stats =>
    obtain ⟨_, -, he⟩ := bind_eq_ok.mp hc
    obtain ⟨-, rfl⟩ := Prod.mk.inj (Except.ok.inj he)
    exact h hone
  | checkInvariants =>
    obtain ⟨_, -, he⟩ := bind_eq_ok.mp hc
    obtain ⟨-, rfl⟩ := Prod.mk.inj (Except.ok.inj he)
    exact h hone

/-- A reachable pool that has admitted nothing is faithfully described by every memory. -/
theorem unused_of_reachable (h : poolSystem.Reachable p) (hone : p.state.nextSequence = 1) :
    p.Unused := by
  refine System.Reachable.induction (S := poolSystem)
    (I := fun p => p.state.nextSequence = 1 → p.Unused) ?_ ?_ h hone
  · intro p hp _
    obtain ⟨-, -, hs, hpd, -, -⟩ := Fresh.eq hp
    exact ⟨hpd, fun mem => hs ▸ faithful_fresh⟩
  · rintro p c p' hr ih (⟨reply, hc⟩ | ⟨-, rfl⟩) hone
    · exact Unused.call (poolInv_of_reachable hr) ih hc hone
    · exact ih hone

end PagedPool

end TpPaged

end Ferric
