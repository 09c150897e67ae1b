import Ferric.Cache.Content
import Ferric.Lib.Generations
import Mathlib.Data.Finset.Card
import Mathlib.Data.Finset.Image
import Mathlib.Data.Finset.Range

/-!
# Conservation and identities

Every page is on the free stack or in some chain, and never both. A run that logs the page ids it
allocates and the request ids it creates never logs one twice, and an id that was given back is
refused from then on.

## Main results

* `reachable_identities` — conservation, transactional errors and fresh identities over whole runs
-/

namespace Ferric

namespace Cache

open Spec KvPool

variable {p p' : KvPool}

/-! ### Conservation -/

/-- `free_stack[..free_len]` -/
def KvPool.freeList (p : KvPool) : List ℕ := (List.range p.freeLen).map p.freeStack

/-- `pages[..page_count]` of a request slot. -/
def KvPool.chain (p : KvPool) (s : ℕ) : List PageId :=
  (List.range (p.requests s).pageCount).map (p.requests s).pages

theorem mem_chain {s : ℕ} {page : PageId} :
    page ∈ p.chain s ↔ ∃ i < (p.requests s).pageCount, (p.requests s).pages i = page := by
  simp [KvPool.chain]

theorem mem_chain_index {s k : ℕ} : k ∈ (p.chain s).map PageId.index ↔ p.Holds s k := by
  simp [KvPool.chain, KvPool.Holds]

/-- Where a page is. -/
inductive Placed (p : KvPool) (k : ℕ) : Prop
  /-- On the stack, once. -/
  | free (once : p.freeList.count k = 1) (bitmap : p.freeBitmap k = true)
    (state : (p.pages k).state = .free) (mask : (p.pages k).referenceMask = 0)
    (unchained : ∀ s < maxRequestSlots, k ∉ (p.chain s).map PageId.index)
  /-- In the chains that its mask names, once in each. -/
  | chained (off : k ∉ p.freeList) (bitmap : p.freeBitmap k = false)
    (some : ∃ s < maxRequestSlots, k ∈ (p.chain s).map PageId.index)
    (mask : ∀ s < maxRequestSlots, (p.pages k).referenceMask.getLsbD s = true ↔
      (p.requests s).live = true ∧ k ∈ (p.chain s).map PageId.index)
    (once : ∀ s < maxRequestSlots, ((p.chain s).map PageId.index).count k ≤ 1)

theorem mem_freeList (h : p.WellFormed) {k : ℕ} (hk : k < p.pageLimit) :
    k ∈ p.freeList ↔ (p.pages k).state = .free := by
  rw [(h.page k hk).bitmap, h.stack.mem_iff k hk]
  simp [KvPool.freeList]

theorem nodup_freeList (h : p.WellFormed) : p.freeList.Nodup := by
  refine List.Nodup.map_on (fun i hi j hj => ?_) List.nodup_range
  exact h.stack.inj i (List.mem_range.mp hi) j (List.mem_range.mp hj)

theorem nodup_chain_index (h : p.WellFormed) {s : ℕ} (hs : s < maxRequestSlots) :
    ((p.chain s).map PageId.index).Nodup := by
  rw [KvPool.chain, List.map_map]
  refine List.Nodup.map_on (fun i hi j hj => ?_) List.nodup_range
  exact h.distinct s hs i (List.mem_range.mp hi) j (List.mem_range.mp hj)

theorem KvPool.WellFormed.placed (h : p.WellFormed) {k : ℕ} (hk : k < p.pageLimit) :
    Placed p k := by
  obtain ⟨-, -, hheld, hbitmap, hfree, hnf⟩ := h.page k hk
  by_cases hstate : (p.pages k).state = .free
  · refine .free (List.count_eq_one_of_mem (nodup_freeList h) ((mem_freeList h hk).mpr hstate))
      (hbitmap.mp hstate) hstate (hfree hstate).2 fun s hs hmem => ?_
    exact h.not_free_of_holds hs (mem_chain_index.mp hmem) hstate
  · obtain ⟨j, hj⟩ := ne_zero_iff_getLsbD.mp (hnf hstate)
    refine .chained (fun hmem => hstate ((mem_freeList h hk).mp hmem))
      (Bool.eq_false_iff.mpr fun hbit => hstate (hbitmap.mpr hbit))
      ⟨j, lt_of_getLsbD hj, mem_chain_index.mpr (hheld j hj)⟩ (fun s hs => ?_)
      fun s hs => List.nodup_iff_count_le_one.mp (nodup_chain_index h hs) k
    rw [mem_chain_index]
    refine ⟨fun hbit => ⟨?_, hheld s hbit⟩, fun hmem => h.referenced_of_holds hs hmem.2⟩
    obtain ⟨i, hi, -⟩ := hheld s hbit
    by_contra hdead
    have := (h.request s hs).idle (Bool.eq_false_iff.mpr hdead)
    omega

/-- The pages that some chain has. -/
def KvPool.chained (p : KvPool) : Finset ℕ :=
  (Finset.range p.pageLimit).filter fun k =>
    ∃ s ∈ Finset.range maxRequestSlots, k ∈ (p.chain s).map PageId.index

theorem KvPool.WellFormed.conserved (h : p.WellFormed) :
    p.freeLen + p.chained.card = p.pageLimit := by
  have hfree : p.freeLen = p.freeList.toFinset.card := by
    rw [List.toFinset_card_of_nodup (nodup_freeList h)]
    simp [KvPool.freeList]
  have hlt : ∀ k ∈ p.freeList, k < p.pageLimit := by
    intro k hk
    obtain ⟨i, hi, rfl⟩ := List.mem_map.mp hk
    exact h.stack.lt i (List.mem_range.mp hi)
  have hdisjoint : Disjoint p.freeList.toFinset p.chained := by
    refine Finset.disjoint_left.mpr fun k hk hc => ?_
    obtain ⟨hlimit, s, hs, hmem⟩ := Finset.mem_filter.mp hc
    refine h.not_free_of_holds (Finset.mem_range.mp hs) (mem_chain_index.mp hmem) ?_
    exact (mem_freeList h (Finset.mem_range.mp hlimit)).mp (List.mem_toFinset.mp hk)
  have hunion : p.freeList.toFinset ∪ p.chained = Finset.range p.pageLimit := by
    ext k
    rw [Finset.mem_union, List.mem_toFinset, Finset.mem_range]
    constructor
    · rintro (hk | hk)
      · exact hlt k hk
      · exact Finset.mem_range.mp (Finset.mem_filter.mp hk).1
    · intro hk
      by_cases hstate : (p.pages k).state = .free
      · exact .inl ((mem_freeList h hk).mpr hstate)
      · obtain ⟨j, hj⟩ := ne_zero_iff_getLsbD.mp ((h.page k hk).of_not_free hstate)
        refine .inr (Finset.mem_filter.mpr ⟨Finset.mem_range.mpr hk, j,
          Finset.mem_range.mpr (lt_of_getLsbD hj), mem_chain_index.mpr ((h.page k hk).held j hj)⟩)
  rw [hfree, ← Finset.card_union_of_disjoint hdisjoint, hunion, Finset.card_range]

/-! ### Stamps -/

/-- How often a request slot has been taken or given back. -/
def KvPool.requestStamp (p : KvPool) (s : ℕ) : ℕ :=
  2 * (p.requests s).generation + if (p.requests s).live then 1 else 0

theorem KvPool.Live.requestStamp {r : RequestId} (h : p.Live r) :
    p.requestStamp r.slot = 2 * r.generation + 1 := by
  rw [KvPool.requestStamp, h.2.1, h.2.2, if_pos rfl]

theorem KvPool.Vacant.requestStamp {r : RequestId} (h : p.Vacant r) :
    p.requestStamp r.slot = 2 * r.generation := by
  rw [KvPool.requestStamp, h.2.1, h.2.2]
  rfl

/-- A page in a chain carries the stamp of its id. -/
theorem KvPool.WellFormed.pageStamp_chain (h : p.WellFormed) {s : ℕ} (hs : s < maxRequestSlots)
    {page : PageId} (hpage : page ∈ p.chain s) :
    p.pageStamp page.index = 2 * page.generation + 1 := by
  obtain ⟨i, hi, rfl⟩ := mem_chain.mp hpage
  obtain ⟨g1, -, -, g4, -, -⟩ := h.serves s hs i hi
  rw [KvPool.pageStamp, g1, if_neg g4]

/-- A page that left every chain has moved on to its next generation. -/
theorem pageStamp_of_dropped (h : p.WellFormed) (h' : p'.WellFormed) {s : ℕ}
    (hs : s < maxRequestSlots) (he : Evolves s p p') {page : PageId} (hpage : page ∈ p.chain s)
    (hgone : ∀ j < maxRequestSlots, page.index ∉ (p'.chain j).map PageId.index) :
    2 * page.generation + 2 ≤ p'.pageStamp page.index := by
  have hle := he.stamp page.index
  rw [h.pageStamp_chain hs hpage] at hle
  obtain ⟨i, hi, rfl⟩ := mem_chain.mp hpage
  have hlimit : ((p.requests s).pages i).index < p'.pageLimit :=
    he.geometry.2.2 ▸ h.index_lt s hs i hi
  have hfree : (p'.pages ((p.requests s).pages i).index).state = .free := by
    by_contra hnf
    obtain ⟨j, hj⟩ := ne_zero_iff_getLsbD.mp ((h'.page _ hlimit).of_not_free hnf)
    exact hgone j (lt_of_getLsbD hj) (mem_chain_index.mpr ((h'.page _ hlimit).held j hj))
  rw [KvPool.pageStamp, if_pos hfree] at hle ⊢
  omega

/-! ### Runs with a log -/

/-- A pool, and the identities that were taken and given back. -/
structure Logged where
  pool : KvPool
  allocated : List PageId
  released : List PageId
  created : List RequestId
  retired : List RequestId

/-- The page ids at the new positions of a chain. -/
def freshPages (p p' : KvPool) (s : ℕ) : List PageId :=
  (p'.chain s).drop (p.requests s).pageCount

/-- The page ids of a chain that are in no chain afterwards. -/
def droppedPages (p p' : KvPool) (s : ℕ) : List PageId :=
  (p.chain s).filter fun page => decide
    (∀ j ∈ List.range maxRequestSlots, page.index ∉ (p'.chain j).map PageId.index)

/-- What a call that returned adds to the log. -/
def Logged.record (g : Logged) (pool' : KvPool) : Op → Logged
  | .create request => { g with pool := pool', created := g.created ++ [request] }
  | .append request _ =>
    { g with
      pool := pool'
      allocated := g.allocated ++ freshPages g.pool pool' request.slot }
  | .share _ _ _ => { g with pool := pool' }
  | .finalize request _ =>
    { g with
      pool := pool'
      released := g.released ++ droppedPages g.pool pool' request.slot }
  | .release request =>
    { g with
      pool := pool'
      released := g.released ++ droppedPages g.pool pool' request.slot
      retired := g.retired ++ [request] }

/-- The state after a call. -/
def Logged.apply (g : Logged) (op : Op) : Logged :=
  match op.run.exec g.pool with
  | (.ok _, pool') => g.record pool' op
  | (.error _, pool') => { g with pool := pool' }

/-- Calls in any order with any arguments. -/
def logged : System Logged Op where
  init g := (∃ pageCount pageTokens maxContextTokens,
    newBounded pageCount pageTokens maxContextTokens = .ok g.pool) ∧
    g.allocated = [] ∧ g.released = [] ∧ g.created = [] ∧ g.retired = []
  step g op g' := g' = g.apply op

/-- The logs agree with the stamps of the pool. -/
structure Logged.Sound (g : Logged) : Prop where
  wellFormed : g.pool.WellFormed
  pages : Issued PageId.index PageId.generation g.pool.pageStamp g.allocated g.released
  requests : Issued RequestId.slot RequestId.generation g.pool.requestStamp g.created g.retired
  released_lt : ∀ page ∈ g.released, page.index < g.pool.pageLimit
  retired_lt : ∀ request ∈ g.retired, request.slot < maxRequestSlots

theorem requestStamp_of_ne {s j : ℕ} (h : Evolves s p p') (hj : j ≠ s) :
    p'.requestStamp j = p.requestStamp j := by
  rw [KvPool.requestStamp, KvPool.requestStamp, h.others j hj]

/-- A call that keeps the request of its slot keeps every stamp of a request. -/
theorem requestStamp_eq {s : ℕ} (h : Evolves s p p')
    (hgen : (p'.requests s).generation = (p.requests s).generation)
    (hlive : (p'.requests s).live = (p.requests s).live) : p'.requestStamp = p.requestStamp := by
  funext j
  by_cases hj : j = s
  · rw [KvPool.requestStamp, KvPool.requestStamp, hj, hgen, hlive]
  · exact requestStamp_of_ne h hj

/-- What an append takes from the stack was free under its id, and is not any more. -/
theorem freshPages_spec {s n : ℕ} (hs : s < maxRequestSlots) (h : Appended s n p p') :
    (freshPages p p' s).Nodup ∧ ∀ page ∈ freshPages p p' s,
      p.pageStamp page.index = 2 * page.generation ∧
        p'.pageStamp page.index = 2 * page.generation + 1 := by
  refine ⟨?_, fun page hpage => ?_⟩
  · exact (List.drop_sublist ..).nodup (List.Nodup.of_map _ (nodup_chain_index h.wellFormed hs))
  · have hstamp := h.wellFormed.pageStamp_chain hs (List.mem_of_mem_drop hpage)
    obtain ⟨i, hi, heq⟩ := List.mem_iff_getElem.mp hpage
    rw [freshPages, List.length_drop, KvPool.chain, List.length_map, List.length_range] at hi
    simp only [freshPages, KvPool.chain, List.getElem_drop, List.getElem_map,
      List.getElem_range] at heq
    have hfree := h.fresh ((p.requests s).pageCount + i) (by omega) (Nat.le_add_right ..)
    rw [heq] at hfree
    refine ⟨?_, hstamp⟩
    rw [KvPool.pageStamp, h.generations] at hstamp
    rw [KvPool.pageStamp, if_pos hfree]
    split at hstamp <;> omega

theorem droppedPages_spec {s : ℕ} (h : p.WellFormed) (h' : p'.WellFormed)
    (hs : s < maxRequestSlots) (he : Evolves s p p') :
    ∀ page ∈ droppedPages p p' s,
      2 * page.generation + 2 ≤ p'.pageStamp page.index ∧ page.index < p.pageLimit := by
  intro page hpage
  obtain ⟨hmem, hgone⟩ := List.mem_filter.mp hpage
  have hgone := of_decide_eq_true hgone
  refine ⟨pageStamp_of_dropped h h' hs he hmem fun j hj => hgone j (List.mem_range.mpr hj), ?_⟩
  obtain ⟨i, hi, rfl⟩ := mem_chain.mp hmem
  exact h.index_lt s hs i hi

variable {g : Logged}

/-- A call keeps the ids that were given back within the geometry. -/
theorem Logged.Sound.released_lt_of (h : g.Sound) {s : ℕ} (he : Evolves s g.pool p') :
    ∀ page ∈ g.released, page.index < p'.pageLimit :=
  fun page hpage => he.geometry.2.2 ▸ h.released_lt page hpage

/-- **Step lemma.** -/
theorem Logged.Sound.record (h : g.Sound) {op : Op} (heff : op.Effect g.pool p') :
    (g.record p' op).Sound := by
  have hwf := h.wellFormed
  cases op with
  | create r =>
    have hc : Created r g.pool p' := heff
    have hpages : p'.pageStamp = g.pool.pageStamp := by
      funext k
      rw [KvPool.pageStamp, KvPool.pageStamp, hc.pages]
    have hle : ∀ j, g.pool.requestStamp j ≤ p'.requestStamp j := by
      intro j
      by_cases hj : j = r.slot
      · rw [hj, hc.vacant.requestStamp, hc.live.requestStamp]
        omega
      · rw [requestStamp_of_ne hc.evolves hj]
    refine ⟨hc.wellFormed, hpages ▸ h.pages, ?_, h.released_lt_of hc.evolves, h.retired_lt⟩
    refine h.requests.take hle (List.nodup_singleton r) (fun x hx => ?_) fun x hx => ?_
    · rw [List.mem_singleton.mp hx, hc.vacant.requestStamp]
    · rw [List.mem_singleton.mp hx]
      exact hc.live.requestStamp
  | append r n =>
    obtain ⟨hl, happ⟩ := heff
    obtain ⟨hnd, hfresh⟩ := freshPages_spec hl.1 happ
    exact ⟨happ.wellFormed, h.pages.take happ.evolves.stamp hnd (fun x hx => (hfresh x hx).1)
      fun x hx => (hfresh x hx).2,
      (requestStamp_eq happ.evolves happ.generation happ.live) ▸ h.requests,
      h.released_lt_of happ.evolves, h.retired_lt⟩
  | share source target n =>
    obtain ⟨-, hsh⟩ := heff
    exact ⟨hsh.wellFormed, h.pages.mono hsh.evolves.stamp,
      (requestStamp_eq hsh.evolves hsh.generation hsh.live) ▸ h.requests,
      h.released_lt_of hsh.evolves, h.retired_lt⟩
  | finalize r a =>
    obtain ⟨hl, hf⟩ := heff
    have hdrop := droppedPages_spec hwf hf.wellFormed hl.1 hf.evolves
    refine ⟨hf.wellFormed, (h.pages.mono hf.evolves.stamp).give fun x hx => (hdrop x hx).1,
      (requestStamp_eq hf.evolves hf.generation hf.live) ▸ h.requests, fun page hpage => ?_,
      h.retired_lt⟩
    rcases List.mem_append.mp hpage with hpage | hpage
    · exact h.released_lt_of hf.evolves page hpage
    · exact hf.evolves.geometry.2.2 ▸ (hdrop page hpage).2
  | release r =>
    obtain ⟨hl, hr⟩ := heff
    have hdrop := droppedPages_spec hwf hr.wellFormed hl.1 hr.evolves
    have hstamp : p'.requestStamp r.slot = 2 * r.generation + 2 := by
      rw [KvPool.requestStamp, hr.dead, hr.generation, hl.2.2]
      rfl
    have hle : ∀ j, g.pool.requestStamp j ≤ p'.requestStamp j := by
      intro j
      by_cases hj : j = r.slot
      · rw [hj, hl.requestStamp, hstamp]
        omega
      · rw [requestStamp_of_ne hr.evolves hj]
    refine ⟨hr.wellFormed, (h.pages.mono hr.evolves.stamp).give fun x hx => (hdrop x hx).1,
      (h.requests.mono hle).give fun x hx => ?_, fun page hpage => ?_, fun x hx => ?_⟩
    · rw [List.mem_singleton.mp hx]
      exact hstamp.ge
    · rcases List.mem_append.mp hpage with hpage | hpage
      · exact h.released_lt_of hr.evolves page hpage
      · exact hr.evolves.geometry.2.2 ▸ (hdrop page hpage).2
    · rcases List.mem_append.mp hx with hx | hx
      · exact h.retired_lt x hx
      · exact List.mem_singleton.mp hx ▸ hl.1

/-- **Run lemma.** -/
theorem logged_sound (hg : logged.Reachable g) : g.Sound := by
  refine System.Reachable.induction (I := Logged.Sound) ?_ ?_ hg
  · rintro g ⟨⟨a, b, c, hnew⟩, ha, hr, hc, ht⟩
    obtain ⟨hwf, -, -⟩ := (newBounded_ensures a b c).of_ok hnew
    exact ⟨hwf, by rw [ha, hr]; exact .nil, by rw [hc, ht]; exact .nil, by simp [hr], by simp [ht]⟩
  · rintro g op g' _ ih rfl
    rw [Logged.apply]
    rcases (Op.runs ih.wellFormed op).cases with ⟨_, p', hx, heff⟩ | ⟨e, p', hx, rfl, -⟩
    · rw [hx]
      exact ih.record heff
    · rw [hx]
      exact ih

/-! ### Stale identities -/

/-- A page id that was given back. -/
theorem Logged.Sound.stale_page (h : g.Sound) {page : PageId} (hpage : page ∈ g.released) :
    g.pool.pageSlot page = .error (.err (.stalePage page)) ∧
      ∀ s < maxRequestSlots, page ∉ g.pool.chain s := by
  have hstamp := h.pages.given_le page hpage
  have hlimit := h.released_lt page hpage
  have hgen : (g.pool.pages page.index).generation ≠ page.generation := by
    rw [KvPool.pageStamp] at hstamp
    split at hstamp <;> omega
  constructor
  · rw [pageSlot, failIf_of_not (not_le.mpr hlimit), ok_bind,
      pageAt_of_lt h.wellFormed.geometry hlimit, ok_bind, Ferric.failIf, if_pos hgen]
    rfl
  · intro s hs hmem
    obtain ⟨i, hi, rfl⟩ := mem_chain.mp hmem
    exact hgen (h.wellFormed.serves s hs i hi).generation

/-- The slot of a request id that was given back has moved on. -/
theorem Logged.Sound.generation_lt (h : g.Sound) {request : RequestId} (hr : request ∈ g.retired) :
    request.generation < (g.pool.requests request.slot).generation := by
  have hstamp := h.requests.given_le request hr
  rw [KvPool.requestStamp] at hstamp
  split at hstamp <;> omega

/-- A request id that was given back is looked up in vain. -/
theorem Logged.Sound.stale_request (h : g.Sound) {request : RequestId} (hr : request ∈ g.retired) :
    g.pool.liveRequestIndex request = .error (.err (.unknownRequest request.slot)) ∨
      g.pool.liveRequestIndex request = .error (.err (.staleRequestGeneration request.slot
        (g.pool.requests request.slot).generation request.generation)) := by
  have hs := h.retired_lt request hr
  rw [liveRequestIndex, failIf_of_not (not_le.mpr hs), ok_bind, requestAt_of_lt hs, ok_bind]
  cases (g.pool.requests request.slot).live with
  | false => exact .inl rfl
  | true =>
    right
    rw [failIf_of_not (by simp), ok_bind, Ferric.failIf, if_pos (h.generation_lt hr).ne']
    rfl

/-- The request ids that a call names. -/
def Op.requests : Op → List RequestId
  | .create request => [request]
  | .append request _ => [request]
  | .share source target _ => [source, target]
  | .finalize request _ => [request]
  | .release request => [request]

/-- A call that returned named live requests only, or one that was vacant. -/
theorem Op.Effect.named {op : Op} (h : op.Effect p p') {request : RequestId}
    (hr : request ∈ op.requests) : p.Live request ∨ p.Vacant request := by
  cases op with
  | create r => exact .inr (List.mem_singleton.mp hr ▸ Created.vacant h)
  | append r n => exact .inl (List.mem_singleton.mp hr ▸ h.1)
  | share source target n =>
    rcases List.mem_pair.mp hr with rfl | rfl
    · exact .inl h.1.source_live
    · exact .inl h.1.target_live
  | finalize r a => exact .inl (List.mem_singleton.mp hr ▸ h.1)
  | release r => exact .inl (List.mem_singleton.mp hr ▸ h.1)

/-- **Conservation and identities.** In every reachable state every page is placed exactly once and
the counts add up; every call that fails leaves the pool as it was; no page id was allocated and no
request id created twice; and an id that was given back is stale for every call that follows. -/
theorem reachable_identities (hg : logged.Reachable g) :
    (∀ k < g.pool.pageLimit, Placed g.pool k) ∧
      g.pool.freeLen + g.pool.chained.card = g.pool.pageLimit ∧
      (∀ (op : Op) fault pool', op.run.exec g.pool = (.error fault, pool') →
        pool' = g.pool ∧ ∃ e, fault = .err e) ∧
      g.allocated.Nodup ∧ g.created.Nodup ∧
      (∀ page ∈ g.released, g.pool.pageSlot page = .error (.err (.stalePage page)) ∧
        ∀ s < maxRequestSlots, page ∉ g.pool.chain s) ∧
      ∀ request ∈ g.retired,
        (g.pool.liveRequestIndex request = .error (.err (.unknownRequest request.slot)) ∨
          g.pool.liveRequestIndex request = .error (.err (.staleRequestGeneration request.slot
            (g.pool.requests request.slot).generation request.generation))) ∧
          ∀ op : Op, request ∈ op.requests →
            ∃ e, op.run.exec g.pool = (.error (.err e), g.pool) := by
  have h := logged_sound hg
  refine ⟨fun k hk => h.wellFormed.placed hk, h.wellFormed.conserved, fun op fault pool' hx => ?_,
    h.pages.nodup, h.requests.nodup, fun page hpage => h.stale_page hpage,
    fun request hr => ⟨h.stale_request hr, fun op hop => ?_⟩⟩
  · rcases (Op.runs h.wellFormed op).cases with ⟨_, p', hx', -⟩ | ⟨e, p', hx', rfl, -⟩
    · rw [hx] at hx'
      simp at hx'
    · obtain ⟨hfault, rfl⟩ := Prod.mk.inj (hx.symm.trans hx')
      exact ⟨rfl, e, Except.error.inj hfault⟩
  · rcases (Op.runs h.wellFormed op).cases with ⟨_, p', hx', heff⟩ | ⟨e, p', hx', rfl, -⟩
    · have hlt := h.generation_lt hr
      rcases heff.named hop with hl | hv
      · exact absurd hl.2.2 hlt.ne'
      · exact absurd hv.2.2 hlt.ne'
    · exact ⟨e, hx'⟩

/-- A run of calls. -/
def Logged.applyAll (g : Logged) (calls : List Op) : Logged := calls.foldl Logged.apply g

theorem logged_applyAll {calls : List Op} (hg : logged.Reachable g) :
    logged.Reachable (g.applyAll calls) := by
  induction calls generalizing g with
  | nil => exact hg
  | cons op calls ih => exact ih (.step hg (a := op) rfl)

/-- Request 0 gives its two pages back, one of them already when it is finalized, and its slot and
one of the pages are taken again. -/
def recycledRun : Logged :=
  Logged.applyAll ⟨fourPages, [], [], [], []⟩
    [.create ⟨0, 1⟩, .append ⟨0, 1⟩ 3, .finalize ⟨0, 1⟩ 1, .release ⟨0, 1⟩, .create ⟨0, 2⟩,
      .append ⟨0, 2⟩ 1]

theorem reachable_identities_recycledRun :
    recycledRun.allocated = [⟨0, 1⟩, ⟨1, 1⟩, ⟨0, 2⟩] ∧ recycledRun.allocated.Nodup ∧
      recycledRun.pool.pageSlot ⟨0, 1⟩ = .error (.err (.stalePage ⟨0, 1⟩)) ∧
      ∃ e, (Op.append ⟨0, 1⟩ 1).run.exec recycledRun.pool =
        (.error (.err e), recycledRun.pool) := by
  have hg : logged.Reachable recycledRun :=
    logged_applyAll (.init ⟨⟨4, 2, 8, newBounded_four⟩, rfl, rfl, rfl, rfl⟩)
  have hpage : (⟨0, 1⟩ : PageId) ∈ recycledRun.released := by decide +kernel
  have hrequest : (⟨0, 1⟩ : RequestId) ∈ recycledRun.retired := by decide +kernel
  refine ⟨by decide +kernel, ?_⟩
  generalize recycledRun = g at hg hpage hrequest ⊢
  obtain ⟨-, -, -, hnd, -, hpages, hrequests⟩ := reachable_identities hg
  exact ⟨hnd, (hpages _ hpage).1, (hrequests _ hrequest).2 _ List.mem_cons_self⟩

end Cache

end Ferric
