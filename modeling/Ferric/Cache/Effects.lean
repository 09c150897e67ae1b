import Ferric.Cache.Writes

/-!
# What the helpers and loops of the KV pool do

`Evolves s p p'` says what any call that works for slot `s` leaves alone: the geometry, the other
request slots, and the order of events at every page, which `pageStamp` counts. The four structures
below say what the loops of the four operations do on top of that. Each composes, so a loop is an
induction with one helper per round.

## Main results

* `appendFreshPages_eq`, `sharePages_eq`, `dropTails_eq`, `releaseTails_eq` — the loops return
-/

namespace Ferric

namespace Cache

namespace KvPool

open Spec

variable {p p' p'' : KvPool} {s k : ℕ}

/-! ### Index expressions and plain arithmetic -/

theorem inBounds_of_lt {n i : ℕ} (h : i < n) : inBounds n i = .ok () := by
  rw [inBounds, if_pos h]
  rfl

theorem plus_of_lt {a b : ℕ} (h : a + b < 2 ^ 32) : plus a b = .ok (a + b) := by
  rw [plus, checkedAdd, if_pos h]
  rfl

theorem minus_of_le {a b : ℕ} (h : b ≤ a) : minus a b = .ok (a - b) := by
  rw [minus, checkedSub_of_le h]
  rfl

theorem requestAt_of_lt (h : s < maxRequestSlots) : p.requestAt s = .ok (p.requests s) := by
  rw [requestAt, inBounds_of_lt h]
  rfl

theorem pageAt_of_lt (hp : p.Geometry) (h : k < p.pageLimit) : p.pageAt k = .ok (p.pages k) := by
  rw [pageAt, inBounds_of_lt (h.trans_le hp.limit_le)]
  rfl

theorem WellFormed.chainAt_eq (h : p.WellFormed) (hs : s < maxRequestSlots) {i : ℕ}
    (hi : i < (p.requests s).pageCount) : p.chainAt s i = .ok ((p.requests s).pages i) := by
  rw [chainAt, requestAt_of_lt hs, ok_bind, inBounds_of_lt (hi.trans_le (h.pageCount_le hs))]
  rfl

theorem WellFormed.pageAt_chain (h : p.WellFormed) (hs : s < maxRequestSlots) {i : ℕ}
    (hi : i < (p.requests s).pageCount) :
    p.pageAt ((p.requests s).pages i).index = .ok (p.pages ((p.requests s).pages i).index) :=
  pageAt_of_lt h.geometry (h.index_lt s hs i hi)

/-! ### Frames -/

/-- How often a page has been taken from the stack or put back. -/
def pageStamp (p : KvPool) (k : ℕ) : ℕ :=
  2 * (p.pages k).generation + if (p.pages k).state = .free then 0 else 1

/-- What every call for slot `s` leaves alone. -/
structure Evolves (s : ℕ) (p p' : KvPool) : Prop where
  geometry : SameGeometry p p'
  others : ∀ j, j ≠ s → p'.requests j = p.requests j
  stamp : ∀ k, p.pageStamp k ≤ p'.pageStamp k

theorem SameGeometry.trans (h : SameGeometry p p') (h' : SameGeometry p' p'') :
    SameGeometry p p'' :=
  ⟨h'.1.trans h.1, h'.2.1.trans h.2.1, h'.2.2.trans h.2.2⟩

theorem Evolves.refl (s : ℕ) (p : KvPool) : Evolves s p p :=
  ⟨⟨rfl, rfl, rfl⟩, fun _ _ => rfl, fun _ => le_rfl⟩

theorem Evolves.trans (h : Evolves s p p') (h' : Evolves s p' p'') : Evolves s p p'' :=
  ⟨h.geometry.trans h'.geometry, fun j hj => (h'.others j hj).trans (h.others j hj),
    fun k => (h.stamp k).trans (h'.stamp k)⟩

/-- A call that writes one page moves the stamp of that page only. -/
theorem evolves_of_page (hg : SameGeometry p p') (hreq : ∀ j, j ≠ s → p'.requests j = p.requests j)
    (hpage : ∀ m, m ≠ k → p'.pages m = p.pages m) (hk : p.pageStamp k ≤ p'.pageStamp k) :
    Evolves s p p' := by
  refine ⟨hg, hreq, fun m => ?_⟩
  by_cases hm : m = k
  · exact hm ▸ hk
  · rw [pageStamp, pageStamp, hpage m hm]

/-! ### Appending -/

/-- The chain of `s` grew by `n` tokens. -/
structure Appended (s n : ℕ) (p p' : KvPool) : Prop where
  wellFormed : p'.WellFormed
  evolves : Evolves s p p'
  generation : (p'.requests s).generation = (p.requests s).generation
  live : (p'.requests s).live = (p.requests s).live
  committed : (p'.requests s).committedTokens = (p.requests s).committedTokens
  resident : (p'.requests s).residentTokens = (p.requests s).residentTokens + n
  count_le : (p.requests s).pageCount ≤ (p'.requests s).pageCount
  kept : ∀ i < (p.requests s).pageCount, (p'.requests s).pages i = (p.requests s).pages i
  fresh : ∀ i < (p'.requests s).pageCount, (p.requests s).pageCount ≤ i →
    (p.pages ((p'.requests s).pages i).index).state = .free
  generations : ∀ k, (p'.pages k).generation = (p.pages k).generation
  of_free : ∀ k, (p'.pages k).state = .free → (p.pages k).state = .free

theorem Appended.refl (h : p.WellFormed) : Appended s 0 p p where
  wellFormed := h
  evolves := .refl s p
  generation := rfl
  live := rfl
  committed := rfl
  resident := rfl
  count_le := le_rfl
  kept := fun _ _ => rfl
  fresh := fun _ hi hle => absurd hi hle.not_gt
  generations := fun _ => rfl
  of_free := fun _ h => h

theorem Appended.trans {n m : ℕ} (h : Appended s n p p') (h' : Appended s m p' p'') :
    Appended s (n + m) p p'' where
  wellFormed := h'.wellFormed
  evolves := h.evolves.trans h'.evolves
  generation := h'.generation.trans h.generation
  live := h'.live.trans h.live
  committed := h'.committed.trans h.committed
  resident := by rw [h'.resident, h.resident, Nat.add_assoc]
  count_le := h.count_le.trans h'.count_le
  kept := fun i hi => (h'.kept i (hi.trans_le h.count_le)).trans (h.kept i hi)
  fresh := by
    intro i hi hle
    by_cases hmid : i < (p'.requests s).pageCount
    · rw [h'.kept i hmid]
      exact h.fresh i hmid hle
    · exact h.of_free _ (h'.fresh i hi (not_lt.mp hmid))
  generations := fun k => (h'.generations k).trans (h.generations k)
  of_free := fun k hk => h.of_free k (h'.of_free k hk)

theorem appended_resizeTail (h : p.WellFormed) (hs : s < maxRequestSlots)
    (hcount : 0 < (p.requests s).pageCount)
    (hk : ((p.requests s).pages (p.tail s)).index = k) (hstate : (p.pages k).state = .writable s)
    {initialized written : ℕ} (hpos : 0 < initialized)
    (hinit : p.tail s * p.pageTokens + initialized = (p.requests s).residentTokens + written)
    (hfit : initialized ≤ p.pageTokens)
    (hcontext : (p.requests s).residentTokens + written ≤ p.maxContextTokens) :
    Appended s written p
      (p.resizeTail s k initialized ((p.requests s).residentTokens + written)) := by
  have hreq : (p.resizeTail s k initialized ((p.requests s).residentTokens + written)).requests s =
      { p.requests s with residentTokens := (p.requests s).residentTokens + written } :=
    setRequest_self
  have hpk : (p.resizeTail s k initialized ((p.requests s).residentTokens + written)).pages k =
      { p.pages k with initializedTokens := initialized } := setPage_self
  have hpages : ∀ m, m ≠ k → (p.resizeTail s k initialized
      ((p.requests s).residentTokens + written)).pages m = p.pages m := fun m hm => setPage_of_ne hm
  refine ⟨h.resizeTail hs hcount hk hstate hinit hpos hfit ?_ hcontext, ?_, ?_, ?_, ?_, ?_, ?_, ?_,
    ?_, fun m => ?_, fun m => ?_⟩
  · exact (h.request s hs).committed_le.trans (Nat.le_add_right ..)
  · refine evolves_of_page (k := k) ⟨rfl, rfl, rfl⟩ (fun j hj => setRequest_of_ne hj) hpages ?_
    rw [pageStamp, pageStamp, hpk]
  · rw [hreq]
  · rw [hreq]
  · rw [hreq]
  · rw [hreq]
  · rw [hreq]
  · rw [hreq]
    exact fun _ _ => rfl
  · rw [hreq]
    exact fun i hi hle => absurd hi hle.not_gt
  · by_cases hm : m = k
    · rw [hm, hpk]
    · rw [hpages m hm]
  · by_cases hm : m = k
    · rw [hm, hpk]
      exact fun hx => hx
    · rw [hpages m hm]
      exact fun hx => hx

theorem appended_pushFresh (h : p.WellFormed) (hs : s < maxRequestSlots)
    (hlive : (p.requests s).live = true) (hfree : 0 < p.freeLen)
    (hk : p.freeStack (p.freeLen - 1) = k) {written : ℕ}
    (hfull : (p.requests s).residentTokens = (p.requests s).pageCount * p.pageTokens)
    (hpos : 0 < written) (hfit : written ≤ p.pageTokens)
    (hcontext : (p.requests s).residentTokens + written ≤ p.maxContextTokens) :
    Appended s written p (p.pushFresh s k written) := by
  obtain ⟨-, hstate, -, -⟩ := h.top_free hfree hk
  have hpages : ∀ m, m ≠ k → (p.pushFresh s k written).pages m = p.pages m :=
    fun m hm => setPage_of_ne hm
  refine ⟨h.pushFresh ⟨hs, hlive, hfree, hk, hfull, hpos, hfit, hcontext⟩, ?_, ?_, ?_, ?_, ?_, ?_,
    ?_, ?_, fun m => ?_, fun m => ?_⟩
  · refine evolves_of_page (k := k) ⟨rfl, rfl, rfl⟩ (fun j hj => setRequest_of_ne hj) hpages ?_
    rw [pageStamp, pageStamp, pushFresh_pages_self, if_pos hstate]
    exact Nat.le_add_right ..
  · rw [pushFresh_requests_self]
  · rw [pushFresh_requests_self]
  · rw [pushFresh_requests_self]
  · rw [pushFresh_requests_self]
  · rw [pushFresh_requests_self]
    exact Nat.le_succ _
  · rw [pushFresh_requests_self]
    exact fun i hi => Function.update_of_ne hi.ne ..
  · rw [pushFresh_requests_self]
    intro i hi hle
    obtain rfl : i = (p.requests s).pageCount := le_antisymm (Nat.lt_succ_iff.mp hi) hle
    simpa using hstate
  · by_cases hm : m = k
    · rw [hm, pushFresh_pages_self]
    · rw [hpages m hm]
  · by_cases hm : m = k
    · rw [hm, pushFresh_pages_self]
      exact fun _ => hstate
    · rw [hpages m hm]
      exact fun hx => hx

/-- `append_existing_page` returns. -/
theorem appendExistingPage_eq (h : p.WellFormed) (hs : s < maxRequestSlots)
    (hcount : 0 < (p.requests s).pageCount) {page : PageId}
    (hpage : (p.requests s).pages (p.tail s) = page)
    (hstate : (p.pages page.index).state = .writable s) (written : ℕ)
    (hfit : (p.requests s).residentTokens + written ≤ (p.requests s).pageCount * p.pageTokens)
    (hcontext : (p.requests s).residentTokens + written ≤ p.maxContextTokens) :
    ∃ p', p.appendExistingPage s page written = .ok p' ∧ Appended s written p p' := by
  have htail : p.tail s < (p.requests s).pageCount := Nat.sub_lt hcount Nat.one_pos
  have hcount' : (p.requests s).pageCount = p.tail s + 1 := (Nat.sub_add_cancel hcount).symm
  have hmul : (p.tail s + 1) * p.pageTokens = p.tail s * p.pageTokens + p.pageTokens :=
    Nat.succ_mul ..
  have htight := (h.request s hs).tight
  have hinit := (h.serves s hs _ htail).initialized
  have hlimit := h.index_lt s hs _ htail
  have hctx := h.geometry.context_lt
  rw [hpage] at hinit hlimit
  rw [hcount'] at htight hfit
  refine ⟨p.resizeTail s page.index ((p.pages page.index).initializedTokens + written) _, ?_,
    appended_resizeTail h hs hcount (by rw [hpage]) hstate ?_ ?_ ?_ hcontext⟩
  · rw [appendExistingPage, pageAt_of_lt h.geometry hlimit, ok_bind, requestAt_of_lt hs, ok_bind,
      plus_of_lt (by omega), ok_bind, plus_of_lt (by omega)]
    rfl
  · omega
  · omega
  · omega

/-- `append_fresh_page` returns. -/
theorem appendFreshPage_eq (h : p.WellFormed) (hs : s < maxRequestSlots)
    (hlive : (p.requests s).live = true) (hfree : 0 < p.freeLen) (written : ℕ)
    (hfull : (p.requests s).residentTokens = (p.requests s).pageCount * p.pageTokens)
    (hpos : 0 < written) (hfit : written ≤ p.pageTokens)
    (hcontext : (p.requests s).residentTokens + written ≤ p.maxContextTokens) :
    ∃ p', p.appendFreshPage s written = .ok p' ∧ Appended s written p p' ∧
      p'.freeLen = p.freeLen - 1 ∧ (p'.requests s).pageCount = (p.requests s).pageCount + 1 := by
  have happ := appended_pushFresh h hs hlive hfree rfl hfull hpos hfit hcontext
  have hcount : (p.requests s).pageCount + 1 ≤ maxPagesPerRequest := by
    have hle := happ.wellFormed.pageCount_le hs
    rwa [show ((p.pushFresh s _ written).requests s) = _ from setRequest_self] at hle
  obtain ⟨hlimit, -, -, -⟩ := h.top_free hfree rfl
  have hctx := h.geometry.context_lt
  have hlen := h.geometry.limit_le
  have hlen' := h.freeLen_le
  refine ⟨_, ?_, happ, rfl, by rw [show ((p.pushFresh s _ written).requests s) = _ from
    setRequest_self]⟩
  rw [appendFreshPage, minus_of_le hfree, ok_bind, inBounds_of_lt (by omega), ok_bind]
  simp only [requestAt_of_lt hs, ok_bind]
  rw [inBounds_of_lt (hlimit.trans_le hlen), ok_bind, inBounds_of_lt hcount, ok_bind,
    plus_of_lt (by rw [maxPagesPerRequest] at hcount; omega), ok_bind,
    plus_of_lt (hcontext.trans_lt hctx)]
  rfl

/-- **Append loop.** The pages it was told to take hold what remains. -/
theorem appendFreshPages_eq (left remaining : ℕ) (h : p.WellFormed) (hs : s < maxRequestSlots)
    (hlive : (p.requests s).live = true) (hfree : left ≤ p.freeLen)
    (hfull : 0 < remaining →
      (p.requests s).residentTokens = (p.requests s).pageCount * p.pageTokens)
    (hcover : remaining ≤ left * p.pageTokens)
    (htight : left * p.pageTokens < remaining + p.pageTokens)
    (hcontext : (p.requests s).residentTokens + remaining ≤ p.maxContextTokens) :
    ∃ p', appendFreshPages s left remaining p = .ok p' ∧ Appended s remaining p p' := by
  induction left generalizing p remaining with
  | zero =>
    obtain rfl : remaining = 0 := by omega
    exact ⟨p, rfl, .refl h⟩
  | succ left ih =>
    have hmul : (left + 1) * p.pageTokens = left * p.pageTokens + p.pageTokens := Nat.succ_mul ..
    have hpt := h.geometry.pageTokens_pos
    have hrem : 0 < remaining := by omega
    obtain ⟨p₁, heq, happ, hlen, hcount⟩ := appendFreshPage_eq h hs hlive (by omega)
      (min remaining p.pageTokens) (hfull hrem) (by omega) (by omega) (by omega)
    obtain ⟨hg1, hg2, -⟩ := happ.evolves.geometry
    have hresident := happ.resident
    have hfull' := hfull hrem
    have hmul' : ((p.requests s).pageCount + 1) * p.pageTokens =
        (p.requests s).pageCount * p.pageTokens + p.pageTokens := Nat.succ_mul ..
    obtain ⟨p₂, heq', happ'⟩ := ih (remaining - min remaining p.pageTokens)
      happ.wellFormed (by rw [happ.live, hlive]) (by omega)
      (fun hpos => by rw [hresident, hcount, hg1]; omega) (by rw [hg1]; omega)
      (by rw [hg1]; omega) (by rw [hg2]; omega)
    refine ⟨p₂, ?_, ?_⟩
    · rw [appendFreshPages, heq, ok_bind, heq']
    · have := happ.trans happ'
      rwa [Nat.add_sub_cancel' (min_le_left ..)] at this

/-! ### Sharing -/

/-- The chain of `t` is the first `n` pages of the chain of `s`. -/
structure Shared (s t n : ℕ) (p p' : KvPool) : Prop where
  wellFormed : p'.WellFormed
  evolves : Evolves t p p'
  generation : (p'.requests t).generation = (p.requests t).generation
  live : (p'.requests t).live = (p.requests t).live
  count : (p'.requests t).pageCount = n
  resident : (p'.requests t).residentTokens = n * p.pageTokens
  committed : (p'.requests t).committedTokens = n * p.pageTokens
  pages : ∀ i < n, (p'.requests t).pages i = (p.requests s).pages i

theorem evolves_pushShared {t i : ℕ} {page : PageId} (hnf : (p.pages page.index).state ≠ .free) :
    Evolves t p (p.pushShared t i page .sealed) := by
  refine evolves_of_page (k := page.index) ⟨rfl, rfl, rfl⟩ (fun j hj => setRequest_of_ne hj)
    (fun m hm => setPage_of_ne hm) ?_
  rw [pageStamp, pageStamp, show (p.pushShared t i page .sealed).pages page.index = _ from
    setPage_self, if_neg hnf]
  simp

/-- `share_next_page` returns. -/
theorem shareNextPage_eq {t n : ℕ} (h : Shared s t n p p') (hs : s < maxRequestSlots)
    (ht : t < maxRequestSlots) (hne : s ≠ t) (hlive : (p.requests t).live = true)
    (hcommit : (n + 1) * p.pageTokens ≤ (p.requests s).committedTokens) :
    ∃ p'', p'.shareNextPage s t n = .ok p'' ∧ Shared s t (n + 1) p p'' := by
  have hsource : p'.requests s = p.requests s := h.evolves.others s hne
  have hpt : p'.pageTokens = p.pageTokens := h.evolves.geometry.1
  have hmul : (n + 1) * p.pageTokens = n * p.pageTokens + p.pageTokens := Nat.succ_mul ..
  obtain ⟨hc1, hc2, hc3, hc4, -, -, -⟩ := h.wellFormed.request s hs
  rw [hsource] at hc1 hc2 hc3 hc4
  rw [hpt] at hc3 hc4
  have hcount : n < (p'.requests s).pageCount := by
    rw [hsource]
    by_contra hle
    have := Nat.mul_le_mul_right p.pageTokens (not_lt.mp hle)
    have := h.wellFormed.geometry.pageTokens_pos
    omega
  have hserves := h.wellFormed.serves s hs n hcount
  have hlimit := h.wellFormed.index_lt s hs n hcount
  have hctx := h.wellFormed.geometry.context_lt
  have hmax := h.wellFormed.pageCount_le hs
  have hsharable : p'.Sharable s t n ((p'.requests s).pages n) := by
    constructor
    case source_lt => exact hs
    case target_lt => exact ht
    case live => rw [h.live, hlive]
    case count => exact h.count
    case available => exact hcount
    case page_eq => rfl
    case settled => rwa [hpt, hsource]
    case resident => rw [h.resident, hpt]
    case committed => rw [h.committed, hpt]
    case same =>
      intro j hj
      rw [h.pages j hj, hsource]
  have hwf := h.wellFormed.pushShared hsharable
  refine ⟨_, ?_, hwf, h.evolves.trans (evolves_pushShared hserves.not_free), ?_, ?_, ?_, ?_, ?_,
    fun i hi => ?_⟩
  · rw [shareNextPage, h.wellFormed.chainAt_eq hs hcount, ok_bind,
      h.wellFormed.pageAt_chain hs hcount, ok_bind, requestAt_of_lt ht, ok_bind, h.count,
      h.resident, h.committed, hpt,
      plus_of_lt (by rw [maxPagesPerRequest] at hmax; omega), ok_bind,
      plus_of_lt (by omega), ok_bind]
    rw [ok_bind]
    cases hstate : (p'.pages ((p'.requests s).pages n).index).state with
    | free => exact absurd hstate hserves.not_free
    | writable o => rfl
    | sealed => rfl
  · rw [pushShared_requests]
    exact h.generation
  · rw [pushShared_requests]
    exact h.live
  · rw [pushShared_requests]
    exact congrArg (· + 1) h.count
  · rw [pushShared_requests, hmul]
    exact congrArg₂ (· + ·) h.resident hpt
  · rw [pushShared_requests, hmul]
    exact congrArg₂ (· + ·) h.committed hpt
  · rw [pushShared_requests]
    rcases Nat.lt_succ_iff_lt_or_eq.mp hi with hi | rfl
    · exact (Function.update_of_ne hi.ne ..).trans (h.pages i hi)
    · exact (Function.update_self ..).trans (by rw [hsource])

/-- **Share loop.** -/
theorem sharePages_eq {t n : ℕ} (h : p.WellFormed) (hs : s < maxRequestSlots)
    (ht : t < maxRequestSlots) (hne : s ≠ t) (hlive : (p.requests t).live = true)
    (hempty : (p.requests t).residentTokens = 0)
    (hcommit : n * p.pageTokens ≤ (p.requests s).committedTokens) :
    ∃ p', p.sharePages s t n = .ok p' ∧ Shared s t n p p' := by
  induction n with
  | zero =>
    obtain ⟨hc, -, -, hcount, -, -, -⟩ := h.request t ht
    have hpt := h.geometry.pageTokens_pos
    have hzero : (p.requests t).pageCount = 0 := by
      by_contra hpos
      have := Nat.mul_le_mul_right p.pageTokens (Nat.one_le_iff_ne_zero.mpr hpos)
      omega
    exact ⟨p, rfl, h, .refl t p, rfl, rfl, hzero, by simpa using hempty,
      by rw [hempty] at hc; simpa using hc, fun i hi => absurd hi (Nat.not_lt_zero i)⟩
  | succ n ih =>
    obtain ⟨p₁, heq, hshared⟩ := ih (le_trans (Nat.mul_le_mul_right _ (Nat.le_succ n)) hcommit)
    obtain ⟨p₂, heq', hshared'⟩ := shareNextPage_eq hshared hs ht hne hlive hcommit
    refine ⟨p₂, ?_, hshared'⟩
    rw [sharePages] at heq ⊢
    rw [List.range_succ, List.foldlM_append, heq, ok_bind]
    simp [heq']

/-! ### Dropping pages -/

/-- The chain of `s` lost pages from its end, at most. -/
structure Shrunk (s : ℕ) (p p' : KvPool) : Prop where
  wellFormed : p'.WellFormed
  evolves : Evolves s p p'
  generation : (p'.requests s).generation = (p.requests s).generation
  live : (p'.requests s).live = (p.requests s).live
  count_le : (p'.requests s).pageCount ≤ (p.requests s).pageCount
  kept : ∀ i < (p'.requests s).pageCount, (p'.requests s).pages i = (p.requests s).pages i

theorem Shrunk.refl (h : p.WellFormed) : Shrunk s p p :=
  ⟨h, .refl s p, rfl, rfl, le_rfl, fun _ _ => rfl⟩

theorem Shrunk.trans (h : Shrunk s p p') (h' : Shrunk s p' p'') : Shrunk s p p'' :=
  ⟨h'.wellFormed, h.evolves.trans h'.evolves, h'.generation.trans h.generation,
    h'.live.trans h.live, h'.count_le.trans h.count_le,
    fun i hi => (h'.kept i hi).trans (h.kept i (hi.trans_le h'.count_le))⟩

/-- What one page off the end of the chain leaves. -/
structure Popped (s committed : ℕ) (p p' : KvPool) : Prop extends Shrunk s p p' where
  count : (p'.requests s).pageCount = p.tail s
  resident : (p'.requests s).residentTokens = p.tail s * p.pageTokens
  committed : (p'.requests s).committedTokens = committed
  pages : ∀ k, k ≠ ((p.requests s).pages (p.tail s)).index → p'.pages k = p.pages k

/-- The page at position `i` of the chain of `s` is in no other chain. -/
def Sole (p : KvPool) (s i : ℕ) : Prop :=
  ∀ j, (p.pages ((p.requests s).pages i).index).referenceMask.getLsbD j = true → j = s

theorem WellFormed.resident_tail (h : p.WellFormed) (hs : s < maxRequestSlots)
    (hcount : 0 < (p.requests s).pageCount) :
    p.tail s < (p.requests s).pageCount ∧
    (p.pages ((p.requests s).pages (p.tail s)).index).initializedTokens ≤
      (p.requests s).residentTokens ∧
    (p.requests s).residentTokens -
      (p.pages ((p.requests s).pages (p.tail s)).index).initializedTokens =
        p.tail s * p.pageTokens := by
  have htail : p.tail s < (p.requests s).pageCount := Nat.sub_lt hcount Nat.one_pos
  have hcount' : (p.requests s).pageCount = p.tail s + 1 := (Nat.sub_add_cancel hcount).symm
  have hmul : (p.tail s + 1) * p.pageTokens = p.tail s * p.pageTokens + p.pageTokens :=
    Nat.succ_mul ..
  have hinit := (h.serves s hs _ htail).initialized
  obtain ⟨-, -, h3, h4, -, -, -⟩ := h.request s hs
  rw [hcount'] at h3 h4
  exact ⟨htail, by omega, by omega⟩

theorem popped_of {committed : ℕ} (h : p'.WellFormed) (hevolves : Evolves s p p')
    (hreq : p'.requests s = p.popped s (p.tail s * p.pageTokens) committed)
    (hpages : ∀ k, k ≠ ((p.requests s).pages (p.tail s)).index → p'.pages k = p.pages k) :
    Popped s committed p p' := by
  refine ⟨⟨h, hevolves, ?_, ?_, ?_, ?_⟩, ?_, ?_, ?_, hpages⟩ <;> rw [hreq]
  · rfl
  · rfl
  · exact Nat.sub_le ..
  · exact fun i hi => Function.update_of_ne (Nat.ne_of_lt hi) ..
  · rfl
  · rfl
  · rfl

/-- `drop_sole_tail` returns. -/
theorem dropSoleTail_eq (h : p.WellFormed) (hs : s < maxRequestSlots)
    (hcount : 0 < (p.requests s).pageCount) {page : PageId}
    (hpage : (p.requests s).pages (p.tail s) = page) (committed : ℕ)
    (hmin : min (p.requests s).committedTokens (p.tail s * p.pageTokens) ≤ committed)
    (hle : committed ≤ p.tail s * p.pageTokens) (hsole : p.Sole s (p.tail s))
    (hgeneration : page.generation ≠ u32Max) :
    ∃ p', p.dropSoleTail s page committed = .ok p' ∧ Popped s committed p p' := by
  obtain ⟨htail, hinit, hresident⟩ := h.resident_tail hs hcount
  have hserves := h.serves s hs _ htail
  have hlimit := h.index_lt s hs _ htail
  rw [hpage] at hinit hresident hserves hlimit
  rw [Sole, hpage] at hsole
  have hgen : (p.pages page.index).generation + 1 < 2 ^ 32 := by
    have hlt := (h.page _ hlimit).generation_lt
    have heq := hserves.generation
    rw [hpage] at heq
    rw [heq] at hlt ⊢
    rw [u32Max] at hgeneration
    omega
  have hroom : p.freeLen + 1 ≤ p.pageLimit := by
    have := h.freeLen_add_le [page.index] (List.nodup_singleton _)
      (by simpa using hlimit) (by simpa using hserves.not_free)
    simpa using this
  have hlen := h.geometry.limit_le
  have hmax := h.pageCount_le hs
  have hwf := h.recycleTail hs hcount (k := page.index) (by rw [hpage]) hmin hle hsole
    (Nat.succ_pos _) hgen
  set p₁ := (p.popTail s (p.tail s * p.pageTokens) committed).recycle page.index
    ((p.pages page.index).generation + 1) with hp₁
  have hpages : ∀ k, k ≠ page.index → p₁.pages k = p.pages k := fun k hk => setPage_of_ne hk
  refine ⟨p₁, ?_, popped_of hwf ?_ setRequest_self (by rwa [hpage])⟩
  · rw [dropSoleTail, requestAt_of_lt hs, ok_bind, minus_of_le (show 1 ≤ _ from hcount), ok_bind,
      pageAt_of_lt h.geometry hlimit, ok_bind, plus_of_lt hgen, ok_bind, minus_of_le hinit, ok_bind,
      hresident, inBounds_of_lt (show (p.requests s).pageCount - 1 < _ from htail.trans_le hmax),
      ok_bind, inBounds_of_lt (by omega), ok_bind,
      plus_of_lt (by rw [maxPageSlots] at hlen; omega), ok_bind]
    rfl
  · refine evolves_of_page (k := page.index) ⟨rfl, rfl, rfl⟩ (fun j hj => setRequest_of_ne hj)
      hpages ?_
    rw [pageStamp, pageStamp, if_neg hserves.not_free, show p₁.pages page.index = _ from
      setPage_self]
    simp only [PageSlot.free, if_true]
    omega

/-- `detach_shared_tail` returns. -/
theorem detachSharedTail_eq (h : p.WellFormed) (hs : s < maxRequestSlots)
    (hcount : 0 < (p.requests s).pageCount) {page : PageId}
    (hpage : (p.requests s).pages (p.tail s) = page) {committed : ℕ}
    (hmin : min (p.requests s).committedTokens (p.tail s * p.pageTokens) ≤ committed)
    (hle : committed ≤ p.tail s * p.pageTokens)
    (hshared : ∃ j, j ≠ s ∧ (p.pages page.index).referenceMask.getLsbD j = true) :
    ∃ p', p.detachSharedTail s page committed = .ok p' ∧ Popped s committed p p' := by
  obtain ⟨htail, hinit, hresident⟩ := h.resident_tail hs hcount
  have hlimit := h.index_lt s hs _ htail
  rw [hpage] at hinit hresident hlimit
  have hmax := h.pageCount_le hs
  have hwf := h.detachTail hs hcount (k := page.index) (by rw [hpage]) hmin hle hshared
  set p₁ := (p.popTail s (p.tail s * p.pageTokens) committed).dereference page.index s with hp₁
  have hpages : ∀ k, k ≠ page.index → p₁.pages k = p.pages k := fun k hk => setPage_of_ne hk
  refine ⟨p₁, ?_, popped_of hwf ?_ setRequest_self (by rwa [hpage])⟩
  · rw [detachSharedTail, requestAt_of_lt hs, ok_bind,
      minus_of_le (show 1 ≤ _ from hcount), ok_bind,
      pageAt_of_lt h.geometry hlimit, ok_bind, minus_of_le hinit, ok_bind,
      hresident, inBounds_of_lt (show (p.requests s).pageCount - 1 < _ from htail.trans_le hmax),
      ok_bind]
    rfl
  · refine evolves_of_page (k := page.index) ⟨rfl, rfl, rfl⟩ (fun j hj => setRequest_of_ne hj)
      hpages ?_
    rw [pageStamp, pageStamp, show p₁.pages page.index = _ from setPage_self]
    exact le_rfl

/-- A page that reaches beyond the committed tokens is writable, so no other chain has it. -/
theorem WellFormed.writable_of_uncommitted (h : p.WellFormed) (hs : s < maxRequestSlots) {i : ℕ}
    (hi : i < (p.requests s).pageCount)
    (hcommitted : (p.requests s).committedTokens < (i + 1) * p.pageTokens) :
    (p.pages ((p.requests s).pages i).index).state = .writable s := by
  obtain ⟨-, -, -, g4, g5, g6⟩ := h.serves s hs i hi
  cases hstate : (p.pages ((p.requests s).pages i).index).state with
  | free => exact absurd hstate g4
  | writable o => rw [g5 o hstate]
  | sealed => exact absurd (g6 hstate) hcommitted.not_ge

theorem WellFormed.sole_of_uncommitted (h : p.WellFormed) (hs : s < maxRequestSlots) {i : ℕ}
    (hi : i < (p.requests s).pageCount)
    (hcommitted : (p.requests s).committedTokens < (i + 1) * p.pageTokens) : p.Sole s i := by
  intro j hj
  have hholds := (h.page _ (h.index_lt s hs i hi)).held j hj
  exact (h.eq_owner (lt_of_getLsbD hj) hholds (h.writable_of_uncommitted hs hi hcommitted)).symm

/-- **Finalize loop.** -/
theorem dropTails_eq (committed retained left : ℕ) (h : p.WellFormed) (hs : s < maxRequestSlots)
    (hcount : (p.requests s).pageCount = retained + left)
    (hcommitted : (p.requests s).committedTokens = committed)
    (hle : committed ≤ retained * p.pageTokens)
    (hgeneration : ∀ i < (p.requests s).pageCount, retained ≤ i →
      ((p.requests s).pages i).generation ≠ u32Max) :
    ∃ p', dropTails s committed retained left p = .ok p' ∧ Shrunk s p p' ∧
      (p'.requests s).pageCount = retained ∧ (p'.requests s).committedTokens = committed ∧
      (left = 0 → p' = p) ∧
      (0 < left → (p'.requests s).residentTokens = retained * p.pageTokens) := by
  induction left generalizing p with
  | zero =>
    exact ⟨p, rfl, .refl h, hcount, hcommitted, fun _ => rfl, fun hlt => absurd hlt (lt_irrefl 0)⟩
  | succ left ih =>
    have htail : p.tail s = retained + left := by
      rw [tail, hcount]
      omega
    have hlt : retained + left < (p.requests s).pageCount := by omega
    have hpt := h.geometry.pageTokens_pos
    have hmul : retained * p.pageTokens ≤ (retained + left) * p.pageTokens :=
      Nat.mul_le_mul_right _ (Nat.le_add_right ..)
    have hsucc : (retained + left + 1) * p.pageTokens =
        (retained + left) * p.pageTokens + p.pageTokens := Nat.succ_mul ..
    obtain ⟨p₁, heq, hpop⟩ := dropSoleTail_eq h hs (by omega) rfl committed
      (by rw [hcommitted]; exact min_le_left ..) (by rw [htail]; omega)
      (by rw [htail]; exact h.sole_of_uncommitted hs hlt (by omega))
      (by rw [htail]; exact hgeneration _ hlt (Nat.le_add_right ..))
    have hpt₁ := hpop.evolves.geometry.1
    obtain ⟨p₂, heq', hshrunk, hcount', hcommitted', hzero, hpos⟩ := ih hpop.wellFormed
      (hpop.count.trans htail) hpop.committed (hpt₁ ▸ hle) (by
        intro i hi hle'
        rw [hpop.kept i hi]
        exact hgeneration i (hi.trans_le hpop.count_le) hle')
    refine ⟨p₂, ?_, hpop.toShrunk.trans hshrunk, hcount',
      hcommitted', fun hx => absurd hx (by simp),
      fun _ => ?_⟩
    · rw [dropTails, h.chainAt_eq hs hlt, ok_bind, ← htail, heq, ok_bind, heq']
    · rcases Nat.eq_zero_or_pos left with rfl | hleft
      · rw [hzero rfl, hpop.resident, htail]
        rfl
      · rw [hpos hleft, hpt₁]

/-- The condition that `page_has_other_reference` decides. -/
theorem WellFormed.pageHasOtherReference_eq (h : p.WellFormed) (hs : s < maxRequestSlots) {i : ℕ}
    (hi : i < (p.requests s).pageCount) :
    ∃ shared, p.pageHasOtherReference ((p.requests s).pages i).index s = .ok shared ∧
      (shared = true ↔ ∃ j, j ≠ s ∧
        (p.pages ((p.requests s).pages i).index).referenceMask.getLsbD j = true) := by
  refine ⟨_, by rw [pageHasOtherReference, h.pageAt_chain hs hi, ok_bind]; rfl, ?_⟩
  rw [decide_eq_true_iff]
  exact otherReference_iff hs

/-- Without another reference, the page is this chain's alone. -/
theorem sole_iff {i : ℕ} : p.Sole s i ↔ ¬ ∃ j, j ≠ s ∧
    (p.pages ((p.requests s).pages i).index).referenceMask.getLsbD j = true := by
  rw [Sole]
  constructor
  · rintro h ⟨j, hj, hbit⟩
    exact hj (h j hbit)
  · intro h j hbit
    by_contra hj
    exact h ⟨j, hj, hbit⟩

/-- One round of the release loop. -/
theorem releaseTail_eq {request : RequestId} {remaining : ℕ} (h : p.WellFormed)
    (hslot : request.slot = s) (hs : s < maxRequestSlots)
    (hcount : (p.requests s).pageCount = remaining + 1)
    (hgeneration : p.Sole s remaining → ((p.requests s).pages remaining).generation ≠ u32Max) :
    ∃ committed p', p.releaseTail request s (remaining + 1) = .ok p' ∧ Popped s committed p p' := by
  have htail : p.tail s = remaining := by rw [tail, hcount, Nat.add_sub_cancel]
  obtain ⟨hlt, hinit, hresident⟩ := h.resident_tail hs (by omega)
  rw [htail] at hlt hinit hresident
  obtain ⟨shared, hshared, hiff⟩ := h.pageHasOtherReference_eq hs hlt
  set committed := min (p.requests s).committedTokens (remaining * p.pageTokens) with hc
  have hfront : p.releaseTail request s (remaining + 1) =
      if shared then p.detachSharedTail s ((p.requests s).pages remaining) committed
      else p.dropSoleTail s ((p.requests s).pages remaining) committed := by
    rw [releaseTail, minus_of_le (Nat.le_add_left ..), ok_bind, Nat.add_sub_cancel,
      h.chainAt_eq hs hlt, ok_bind, h.pageAt_chain hs hlt, ok_bind, requestAt_of_lt hs, ok_bind,
      minus_of_le hinit, ok_bind, hslot, hshared, ok_bind, hresident]
  have hle : committed ≤ p.tail s * p.pageTokens := htail ▸ min_le_right ..
  refine ⟨committed, ?_⟩
  rw [hfront]
  cases shared with
  | true =>
    exact detachSharedTail_eq h hs (by omega) (by rw [htail]) (by rw [htail]) hle (hiff.mp rfl)
  | false =>
    have hsole : p.Sole s remaining := sole_iff.mpr fun hx => absurd (hiff.mpr hx) (by simp)
    exact dropSoleTail_eq h hs (by omega) (by rw [htail]) _ (by rw [htail]) hle (by rwa [htail])
      (hgeneration hsole)

/-- **Release loop.** -/
theorem releaseTails_eq {request : RequestId} {remaining : ℕ} (h : p.WellFormed)
    (hslot : request.slot = s) (hs : s < maxRequestSlots)
    (hcount : (p.requests s).pageCount = remaining)
    (hgeneration : ∀ i < remaining, p.Sole s i → ((p.requests s).pages i).generation ≠ u32Max) :
    ∃ p', releaseTails request s remaining p = .ok p' ∧ Shrunk s p p' ∧
      (p'.requests s).pageCount = 0 := by
  induction remaining generalizing p with
  | zero => exact ⟨p, rfl, .refl h, hcount⟩
  | succ remaining ih =>
    obtain ⟨committed, p₁, heq, hpop⟩ := releaseTail_eq h hslot hs hcount
      (hgeneration remaining (Nat.lt_succ_self _))
    have htail : p.tail s = remaining := by rw [tail, hcount, Nat.add_sub_cancel]
    have hcount₁ : (p₁.requests s).pageCount = remaining := hpop.count.trans htail
    obtain ⟨p₂, heq', hshrunk, hzero⟩ := ih hpop.wellFormed hcount₁ (by
      intro i hi hsole
      have hkept := hpop.kept i (hcount₁ ▸ hi)
      rw [hkept]
      refine hgeneration i (Nat.lt_succ_of_lt hi) ?_
      rw [Sole, hkept, hpop.pages _ ?_] at hsole
      · exact hsole
      · intro he
        rw [htail] at he
        exact hi.ne (h.distinct s hs i (by omega) remaining (by omega) he))
    exact ⟨p₂, by rw [releaseTails, heq, ok_bind, heq'], hpop.toShrunk.trans hshrunk, hzero⟩

end KvPool

end Cache

end Ferric
