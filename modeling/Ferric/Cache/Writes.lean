import Ferric.Cache.Invariant

/-!
# What the writes of the KV pool keep

One lemma for each group of writes: under what its caller has established, the invariant holds again
afterwards. Each is the frame rule at the request and the page written.

## Main results

* `WellFormed.resizeTail`, `WellFormed.pushFresh`, `WellFormed.pushShared`,
  `WellFormed.recycleTail`, `WellFormed.detachTail` — every group of writes keeps the invariant
-/

namespace Ferric

namespace Cache

namespace KvPool

variable {p : KvPool} {s k : ℕ}

@[simp] theorem setRequest_self {q : RequestSlot} : (p.setRequest s q).requests s = q :=
  Function.update_self ..

theorem setRequest_of_ne {q : RequestSlot} {j : ℕ} (h : j ≠ s) :
    (p.setRequest s q).requests j = p.requests j :=
  Function.update_of_ne h ..

@[simp] theorem setRequest_pages {q : RequestSlot} : (p.setRequest s q).pages = p.pages := rfl

@[simp] theorem setPage_self {q : PageSlot} : (p.setPage k q).pages k = q := Function.update_self ..

theorem setPage_of_ne {q : PageSlot} {m : ℕ} (h : m ≠ k) : (p.setPage k q).pages m = p.pages m :=
  Function.update_of_ne h ..

@[simp] theorem setPage_requests {q : PageSlot} : (p.setPage k q).requests = p.requests := rfl

theorem stackOk_setRequest {q : RequestSlot} : (p.setRequest s q).StackOk ↔ p.StackOk :=
  ⟨fun h => ⟨h.lt, h.inj, h.mem_iff⟩, fun h => ⟨h.lt, h.inj, h.mem_iff⟩⟩

theorem stackOk_setPage {q : PageSlot} : (p.setPage k q).StackOk ↔ p.StackOk :=
  ⟨fun h => ⟨h.lt, h.inj, h.mem_iff⟩, fun h => ⟨h.lt, h.inj, h.mem_iff⟩⟩

/-- Every page of a chain but the last is full. -/
theorem WellFormed.full_of_lt (h : p.WellFormed) (hs : s < maxRequestSlots) {i : ℕ}
    (hi : i + 1 < (p.requests s).pageCount) :
    (i + 1) * p.pageTokens < (p.requests s).residentTokens := by
  have htight := (h.request s hs).tight
  have hmul : (i + 2) * p.pageTokens ≤ (p.requests s).pageCount * p.pageTokens :=
    Nat.mul_le_mul_right _ hi
  have hsucc : (i + 2) * p.pageTokens = (i + 1) * p.pageTokens + p.pageTokens := Nat.succ_mul ..
  omega

/-- A request slot rewritten without touching its chain. -/
theorem WellFormed.setNumbers (h : p.WellFormed) {q : RequestSlot} (hs : s < maxRequestSlots)
    (hpages : q.pages = (p.requests s).pages) (hcount : q.pageCount = (p.requests s).pageCount)
    (hresident : q.residentTokens = (p.requests s).residentTokens)
    (hcommitted : (p.requests s).committedTokens ≤ q.committedTokens)
    (hle : q.committedTokens ≤ q.residentTokens)
    (hidle : q.live = false → q.pageCount = 0) (hpos : 0 < q.generation)
    (hlt : q.generation < 2 ^ 32) : (p.setRequest s q).WellFormed := by
  obtain ⟨-, h2, h3, h4, -, -, -⟩ := h.request s hs
  have hself : (p.setRequest s q).requests s = q := setRequest_self
  have hserves : ∀ i < q.pageCount, Serves p.pageTokens q s i (p.pages (q.pages i).index) := by
    intro i hi
    rw [hcount] at hi
    rw [hpages]
    obtain ⟨g1, g2, g3, g4, g5, g6⟩ := h.serves s hs i hi
    exact ⟨by rwa [hpages], by rwa [hresident], g3, g4, g5, fun hx => (g6 hx).trans hcommitted⟩
  refine h.update (s := s) (k := p.pageLimit) ⟨rfl, rfl, rfl⟩ (fun j hj => setRequest_of_ne hj)
    (fun m _ => rfl) (fun m _ => rfl) ?_ ?_ ?_ ?_ ?_ ?_ (fun hlt => absurd hlt (lt_irrefl _))
    (stackOk_setRequest.mpr h.stack)
  · constructor <;> rw [hself] <;> simp only [hresident, hcount] at * <;> assumption
  · rw [hself, hpages, hcount]
    exact h.index_lt s hs
  · rw [hself]
    exact hserves
  · intro j hj _ i hi hk
    exact absurd hk (h.index_lt j hj i hi).ne
  · rw [hself, hpages, hcount]
    exact h.distinct s hs
  · intro m _ hm
    rw [Holds, hself, hpages, hcount]
    exact hm

theorem Holds.of_eq {p' : KvPool} {j m : ℕ} (h : p.Holds j m)
    (hreq : p'.requests j = p.requests j) :
    p'.Holds j m := by
  rw [Holds, hreq]
  exact h

/-- The last position of a nonempty chain. -/
def tail (p : KvPool) (s : ℕ) : ℕ := (p.requests s).pageCount - 1

/-- The tail page of a chain changes how much of it is initialized. No other chain has it, because
it is writable. -/
theorem WellFormed.resizeTail (h : p.WellFormed) (hs : s < maxRequestSlots)
    (hcount : 0 < (p.requests s).pageCount) {initialized resident : ℕ}
    (hk : ((p.requests s).pages (p.tail s)).index = k) (hstate : (p.pages k).state = .writable s)
    (hinit : p.tail s * p.pageTokens + initialized = resident) (hpos : 0 < initialized)
    (hfit : initialized ≤ p.pageTokens) (hcommitted : (p.requests s).committedTokens ≤ resident)
    (hcontext : resident ≤ p.maxContextTokens) :
    (p.resizeTail s k initialized resident).WellFormed := by
  have hreq : (p.resizeTail s k initialized resident).requests s =
      { p.requests s with residentTokens := resident } := setRequest_self
  have hpk : (p.resizeTail s k initialized resident).pages k =
      { p.pages k with initializedTokens := initialized } := setPage_self
  have htail : p.tail s < (p.requests s).pageCount := Nat.sub_lt hcount Nat.one_pos
  have hlimit : k < p.pageLimit := hk ▸ h.index_lt s hs _ htail
  have hmul : (p.requests s).pageCount * p.pageTokens = p.tail s * p.pageTokens + p.pageTokens := by
    rw [← Nat.succ_mul]
    congr 1
    show _ = (p.requests s).pageCount - 1 + 1
    omega
  obtain ⟨-, -, -, -, h5, h6, h7⟩ := h.request s hs
  refine h.update (s := s) (k := k) ⟨rfl, rfl, rfl⟩ (fun j hj => setRequest_of_ne hj)
    (fun m hm => setPage_of_ne hm) (fun m _ => rfl) ?_ ?_ ?_ ?_ ?_ ?_ ?_
    (stackOk_setRequest.mpr (stackOk_setPage.mpr h.stack))
  · constructor <;> rw [hreq]
    · exact hcommitted
    · exact hcontext
    · show resident ≤ (p.requests s).pageCount * p.pageTokens
      omega
    · show (p.requests s).pageCount * p.pageTokens < resident + p.pageTokens
      omega
    · exact h5
    · exact h6
    · exact h7
  · rw [hreq]
    exact h.index_lt s hs
  · intro i hi
    rw [hreq] at hi ⊢
    obtain ⟨g1, g2, g3, g4, g5, g6⟩ := h.serves s hs i hi
    by_cases hi' : i = p.tail s
    · subst hi'
      simp only [hk] at g1 g2 g3 g4 g5 g6 ⊢
      rw [hpk]
      refine ⟨g1, ?_, g3, g4, g5, g6⟩
      show initialized = min p.pageTokens (resident - p.tail s * p.pageTokens)
      omega
    · have hne : ((p.requests s).pages i).index ≠ k := by
        intro he
        exact hi' (h.distinct s hs i hi _ htail (he.trans hk.symm))
      have hlt : i + 1 < (p.requests s).pageCount := by
        rw [tail] at hi'
        simp only at hi
        omega
      have hfull := h.full_of_lt hs hlt
      have hle : (i + 1) * p.pageTokens ≤ p.tail s * p.pageTokens :=
        Nat.mul_le_mul_right _ (Nat.le_sub_one_of_lt hlt)
      have hsucc : (i + 1) * p.pageTokens = i * p.pageTokens + p.pageTokens := Nat.succ_mul ..
      rw [show (p.resizeTail s k initialized resident).pages _ = _ from setPage_of_ne hne]
      refine ⟨g1, g2.trans ?_, g3, g4, g5, g6⟩
      show _ = min p.pageTokens (resident - i * p.pageTokens)
      omega
  · intro j hj hjs i hi hik
    exact absurd (h.eq_owner hj ⟨i, hi, hik⟩ hstate) hjs.symm
  · rw [hreq]
    exact h.distinct s hs
  · intro m _ hm
    rw [Holds, hreq]
    exact hm
  · intro _
    obtain ⟨g1, g2, g3, g4, g5, g6⟩ := h.page k hlimit
    constructor <;> rw [hpk]
    · exact g1
    · exact g2
    · intro j hj
      by_cases hjs : j = s
      · subst hjs
        rw [Holds, hreq]
        exact g3 j hj
      · exact (g3 j hj).of_eq (setRequest_of_ne hjs)
    · exact g4
    · exact fun hfree => absurd (hstate.symm.trans hfree) (by simp)
    · exact g6

/-- The page on top of the free stack is free, and no chain has it. -/
theorem WellFormed.top_free (h : p.WellFormed) (hfree : 0 < p.freeLen)
    (hk : p.freeStack (p.freeLen - 1) = k) :
    k < p.pageLimit ∧ (p.pages k).state = .free ∧ (p.pages k).referenceMask = 0 ∧
      ∀ j < maxRequestSlots, ¬ p.Holds j k := by
  have hlimit : k < p.pageLimit := hk ▸ h.stack.lt _ (Nat.sub_lt hfree Nat.one_pos)
  have hbit : p.freeBitmap k = true :=
    (h.stack.mem_iff k hlimit).mpr ⟨_, Nat.sub_lt hfree Nat.one_pos, hk⟩
  have hstate := (h.page k hlimit).bitmap.mpr hbit
  exact ⟨hlimit, hstate, ((h.page k hlimit).of_free hstate).2, fun j hj hholds =>
    h.not_free_of_holds hj hholds hstate⟩

/-- A chain with one page more behind it has no page twice. -/
theorem distinct_update {f : ℕ → PageId} {n : ℕ} {page : PageId}
    (hdistinct : ∀ a < n, ∀ b < n, (f a).index = (f b).index → a = b)
    (hne : ∀ a < n, (f a).index ≠ page.index) {a b : ℕ} (ha : a < n + 1) (hb : b < n + 1)
    (hab : (Function.update f n page a).index = (Function.update f n page b).index) : a = b := by
  rcases Nat.lt_succ_iff_lt_or_eq.mp ha with ha | rfl <;>
    rcases Nat.lt_succ_iff_lt_or_eq.mp hb with hb | rfl
  · rw [Function.update_of_ne ha.ne, Function.update_of_ne hb.ne] at hab
    exact hdistinct a ha b hb hab
  · rw [Function.update_of_ne ha.ne, Function.update_self] at hab
    exact absurd hab (hne a ha)
  · rw [Function.update_of_ne hb.ne, Function.update_self] at hab
    exact absurd hab.symm (hne b hb)
  · rfl

/-- The page on top of the free stack can take `written` tokens behind the full pages of a chain. -/
structure Takable (p : KvPool) (s k written : ℕ) : Prop where
  slot_lt : s < maxRequestSlots
  live : (p.requests s).live = true
  free : 0 < p.freeLen
  top : p.freeStack (p.freeLen - 1) = k
  full : (p.requests s).residentTokens = (p.requests s).pageCount * p.pageTokens
  pos : 0 < written
  fits : written ≤ p.pageTokens
  context : (p.requests s).residentTokens + written ≤ p.maxContextTokens

section Fresh

variable {written : ℕ}

@[simp] theorem pushFresh_requests_self :
    (p.pushFresh s k written).requests s = { p.requests s with
      pages := Function.update (p.requests s).pages (p.requests s).pageCount
        ⟨k, (p.pages k).generation⟩
      pageCount := (p.requests s).pageCount + 1
      residentTokens := (p.requests s).residentTokens + written } := setRequest_self

@[simp] theorem pushFresh_pages_self :
    (p.pushFresh s k written).pages k = { p.pages k with
      state := .writable s
      initializedTokens := written
      referenceMask := setReference (p.pages k).referenceMask s } := setPage_self

namespace Takable

variable (h : p.WellFormed) (ht : p.Takable s k written)

include h ht

/-- The chain does not have the page. -/
theorem index_ne {i : ℕ} (hi : i < (p.requests s).pageCount) :
    ((p.requests s).pages i).index ≠ k := by
  intro heq
  exact (h.top_free ht.free ht.top).2.2.2 s ht.slot_lt ⟨i, hi, heq⟩

theorem requestOk : (p.pushFresh s k written).RequestOk s := by
  obtain ⟨h1, -, -, -, -, h6, h7⟩ := h.request s ht.slot_lt
  have hfull := ht.full
  have hpos := ht.pos
  have hfits := ht.fits
  have hmul : ((p.requests s).pageCount + 1) * p.pageTokens =
      (p.requests s).pageCount * p.pageTokens + p.pageTokens := Nat.succ_mul ..
  constructor <;> rw [pushFresh_requests_self]
  · exact h1.trans (Nat.le_add_right ..)
  · exact ht.context
  · show (p.requests s).residentTokens + written ≤ ((p.requests s).pageCount + 1) * p.pageTokens
    omega
  · show ((p.requests s).pageCount + 1) * p.pageTokens <
      (p.requests s).residentTokens + written + p.pageTokens
    omega
  · intro hidle
    exact absurd (ht.live.symm.trans hidle) (by simp)
  · exact h6
  · exact h7

/-- The pages that the chain had serve it as before. -/
theorem serves_old {i : ℕ} (hi : i < (p.requests s).pageCount) :
    Serves p.pageTokens ((p.pushFresh s k written).requests s) s i
      ((p.pushFresh s k written).pages ((p.requests s).pages i).index) := by
  obtain ⟨g1, g2, g3, g4, g5, g6⟩ := h.serves s ht.slot_lt i hi
  have hfull := ht.full
  have hle : (i + 1) * p.pageTokens ≤ (p.requests s).pageCount * p.pageTokens :=
    Nat.mul_le_mul_right _ hi
  have hsucc : (i + 1) * p.pageTokens = i * p.pageTokens + p.pageTokens := Nat.succ_mul ..
  rw [show (p.pushFresh s k written).pages _ = _ from setPage_of_ne (ht.index_ne h hi),
    pushFresh_requests_self]
  refine ⟨?_, g2.trans ?_, g3, g4, g5, g6⟩
  · rw [g1]
    exact congrArg PageId.generation (Function.update_of_ne hi.ne ..).symm
  · show _ = min p.pageTokens ((p.requests s).residentTokens + written - i * p.pageTokens)
    omega

omit h in
/-- The page that was taken serves the chain. -/
theorem serves_new :
    Serves p.pageTokens ((p.pushFresh s k written).requests s) s (p.requests s).pageCount
      ((p.pushFresh s k written).pages k) := by
  have hfull := ht.full
  have hfits := ht.fits
  rw [pushFresh_pages_self, pushFresh_requests_self]
  refine ⟨by simp, ?_, ?_, by simp, ?_, by simp⟩
  · show written = min p.pageTokens ((p.requests s).residentTokens + written -
      (p.requests s).pageCount * p.pageTokens)
    omega
  · rw [getLsbD_setReference ht.slot_lt]
    simp
  · intro o ho
    simpa using ho.symm

theorem pageOk : (p.pushFresh s k written).PageOk k := by
  obtain ⟨hlimit, -, hmask, -⟩ := h.top_free ht.free ht.top
  obtain ⟨g1, g2, -, -, -, -⟩ := h.page k hlimit
  constructor <;> rw [pushFresh_pages_self]
  · exact g1
  · exact g2
  · intro j hj
    simp only [getLsbD_setReference ht.slot_lt, hmask] at hj
    obtain rfl : j = s := by simpa using hj
    rw [Holds, pushFresh_requests_self]
    exact ⟨(p.requests j).pageCount, Nat.lt_succ_self _, by simp⟩
  · show PageState.writable s = .free ↔ Function.update p.freeBitmap k false k = true
    simp
  · intro hx
    exact absurd hx (by simp)
  · intro _
    exact ne_zero_iff_getLsbD.mpr ⟨s, by simp [getLsbD_setReference ht.slot_lt]⟩

/-- The stack without its top, and the bitmap without the bit of the top. -/
theorem stackOk : (p.pushFresh s k written).StackOk := by
  have hlt := Nat.sub_lt ht.free Nat.one_pos
  refine stackOk_setRequest.mpr (stackOk_setPage.mpr ⟨?_, ?_, ?_⟩)
  · intro i hi
    exact h.stack.lt i (Nat.lt_of_lt_pred hi)
  · intro i hi j hj
    exact h.stack.inj i (Nat.lt_of_lt_pred hi) j (Nat.lt_of_lt_pred hj)
  intro m hm
  show Function.update p.freeBitmap k false m = true ↔ ∃ i < p.freeLen - 1, p.freeStack i = m
  by_cases hmk : m = k
  · subst hmk
    rw [Function.update_self]
    refine ⟨fun hx => absurd hx (by simp), ?_⟩
    rintro ⟨i, hi, him⟩
    have hsame := h.stack.inj i (Nat.lt_of_lt_pred hi) _ hlt (him.trans ht.top.symm)
    omega
  · rw [Function.update_of_ne hmk, h.stack.mem_iff m hm]
    constructor
    · rintro ⟨i, hi, him⟩
      have hne : i ≠ p.freeLen - 1 := by
        rintro rfl
        exact hmk (him.symm.trans ht.top)
      exact ⟨i, by omega, him⟩
    · rintro ⟨i, hi, him⟩
      exact ⟨i, Nat.lt_of_lt_pred hi, him⟩

end Takable

/-- A free page goes to the end of a chain whose pages are all full. -/
theorem WellFormed.pushFresh (h : p.WellFormed) (ht : p.Takable s k written) :
    (p.pushFresh s k written).WellFormed := by
  obtain ⟨hlimit, -, -, hnone⟩ := h.top_free ht.free ht.top
  refine h.update (s := s) (k := k) ⟨rfl, rfl, rfl⟩ (fun j hj => setRequest_of_ne hj)
    (fun m hm => setPage_of_ne hm) (fun m hm => Function.update_of_ne hm ..) (ht.requestOk h) ?_ ?_
    (fun j hj _ i hi hik => absurd ⟨i, hi, hik⟩ (hnone j hj)) ?_ ?_ (fun _ => ht.pageOk h)
    (ht.stackOk h)
  · rw [pushFresh_requests_self]
    intro i hi
    rcases Nat.lt_succ_iff_lt_or_eq.mp hi with hi | rfl
    · simp only [Function.update_of_ne hi.ne]
      exact h.index_lt s ht.slot_lt i hi
    · simpa using hlimit
  · intro i hi
    rw [pushFresh_requests_self] at hi
    rcases Nat.lt_succ_iff_lt_or_eq.mp hi with hi | rfl
    · have hold : ((p.pushFresh s k written).requests s).pages i = (p.requests s).pages i := by
        rw [pushFresh_requests_self]
        exact Function.update_of_ne hi.ne ..
      rw [hold]
      exact ht.serves_old h hi
    · have hnew : ((p.pushFresh s k written).requests s).pages (p.requests s).pageCount =
          ⟨k, (p.pages k).generation⟩ := by
        rw [pushFresh_requests_self]
        exact Function.update_self ..
      rw [hnew]
      exact ht.serves_new
  · rw [pushFresh_requests_self]
    intro a ha b hb hab
    exact distinct_update (h.distinct s ht.slot_lt) (fun i hi => ht.index_ne h hi) ha hb hab
  · rintro m - ⟨i, hi, him⟩
    rw [Holds, pushFresh_requests_self]
    refine ⟨i, Nat.lt_succ_of_lt hi, ?_⟩
    simpa only [Function.update_of_ne hi.ne] using him

end Fresh

/-- The chain of `t` is a committed prefix of the chain of `s`, and `page` is the next one of it. -/
structure Sharable (p : KvPool) (s t i : ℕ) (page : PageId) : Prop where
  source_lt : s < maxRequestSlots
  target_lt : t < maxRequestSlots
  live : (p.requests t).live = true
  count : (p.requests t).pageCount = i
  available : i < (p.requests s).pageCount
  page_eq : (p.requests s).pages i = page
  settled : (i + 1) * p.pageTokens ≤ (p.requests s).committedTokens
  resident : (p.requests t).residentTokens = i * p.pageTokens
  committed : (p.requests t).committedTokens = i * p.pageTokens
  same : ∀ j < i, (p.requests t).pages j = (p.requests s).pages j

section Shared

variable {t i : ℕ} {page : PageId}

theorem pushShared_requests : (p.pushShared t i page .sealed).requests t = { p.requests t with
    pages := Function.update (p.requests t).pages i page
    pageCount := (p.requests t).pageCount + 1
    residentTokens := (p.requests t).residentTokens + p.pageTokens
    committedTokens := (p.requests t).committedTokens + p.pageTokens } :=
  setRequest_self

theorem pushShared_pages : (p.pushShared t i page .sealed).pages page.index =
    { p.pages page.index with
      state := .sealed
      referenceMask := setReference (p.pages page.index).referenceMask t } :=
  setPage_self

namespace Sharable

variable (h : p.WellFormed) (hsh : p.Sharable s t i page)

include h hsh

theorem index_lt : page.index < p.pageLimit := by
  rw [← hsh.page_eq]
  exact h.index_lt s hsh.source_lt i hsh.available

/-- The chain of `t` does not have the page yet. -/
theorem index_ne {j : ℕ} (hj : j < i) : ((p.requests t).pages j).index ≠ page.index := by
  intro heq
  rw [hsh.same j hj, ← hsh.page_eq] at heq
  exact hj.ne (h.distinct s hsh.source_lt j (hj.trans hsh.available) i hsh.available heq)

/-- The page serves the chain that it comes from. -/
theorem serves_source :
    Serves p.pageTokens (p.requests s) s i (p.pages page.index) := by
  rw [← hsh.page_eq]
  exact h.serves s hsh.source_lt i hsh.available

theorem requestOk : (p.pushShared t i page .sealed).RequestOk t := by
  have hcount := hsh.count
  have hresident := hsh.resident
  have hcommitted := hsh.committed
  have hsettled := hsh.settled
  have hle := (h.request s hsh.source_lt).committed_le
  have hcontext := (h.request s hsh.source_lt).resident_le
  have hpos := h.geometry.pageTokens_pos
  have hmul : (i + 1) * p.pageTokens = i * p.pageTokens + p.pageTokens := Nat.succ_mul ..
  constructor <;> rw [pushShared_requests]
  · show (p.requests t).committedTokens + p.pageTokens ≤
      (p.requests t).residentTokens + p.pageTokens
    omega
  · show (p.requests t).residentTokens + p.pageTokens ≤ p.maxContextTokens
    omega
  · show (p.requests t).residentTokens + p.pageTokens ≤
      ((p.requests t).pageCount + 1) * p.pageTokens
    rw [hcount]
    omega
  · show ((p.requests t).pageCount + 1) * p.pageTokens <
      (p.requests t).residentTokens + p.pageTokens + p.pageTokens
    rw [hcount]
    omega
  · intro hidle
    exact absurd (hsh.live.symm.trans hidle) (by simp)
  · exact (h.request t hsh.target_lt).generation_pos
  · exact (h.request t hsh.target_lt).generation_lt

/-- The pages that the chain had serve it as before. -/
theorem serves_old {j : ℕ} (hj : j < i) :
    Serves p.pageTokens ((p.pushShared t i page .sealed).requests t) t j
      ((p.pushShared t i page .sealed).pages ((p.requests t).pages j).index) := by
  obtain ⟨f1, f2, f3, f4, f5, f6⟩ := h.serves t hsh.target_lt j (hsh.count ▸ hj)
  have hresident := hsh.resident
  have hle : (j + 1) * p.pageTokens ≤ i * p.pageTokens := Nat.mul_le_mul_right _ hj
  have hsucc : (j + 1) * p.pageTokens = j * p.pageTokens + p.pageTokens := Nat.succ_mul ..
  rw [show (p.pushShared t i page .sealed).pages _ = _ from setPage_of_ne (hsh.index_ne h hj),
    pushShared_requests]
  refine ⟨?_, f2.trans ?_, f3, f4, f5, fun hsealed => ?_⟩
  · rw [f1]
    exact congrArg PageId.generation (Function.update_of_ne hj.ne ..).symm
  · show _ = min p.pageTokens ((p.requests t).residentTokens + p.pageTokens - j * p.pageTokens)
    omega
  · exact (f6 hsealed).trans (Nat.le_add_right ..)

/-- The shared page serves the chain it comes to. -/
theorem serves_new :
    Serves p.pageTokens ((p.pushShared t i page .sealed).requests t) t i
      ((p.pushShared t i page .sealed).pages page.index) := by
  obtain ⟨g1, g2, -, -, -, -⟩ := hsh.serves_source h
  have hresident := hsh.resident
  have hcommitted := hsh.committed
  have hsettled := hsh.settled
  have hle := (h.request s hsh.source_lt).committed_le
  have hmul : (i + 1) * p.pageTokens = i * p.pageTokens + p.pageTokens := Nat.succ_mul ..
  rw [pushShared_pages, pushShared_requests]
  refine ⟨?_, g2.trans ?_, ?_, by simp, by simp, fun _ => ?_⟩
  · rw [hsh.page_eq] at g1
    simpa using g1
  · show _ = min p.pageTokens ((p.requests t).residentTokens + p.pageTokens - i * p.pageTokens)
    omega
  · rw [getLsbD_setReference hsh.target_lt]
    simp
  · show (i + 1) * p.pageTokens ≤ (p.requests t).committedTokens + p.pageTokens
    omega

/-- Sealing the page does not harm the other chains that have it. -/
theorem serves_other {j m : ℕ} (hj : j < maxRequestSlots) (hm : m < (p.requests j).pageCount)
    (hpage : ((p.requests j).pages m).index = page.index) :
    Serves p.pageTokens (p.requests j) j m
      ((p.pushShared t i page .sealed).pages page.index) := by
  obtain ⟨f1, f2, f3, f4, f5, f6⟩ := h.serves j hj m hm
  rw [hpage] at f1 f2 f3 f4 f5 f6
  rw [pushShared_pages]
  refine ⟨f1, f2, ?_, by simp, by simp, fun _ => ?_⟩
  · rw [getLsbD_setReference hsh.target_lt, f3, Bool.true_or]
  · cases hstate : (p.pages page.index).state with
    | free => exact absurd hstate f4
    | writable o =>
      -- the page was writable by `s`, so this entry is the shared one
      obtain rfl : o = s := (hsh.serves_source h).owner o hstate
      obtain rfl : o = j := f5 o hstate
      have hsame : ((p.requests o).pages m).index = ((p.requests o).pages i).index := by
        rw [hpage, hsh.page_eq]
      obtain rfl : m = i := h.distinct o hj m hm i hsh.available hsame
      exact hsh.settled
    | sealed => exact f6 hstate

theorem pageOk : (p.pushShared t i page .sealed).PageOk page.index := by
  obtain ⟨f1, f2, f3, f4, -, -⟩ := h.page page.index (hsh.index_lt h)
  have hfree := (hsh.serves_source h).not_free
  constructor <;> rw [pushShared_pages]
  · exact f1
  · exact f2
  · intro j hj
    by_cases hjt : j = t
    · subst hjt
      rw [Holds, pushShared_requests, hsh.count]
      exact ⟨i, Nat.lt_succ_self i, by simp⟩
    · simp only [getLsbD_setReference hsh.target_lt, hjt, decide_false, Bool.or_false] at hj
      exact (f3 j hj).of_eq (setRequest_of_ne hjt)
  · exact ⟨fun hx => absurd hx (by simp), fun hx => absurd (f4.mpr hx) hfree⟩
  · intro hx
    exact absurd hx (by simp)
  · intro _
    exact ne_zero_iff_getLsbD.mpr ⟨t, by simp [getLsbD_setReference hsh.target_lt]⟩

end Sharable

/-- The next page of a committed prefix of the chain of `s` goes to the chain of `t`, which is that
prefix up to here. -/
theorem WellFormed.pushShared (h : p.WellFormed) (hsh : p.Sharable s t i page) :
    (p.pushShared t i page .sealed).WellFormed := by
  refine h.update (s := t) (k := page.index) ⟨rfl, rfl, rfl⟩ (fun j hj => setRequest_of_ne hj)
    (fun m hm => setPage_of_ne hm) (fun m _ => rfl) (hsh.requestOk h) ?_ ?_
    (fun j hj _ m hm hpage => hsh.serves_other h hj hm hpage) ?_ ?_ (fun _ => hsh.pageOk h)
    (stackOk_setRequest.mpr (stackOk_setPage.mpr h.stack))
  · rw [pushShared_requests, hsh.count]
    intro j hj
    rcases Nat.lt_succ_iff_lt_or_eq.mp hj with hj | rfl
    · simp only [Function.update_of_ne hj.ne]
      exact h.index_lt t hsh.target_lt j (hsh.count ▸ hj)
    · simpa using hsh.index_lt h
  · intro j hj
    rw [pushShared_requests, hsh.count] at hj
    rcases Nat.lt_succ_iff_lt_or_eq.mp hj with hj | rfl
    · have hold :
          ((p.pushShared t i page .sealed).requests t).pages j = (p.requests t).pages j := by
        rw [pushShared_requests]
        exact Function.update_of_ne hj.ne ..
      rw [hold]
      exact hsh.serves_old h hj
    · have hnew : ((p.pushShared t j page .sealed).requests t).pages j = page := by
        rw [pushShared_requests]
        exact Function.update_self ..
      rw [hnew]
      exact hsh.serves_new h
  · rw [pushShared_requests, hsh.count]
    intro a ha b hb hab
    have hdistinct := h.distinct t hsh.target_lt
    rw [hsh.count] at hdistinct
    exact distinct_update hdistinct (fun i hi => hsh.index_ne h hi) ha hb hab
  · rintro m - ⟨j, hj, hjm⟩
    rw [hsh.count] at hj
    rw [Holds, pushShared_requests, hsh.count]
    refine ⟨j, Nat.lt_succ_of_lt hj, ?_⟩
    simpa only [Function.update_of_ne hj.ne] using hjm

end Shared

/-- The request slot without its last page. -/
def popped (p : KvPool) (s resident committed : ℕ) : RequestSlot :=
  { p.requests s with
    pages := Function.update (p.requests s).pages (p.tail s) .empty
    pageCount := p.tail s
    residentTokens := resident
    committedTokens := committed }

/-- What the remaining entries of a popped chain keep. -/
theorem WellFormed.serves_popped (h : p.WellFormed) (hs : s < maxRequestSlots)
    (hcount : 0 < (p.requests s).pageCount) {committed : ℕ}
    (hmin : min (p.requests s).committedTokens (p.tail s * p.pageTokens) ≤ committed) {i : ℕ}
    (hi : i < p.tail s) :
    (p.popped s (p.tail s * p.pageTokens) committed).pages i = (p.requests s).pages i ∧
      ((p.requests s).pages i).index ≠ ((p.requests s).pages (p.tail s)).index ∧
      Serves p.pageTokens (p.popped s (p.tail s * p.pageTokens) committed) s i
        (p.pages ((p.requests s).pages i).index) := by
  have htail : p.tail s < (p.requests s).pageCount := Nat.sub_lt hcount Nat.one_pos
  have hpages : (p.popped s (p.tail s * p.pageTokens) committed).pages i =
      (p.requests s).pages i := Function.update_of_ne hi.ne ..
  obtain ⟨g1, g2, g3, g4, g5, g6⟩ := h.serves s hs i (hi.trans htail)
  have hle : (i + 1) * p.pageTokens ≤ p.tail s * p.pageTokens := Nat.mul_le_mul_right _ hi
  have hsucc : (i + 1) * p.pageTokens = i * p.pageTokens + p.pageTokens := Nat.succ_mul ..
  have hfull := h.full_of_lt hs (show i + 1 < _ from Nat.lt_of_le_of_lt hi htail)
  refine ⟨hpages, fun he => hi.ne (h.distinct s hs i (hi.trans htail) _ htail he),
    by rwa [hpages], g2.trans ?_, g3, g4, g5, fun hx => ?_⟩
  · show _ = min p.pageTokens (p.tail s * p.pageTokens - i * p.pageTokens)
    omega
  · exact (le_min (g6 hx) hle).trans hmin

/-- The last page leaves the chain of `s`, and its slot is rewritten. -/
theorem WellFormed.popTail (h : p.WellFormed) (hs : s < maxRequestSlots)
    (hcount : 0 < (p.requests s).pageCount)
    (hk : ((p.requests s).pages (p.tail s)).index = k) {committed : ℕ} {p' : KvPool}
    (hmin : min (p.requests s).committedTokens (p.tail s * p.pageTokens) ≤ committed)
    (hle : committed ≤ p.tail s * p.pageTokens) (hg : SameGeometry p p')
    (hreq : p'.requests s = p.popped s (p.tail s * p.pageTokens) committed)
    (hreqs : ∀ j, j ≠ s → p'.requests j = p.requests j)
    (hpage : ∀ m, m ≠ k → p'.pages m = p.pages m)
    (hbits : ∀ m, m ≠ k → p'.freeBitmap m = p.freeBitmap m)
    (hothers : ∀ j < maxRequestSlots, j ≠ s → ∀ i < (p.requests j).pageCount,
      ((p.requests j).pages i).index = k → Serves p.pageTokens (p.requests j) j i (p'.pages k))
    (hpk : p'.PageOk k) (hstack : p'.StackOk) : p'.WellFormed := by
  have htail : p.tail s < (p.requests s).pageCount := Nat.sub_lt hcount Nat.one_pos
  have hmul : (p.tail s + 1) * p.pageTokens = p.tail s * p.pageTokens + p.pageTokens :=
    Nat.succ_mul ..
  obtain ⟨-, h2, -, h4, -, h6, h7⟩ := h.request s hs
  have hresident : p.tail s * p.pageTokens ≤ (p.requests s).residentTokens := by
    have hcount' : (p.requests s).pageCount = p.tail s + 1 := (Nat.sub_add_cancel hcount).symm
    rw [hcount'] at h4
    omega
  have hpop : ∀ i < p.tail s, _ := fun i hi => h.serves_popped hs hcount hmin hi
  refine h.update (s := s) (k := k) hg hreqs hpage hbits ?_ ?_ ?_ hothers ?_ ?_
    (fun _ => hpk) hstack
  · constructor <;> rw [hreq]
    · exact hle
    · exact hg.2.1 ▸ hresident.trans h2
    · exact hg.1 ▸ le_rfl
    · rw [hg.1]
      exact Nat.lt_add_of_pos_right h.geometry.pageTokens_pos
    · intro hl
      have := (h.request s hs).idle hl
      omega
    · exact h6
    · exact h7
  · rw [hreq]
    intro i hi
    rw [(hpop i hi).1]
    exact h.index_lt s hs i (Nat.lt_trans hi htail)
  · rw [hreq]
    intro i hi
    obtain ⟨hpages, hne, hserves⟩ := hpop i hi
    rw [hpages, hpage _ (hk ▸ hne)]
    exact hserves
  · rw [hreq]
    intro i hi j hj hij
    rw [(hpop i hi).1, (hpop j hj).1] at hij
    exact h.distinct s hs i (Nat.lt_trans hi htail) j (Nat.lt_trans hj htail) hij
  · rintro m hm ⟨i, hi, him⟩
    have hi' : i < p.tail s := by
      have : i ≠ p.tail s := by
        rintro rfl
        exact hm (him.symm.trans hk)
      rw [tail] at this ⊢
      omega
    rw [Holds, hreq]
    exact ⟨i, hi', by rw [(hpop i hi').1, him]⟩

/-- Only this chain has its last page, which goes back on the stack. -/
theorem WellFormed.recycleTail (h : p.WellFormed) (hs : s < maxRequestSlots)
    (hcount : 0 < (p.requests s).pageCount)
    (hk : ((p.requests s).pages (p.tail s)).index = k) {committed generation : ℕ}
    (hmin : min (p.requests s).committedTokens (p.tail s * p.pageTokens) ≤ committed)
    (hle : committed ≤ p.tail s * p.pageTokens)
    (hsole : ∀ j, (p.pages k).referenceMask.getLsbD j = true → j = s)
    (hpos : 0 < generation) (hgeneration : generation < 2 ^ 32) :
    ((p.popTail s (p.tail s * p.pageTokens) committed).recycle k generation).WellFormed := by
  have htail : p.tail s < (p.requests s).pageCount := Nat.sub_lt hcount Nat.one_pos
  have hlimit : k < p.pageLimit := hk ▸ h.index_lt s hs _ htail
  have hnf : (p.pages k).state ≠ .free := h.not_free_of_holds hs ⟨_, htail, hk⟩
  have hoff : ∀ i < p.freeLen, p.freeStack i ≠ k := by
    intro i hi hik
    exact hnf ((h.page k hlimit).bitmap.mpr ((h.stack.mem_iff k hlimit).mpr ⟨i, hi, hik⟩))
  set p' := (p.popTail s (p.tail s * p.pageTokens) committed).recycle k generation with hp'
  have hpk : p'.pages k = { PageSlot.free with generation := generation } := setPage_self
  have hbit : ∀ m, p'.freeBitmap m = Function.update p.freeBitmap k true m := fun m => rfl
  have hstk : ∀ m, p'.freeStack m = Function.update p.freeStack p.freeLen k m := fun m => rfl
  have hlen : p'.freeLen = p.freeLen + 1 := rfl
  refine h.popTail hs hcount hk hmin hle ⟨rfl, rfl, rfl⟩ setRequest_self
    (fun j hj => setRequest_of_ne hj) (fun m hm => setPage_of_ne hm)
    (fun m hm => Function.update_of_ne hm ..) ?_ ?_ ⟨?_, ?_, ?_⟩
  · intro j hj hjs i hi hik
    exact absurd (hsole j (h.referenced_of_holds hj ⟨i, hi, hik⟩)) hjs
  · constructor <;> rw [hpk]
    · exact hpos
    · exact hgeneration
    · intro j hj
      simp [PageSlot.free] at hj
    · simp [PageSlot.free, hbit]
    · exact fun _ => ⟨rfl, rfl⟩
    · exact fun hx => absurd rfl hx
  · intro i hi
    rw [hlen] at hi
    rw [hstk]
    rcases Nat.lt_succ_iff_lt_or_eq.mp hi with hi | rfl
    · rw [Function.update_of_ne hi.ne]
      exact h.stack.lt i hi
    · rw [Function.update_self]
      exact hlimit
  · intro i hi j hj hij
    rw [hlen] at hi hj
    rw [hstk, hstk] at hij
    rcases Nat.lt_succ_iff_lt_or_eq.mp hi with hi | rfl <;>
      rcases Nat.lt_succ_iff_lt_or_eq.mp hj with hj | rfl
    · rw [Function.update_of_ne hi.ne, Function.update_of_ne hj.ne] at hij
      exact h.stack.inj i hi j hj hij
    · rw [Function.update_of_ne hi.ne, Function.update_self] at hij
      exact absurd hij (hoff i hi)
    · rw [Function.update_of_ne hj.ne, Function.update_self] at hij
      exact absurd hij.symm (hoff j hj)
    · rfl
  · intro m hm
    rw [hbit, hlen]
    by_cases hmk : m = k
    · subst hmk
      simp only [Function.update_self, true_iff]
      exact ⟨p.freeLen, Nat.lt_succ_self _, by rw [hstk, Function.update_self]⟩
    · rw [Function.update_of_ne hmk, h.stack.mem_iff m hm]
      constructor
      · rintro ⟨i, hi, him⟩
        exact ⟨i, Nat.lt_succ_of_lt hi, by rw [hstk, Function.update_of_ne hi.ne, him]⟩
      · rintro ⟨i, hi, him⟩
        rw [hstk] at him
        rcases Nat.lt_succ_iff_lt_or_eq.mp hi with hi | rfl
        · rw [Function.update_of_ne hi.ne] at him
          exact ⟨i, hi, him⟩
        · rw [Function.update_self] at him
          exact absurd him.symm hmk

/-- Another chain has the last page too, and keeps it. -/
theorem WellFormed.detachTail (h : p.WellFormed) (hs : s < maxRequestSlots)
    (hcount : 0 < (p.requests s).pageCount)
    (hk : ((p.requests s).pages (p.tail s)).index = k) {committed : ℕ}
    (hmin : min (p.requests s).committedTokens (p.tail s * p.pageTokens) ≤ committed)
    (hle : committed ≤ p.tail s * p.pageTokens)
    (hshared : ∃ j, j ≠ s ∧ (p.pages k).referenceMask.getLsbD j = true) :
    ((p.popTail s (p.tail s * p.pageTokens) committed).dereference k s).WellFormed := by
  have htail : p.tail s < (p.requests s).pageCount := Nat.sub_lt hcount Nat.one_pos
  have hlimit : k < p.pageLimit := hk ▸ h.index_lt s hs _ htail
  have hnf : (p.pages k).state ≠ .free := h.not_free_of_holds hs ⟨_, htail, hk⟩
  set p' := (p.popTail s (p.tail s * p.pageTokens) committed).dereference k s with hp'
  have hpk : p'.pages k = { p.pages k with
      referenceMask := clearReference (p.pages k).referenceMask s } := setPage_self
  refine h.popTail hs hcount hk hmin hle ⟨rfl, rfl, rfl⟩ setRequest_self
    (fun j hj => setRequest_of_ne hj) (fun m hm => setPage_of_ne hm) (fun m _ => rfl) ?_ ?_
    (stackOk_setPage.mpr (stackOk_setRequest.mpr h.stack))
  · intro j hj hjs i hi hik
    obtain ⟨g1, g2, g3, g4, g5, g6⟩ := h.serves j hj i hi
    rw [hik] at g1 g2 g3 g4 g5 g6
    rw [hpk]
    refine ⟨g1, g2, ?_, g4, g5, g6⟩
    rw [getLsbD_clearReference hs, g3]
    simpa using hjs
  · obtain ⟨g1, g2, g3, g4, -, -⟩ := h.page k hlimit
    constructor <;> rw [hpk]
    · exact g1
    · exact g2
    · intro j hj
      simp only [getLsbD_clearReference hs, Bool.and_eq_true, decide_eq_true_eq] at hj
      exact (g3 j hj.1).of_eq (setRequest_of_ne hj.2)
    · exact g4
    · exact fun hx => absurd hx hnf
    · obtain ⟨j, hj, hbit⟩ := hshared
      exact fun _ => ne_zero_iff_getLsbD.mpr ⟨j, by
        rw [getLsbD_clearReference hs, hbit]
        simpa using hj⟩

/-- Pages that the free stack does not list leave room on it. -/
theorem WellFormed.freeLen_add_le (h : p.WellFormed) (pages : List ℕ) (hnd : pages.Nodup)
    (hlt : ∀ k ∈ pages, k < p.pageLimit) (hnf : ∀ k ∈ pages, (p.pages k).state ≠ .free) :
    p.freeLen + pages.length ≤ p.pageLimit := by
  have hnodup : ((List.range p.freeLen).map p.freeStack ++ pages).Nodup := by
    refine List.Nodup.append ?_ hnd ?_
    · refine List.Nodup.map_on ?_ List.nodup_range
      intro i hi j hj
      exact h.stack.inj i (List.mem_range.mp hi) j (List.mem_range.mp hj)
    · intro k hk hkp
      obtain ⟨i, hi, rfl⟩ := List.mem_map.mp hk
      have hlimit := hlt _ hkp
      exact hnf _ hkp ((h.page _ hlimit).bitmap.mpr
        ((h.stack.mem_iff _ hlimit).mpr ⟨i, List.mem_range.mp hi, rfl⟩))
  have hle := length_le_of_nodup_of_lt hnodup (n := p.pageLimit) fun k hk => by
    rcases List.mem_append.mp hk with hk | hk
    · obtain ⟨i, hi, rfl⟩ := List.mem_map.mp hk
      exact h.stack.lt i (List.mem_range.mp hi)
    · exact hlt k hk
  simpa using hle

theorem WellFormed.freeLen_le (h : p.WellFormed) : p.freeLen ≤ p.pageLimit := by
  have := h.freeLen_add_le [] List.nodup_nil (by simp) (by simp)
  simpa using this

end KvPool

end Cache

end Ferric
