import Ferric.Cache.Model
import Ferric.Lib.Lists

/-!
# The invariant of the KV pool

`WellFormed` relates the four representations of who holds a page: the free stack, the bitmap, the
state and mask of a page, and the chains of the requests. It is stated per request, per entry of a
chain and per page, so that a write to one page and one request has to be checked at those only.

## Main results

* `WellFormed.update` — the frame rule: what has to be checked after a write
-/

namespace Ferric

namespace Cache

open Spec

/-! ### Reference masks -/

theorem getLsbD_one_shiftLeft {s j : ℕ} (hs : s < 32) :
    (1#32 <<< s).getLsbD j = decide (j = s) := by
  rw [BitVec.getLsbD_shiftLeft]
  by_cases hj : j = s
  · subst hj
    simp [hs]
  · rw [decide_eq_false hj]
    by_cases hlt : j < s
    · simp [hlt]
    · have h0 : j - s ≠ 0 := by omega
      simp [BitVec.getLsbD_one, h0]

theorem getLsbD_setReference {mask : BitVec 32} {s j : ℕ} (hs : s < 32) :
    (setReference mask s).getLsbD j = (mask.getLsbD j || decide (j = s)) := by
  rw [setReference, BitVec.getLsbD_or, getLsbD_one_shiftLeft hs]

theorem getLsbD_clearReference {mask : BitVec 32} {s j : ℕ} (hs : s < 32) :
    (clearReference mask s).getLsbD j = (mask.getLsbD j && decide (j ≠ s)) := by
  rw [clearReference, BitVec.getLsbD_and, BitVec.getLsbD_not, getLsbD_one_shiftLeft hs]
  by_cases hj : j < 32
  · simp [hj]
  · simp [BitVec.getLsbD_of_ge mask j (by omega)]

theorem ne_zero_iff_getLsbD {mask : BitVec 32} : mask ≠ 0 ↔ ∃ j, mask.getLsbD j = true := by
  constructor
  · intro h
    by_contra hnone
    refine h (BitVec.eq_of_getLsbD_eq fun j _ => ?_)
    have := not_exists.mp hnone j
    simpa using this
  · rintro ⟨j, hj⟩ rfl
    simp at hj

/-- Another request refers to the page. -/
theorem otherReference_iff {mask : BitVec 32} {s : ℕ} (hs : s < 32) :
    mask &&& ~~~(1#32 <<< s) ≠ 0 ↔ ∃ j, j ≠ s ∧ mask.getLsbD j = true := by
  show clearReference mask s ≠ 0 ↔ _
  rw [ne_zero_iff_getLsbD]
  simp [getLsbD_clearReference hs, and_comm]

theorem lt_of_getLsbD {mask : BitVec 32} {s : ℕ} (h : mask.getLsbD s = true) : s < 32 :=
  BitVec.lt_of_getLsbD h

/-! ### The invariant -/

namespace KvPool

/-- What the construction checked. -/
structure Geometry (p : KvPool) : Prop where
  pageTokens_pos : 0 < p.pageTokens
  context_lt : p.maxContextTokens < 2 ^ 32
  limit_le : p.pageLimit ≤ maxPageSlots
  chain_le : (p.maxContextTokens + p.pageTokens - 1) / p.pageTokens ≤ maxPagesPerRequest

/-- The numbers of a request slot fit together. -/
structure RequestOk (p : KvPool) (s : ℕ) : Prop where
  committed_le : (p.requests s).committedTokens ≤ (p.requests s).residentTokens
  resident_le : (p.requests s).residentTokens ≤ p.maxContextTokens
  covered : (p.requests s).residentTokens ≤ (p.requests s).pageCount * p.pageTokens
  tight : (p.requests s).pageCount * p.pageTokens < (p.requests s).residentTokens + p.pageTokens
  idle : (p.requests s).live = false → (p.requests s).pageCount = 0
  generation_pos : 0 < (p.requests s).generation
  generation_lt : (p.requests s).generation < 2 ^ 32

/-- The page slot `slot` serves position `i` of the chain of `request`, in slot `s`. -/
structure Serves (pageTokens : ℕ) (request : RequestSlot) (s i : ℕ) (slot : PageSlot) : Prop where
  generation : slot.generation = (request.pages i).generation
  initialized : slot.initializedTokens = min pageTokens (request.residentTokens - i * pageTokens)
  referenced : slot.referenceMask.getLsbD s = true
  not_free : slot.state ≠ .free
  owner : ∀ o, slot.state = .writable o → o = s
  sealed : slot.state = .sealed → (i + 1) * pageTokens ≤ request.committedTokens

/-- The chain of slot `s` has the page `k`. -/
def Holds (p : KvPool) (s k : ℕ) : Prop :=
  ∃ i < (p.requests s).pageCount, ((p.requests s).pages i).index = k

/-- A page is free and known to be, or some chain has it, and the mask says which chains do. -/
structure PageOk (p : KvPool) (k : ℕ) : Prop where
  generation_pos : 0 < (p.pages k).generation
  generation_lt : (p.pages k).generation < 2 ^ 32
  held : ∀ s, (p.pages k).referenceMask.getLsbD s = true → p.Holds s k
  bitmap : (p.pages k).state = .free ↔ p.freeBitmap k = true
  of_free : (p.pages k).state = .free →
    (p.pages k).initializedTokens = 0 ∧ (p.pages k).referenceMask = 0
  of_not_free : (p.pages k).state ≠ .free → (p.pages k).referenceMask ≠ 0

/-- The free stack lists the free pages once. -/
structure StackOk (p : KvPool) : Prop where
  lt : ∀ i < p.freeLen, p.freeStack i < p.pageLimit
  inj : ∀ i < p.freeLen, ∀ j < p.freeLen, p.freeStack i = p.freeStack j → i = j
  mem_iff : ∀ k < p.pageLimit, p.freeBitmap k = true ↔ ∃ i < p.freeLen, p.freeStack i = k

/-- The invariant of a KV pool. -/
structure WellFormed (p : KvPool) : Prop where
  geometry : p.Geometry
  request : ∀ s < maxRequestSlots, p.RequestOk s
  index_lt : ∀ s < maxRequestSlots, ∀ i < (p.requests s).pageCount,
    ((p.requests s).pages i).index < p.pageLimit
  serves : ∀ s < maxRequestSlots, ∀ i < (p.requests s).pageCount,
    Serves p.pageTokens (p.requests s) s i (p.pages ((p.requests s).pages i).index)
  distinct : ∀ s < maxRequestSlots, ∀ i < (p.requests s).pageCount,
    ∀ j < (p.requests s).pageCount,
    ((p.requests s).pages i).index = ((p.requests s).pages j).index → i = j
  page : ∀ k < p.pageLimit, p.PageOk k
  stack : p.StackOk

variable {p p' : KvPool} {s k : ℕ}

theorem WellFormed.pageCount_le (h : p.WellFormed) (hs : s < maxRequestSlots) :
    (p.requests s).pageCount ≤ maxPagesPerRequest := by
  refine le_trans ?_ h.geometry.chain_le
  rw [Nat.le_div_iff_mul_le h.geometry.pageTokens_pos]
  have := (h.request s hs).tight
  have := (h.request s hs).resident_le
  omega

/-- A page that some chain has is not free. -/
theorem WellFormed.not_free_of_holds (h : p.WellFormed) (hs : s < maxRequestSlots)
    (hk : p.Holds s k) : (p.pages k).state ≠ .free := by
  obtain ⟨i, hi, rfl⟩ := hk
  exact (h.serves s hs i hi).not_free

theorem WellFormed.referenced_of_holds (h : p.WellFormed) (hs : s < maxRequestSlots)
    (hk : p.Holds s k) : (p.pages k).referenceMask.getLsbD s = true := by
  obtain ⟨i, hi, rfl⟩ := hk
  exact (h.serves s hs i hi).referenced

/-- Only its owner has a writable page. -/
theorem WellFormed.eq_owner (h : p.WellFormed) (hs : s < maxRequestSlots) (hk : p.Holds s k)
    {o : ℕ} (ho : (p.pages k).state = .writable o) : o = s := by
  obtain ⟨i, hi, rfl⟩ := hk
  exact (h.serves s hs i hi).owner o ho

/-- The parts of the pool that no operation changes. -/
def SameGeometry (p p' : KvPool) : Prop :=
  p'.pageTokens = p.pageTokens ∧ p'.maxContextTokens = p.maxContextTokens ∧
    p'.pageLimit = p.pageLimit

theorem SameGeometry.geometry (h : SameGeometry p p') (hp : p.Geometry) : p'.Geometry := by
  obtain ⟨h1, h2, h3⟩ := h
  exact ⟨h1 ▸ hp.pageTokens_pos, h2 ▸ hp.context_lt, h3 ▸ hp.limit_le, by
    rw [h1, h2]
    exact hp.chain_le⟩

/-- **Frame rule.** A write to request slot `s` and page `k` has to be checked there, and where
another chain has `k`. -/
theorem WellFormed.update (h : p.WellFormed) (hg : SameGeometry p p')
    (hreq : ∀ j, j ≠ s → p'.requests j = p.requests j)
    (hpage : ∀ m, m ≠ k → p'.pages m = p.pages m)
    (hbits : ∀ m, m ≠ k → p'.freeBitmap m = p.freeBitmap m)
    (hrequest : p'.RequestOk s)
    (hindex : ∀ i < (p'.requests s).pageCount, ((p'.requests s).pages i).index < p.pageLimit)
    (hserves : ∀ i < (p'.requests s).pageCount,
      Serves p.pageTokens (p'.requests s) s i (p'.pages ((p'.requests s).pages i).index))
    (hothers : ∀ j < maxRequestSlots, j ≠ s → ∀ i < (p.requests j).pageCount,
      ((p.requests j).pages i).index = k → Serves p.pageTokens (p.requests j) j i (p'.pages k))
    (hdistinct : ∀ i < (p'.requests s).pageCount, ∀ j < (p'.requests s).pageCount,
      ((p'.requests s).pages i).index = ((p'.requests s).pages j).index → i = j)
    (hheld : ∀ m, m ≠ k → p.Holds s m → p'.Holds s m)
    (hpk : k < p.pageLimit → p'.PageOk k) (hstack : p'.StackOk) : p'.WellFormed := by
  have hholds : ∀ j, j ≠ s → ∀ m, p.Holds j m → p'.Holds j m := by
    intro j hj m hm
    rw [Holds, hreq j hj]
    exact hm
  have hok : ∀ j < maxRequestSlots, p'.RequestOk j := by
    intro j hj
    by_cases hjs : j = s
    · exact hjs ▸ hrequest
    · obtain ⟨h1, h2, h3, h4, h5, h6, h7⟩ := h.request j hj
      constructor <;> rw [hreq j hjs] <;> simpa [hg.1, hg.2.1]
  refine ⟨hg.geometry h.geometry, hok, fun j hj i hi => ?_, fun j hj i hi => ?_,
    fun j hj => ?_, fun m hm => ?_, hstack⟩
  · rw [hg.2.2]
    by_cases hjs : j = s
    · subst hjs
      exact hindex i hi
    · rw [hreq j hjs] at hi ⊢
      exact h.index_lt j hj i hi
  · rw [hg.1]
    by_cases hjs : j = s
    · subst hjs
      exact hserves i hi
    · rw [hreq j hjs] at hi ⊢
      by_cases hk : ((p.requests j).pages i).index = k
      · rw [hk]
        exact hothers j hj hjs i hi hk
      · rw [hpage _ hk]
        exact h.serves j hj i hi
  · by_cases hjs : j = s
    · exact hjs ▸ hdistinct
    · rw [hreq j hjs]
      exact h.distinct j hj
  · by_cases hmk : m = k
    · exact hmk ▸ hpk (hmk ▸ hg.2.2 ▸ hm)
    · obtain ⟨h1, h2, h3, h4, h5, h6⟩ := h.page m (hg.2.2 ▸ hm)
      refine ⟨by rwa [hpage m hmk], by rwa [hpage m hmk], fun j hj => ?_,
        by rwa [hpage m hmk, hbits m hmk], by rwa [hpage m hmk], by rwa [hpage m hmk]⟩
      rw [hpage m hmk] at hj
      by_cases hjs : j = s
      · subst hjs
        exact hheld m hmk (h3 j hj)
      · exact hholds j hjs m (h3 j hj)

end KvPool

end Cache

end Ferric
