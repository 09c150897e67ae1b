import Ferric.Cache.Operations
import Mathlib.Logic.Function.Iterate

/-!
# Appending token by token

An append fills the last page, takes whole pages and one part of a page from the stack. What it
leaves is what as many appends of one token leave: each puts its token in the room of the last page,
or on the page on top of the stack.

## Main results

* `appendTentativeKey_eq_ok` — when an append returns, and with what pool
-/

namespace Ferric

namespace Cache

open Spec Ferric.Action KvPool

namespace KvPool

variable {p p' : KvPool} {s k : ℕ}

/-- The id of the last page of a chain. -/
def tailId (p : KvPool) (s : ℕ) : PageId := (p.requests s).pages (p.tail s)

/-- One more token for the chain of `s`. -/
def grow (s : ℕ) (p : KvPool) : KvPool :=
  if (p.requests s).residentTokens < (p.requests s).pageCount * p.pageTokens then
    p.resizeTail s (p.tailId s).index ((p.pages (p.tailId s).index).initializedTokens + 1)
      ((p.requests s).residentTokens + 1)
  else p.pushFresh s (p.freeStack (p.freeLen - 1)) 1

/-! ### The writes, as functions -/

@[simp] theorem resizeTail_requests_self {initialized resident : ℕ} :
    (p.resizeTail s k initialized resident).requests s =
      { p.requests s with residentTokens := resident } := setRequest_self

@[simp] theorem resizeTail_pages_self {initialized resident : ℕ} :
    (p.resizeTail s k initialized resident).pages k =
      { p.pages k with initializedTokens := initialized } := setPage_self

@[simp] theorem resizeTail_pageTokens {initialized resident : ℕ} :
    (p.resizeTail s k initialized resident).pageTokens = p.pageTokens := rfl

@[simp] theorem pushFresh_pageTokens {written : ℕ} :
    (p.pushFresh s k written).pageTokens = p.pageTokens := rfl

/-- The second of two changes of a tail page stands. -/
theorem resizeTail_resizeTail {a b a' b' : ℕ} :
    (p.resizeTail s k a b).resizeTail s k a' b' = p.resizeTail s k a' b' := by
  simp only [resizeTail, setRequest, setPage, Function.update_self, Function.update_idem]

theorem resizeTail_eq_self {a b : ℕ} (ha : (p.pages k).initializedTokens = a)
    (hb : (p.requests s).residentTokens = b) : p.resizeTail s k a b = p := by
  subst ha hb
  simp only [resizeTail, setRequest, setPage, Function.update_eq_self]

/-- A page is taken and filled up. -/
theorem resizeTail_pushFresh {a b : ℕ} :
    (p.pushFresh s k a).resizeTail s k b ((p.requests s).residentTokens + b) =
      p.pushFresh s k b := by
  simp only [resizeTail, pushFresh, setRequest, setPage, Function.update_self, Function.update_idem]

/-! ### Several tokens -/

/-- Tokens that fit in the last page. -/
theorem grow_iterate_tail (n : ℕ) (h : (p.requests s).residentTokens + n ≤
    (p.requests s).pageCount * p.pageTokens) :
    (grow s)^[n] p = p.resizeTail s (p.tailId s).index
      ((p.pages (p.tailId s).index).initializedTokens + n)
      ((p.requests s).residentTokens + n) := by
  induction n with
  | zero => exact (resizeTail_eq_self rfl rfl).symm
  | succ n ih =>
    rw [Function.iterate_succ_apply', ih (by omega), grow]
    simp only [resizeTail_requests_self, resizeTail_pageTokens]
    rw [if_pos (by omega)]
    have htail : (p.resizeTail s (p.tailId s).index
        ((p.pages (p.tailId s).index).initializedTokens + n)
        ((p.requests s).residentTokens + n)).tailId s = p.tailId s := by
      simp only [tailId, tail, resizeTail_requests_self]
    rw [htail, resizeTail_pages_self, resizeTail_resizeTail]
    rfl

/-- Tokens that go on the next page of a full chain. -/
theorem grow_iterate_fresh {n : ℕ} (hpos : 0 < n) (hfit : n ≤ p.pageTokens)
    (hfull : (p.requests s).residentTokens = (p.requests s).pageCount * p.pageTokens) :
    (grow s)^[n] p = p.pushFresh s (p.freeStack (p.freeLen - 1)) n := by
  obtain ⟨n, rfl⟩ := Nat.exists_eq_add_one.mpr hpos
  set k := p.freeStack (p.freeLen - 1) with hk
  have hfirst : grow s p = p.pushFresh s k 1 := by
    rw [grow, if_neg (by omega)]
  have htail : (p.pushFresh s k 1).tailId s = ⟨k, (p.pages k).generation⟩ := by
    rw [tailId, tail, pushFresh_requests_self]
    exact Function.update_self ..
  have hmul : ((p.requests s).pageCount + 1) * p.pageTokens =
      (p.requests s).pageCount * p.pageTokens + p.pageTokens := Nat.succ_mul ..
  rw [Function.iterate_succ_apply, hfirst, grow_iterate_tail n (by
    simp only [pushFresh_requests_self, pushFresh_pageTokens]
    omega), htail]
  simp only [pushFresh_requests_self, pushFresh_pages_self]
  rw [Nat.add_assoc, Nat.add_comm 1 n]
  exact resizeTail_pushFresh

/-! ### The helpers -/

theorem appendExistingPage_eq_ok {page : PageId} {written : ℕ}
    (h : p.appendExistingPage s page written = .ok p') :
    p' = p.resizeTail s page.index ((p.pages page.index).initializedTokens + written)
      ((p.requests s).residentTokens + written) := by
  simp only [appendExistingPage, pageAt, requestAt, plus, bind_assoc, bind_eq_ok, orPanic_eq_ok,
    checkedAdd_eq_some, pure_bind] at h
  obtain ⟨_, -, _, -, _, ⟨-, rfl⟩, _, ⟨-, rfl⟩, h⟩ := h
  exact (Except.ok.inj h).symm

theorem minus_eq_ok {a b c : ℕ} : minus a b = .ok c ↔ b ≤ a ∧ c = a - b := by
  rw [minus, orPanic_eq_ok, checkedSub]
  by_cases h : b ≤ a
  · simp [h, eq_comm]
  · simp [h]

theorem appendFreshPage_eq_ok {written : ℕ} (h : p.appendFreshPage s written = .ok p') :
    p' = p.pushFresh s (p.freeStack (p.freeLen - 1)) written := by
  rw [appendFreshPage] at h
  obtain ⟨index, hindex, h⟩ := bind_eq_ok.mp h
  obtain ⟨-, rfl⟩ := minus_eq_ok.mp hindex
  simp only [bind_eq_ok] at h
  obtain ⟨_, -, _, -, _, -, _, -, _, -, _, -, h⟩ := h
  exact (Except.ok.inj h).symm

/-- The loop over the pages to take. -/
theorem appendFreshPages_eq_ok {left remaining : ℕ}
    (h : appendFreshPages s left remaining p = .ok p') (hpt : 0 < p.pageTokens)
    (hfull : 0 < remaining →
      (p.requests s).residentTokens = (p.requests s).pageCount * p.pageTokens)
    (hcover : remaining ≤ left * p.pageTokens)
    (htight : left * p.pageTokens < remaining + p.pageTokens) : p' = (grow s)^[remaining] p := by
  induction left generalizing p remaining with
  | zero =>
    obtain rfl : remaining = 0 := by omega
    exact (Except.ok.inj h).symm
  | succ left ih =>
    have hmul : (left + 1) * p.pageTokens = left * p.pageTokens + p.pageTokens := Nat.succ_mul ..
    have hmul' : ((p.requests s).pageCount + 1) * p.pageTokens =
        (p.requests s).pageCount * p.pageTokens + p.pageTokens := Nat.succ_mul ..
    have hrem : 0 < remaining := by omega
    rw [appendFreshPages] at h
    obtain ⟨p₁, hp₁, h⟩ := bind_eq_ok.mp h
    have hwritten : p₁ = (grow s)^[min remaining p.pageTokens] p := by
      rw [appendFreshPage_eq_ok hp₁, grow_iterate_fresh (by omega) (by omega) (hfull hrem)]
    have hpt₁ : p₁.pageTokens = p.pageTokens := by
      rw [appendFreshPage_eq_ok hp₁]
      rfl
    have hrest := ih h (by rwa [hpt₁]) (fun hpos => by
        have hfull' := hfull hrem
        rw [hpt₁, appendFreshPage_eq_ok hp₁, pushFresh_requests_self]
        simp only
        omega)
      (by rw [hpt₁]; omega) (by rw [hpt₁]; omega)
    rw [hrest, hwritten, ← Function.iterate_add_apply, Nat.sub_add_cancel (min_le_left ..)]

end KvPool

variable {p p' : KvPool} {s : ℕ}

/-! ### The operation -/

theorem writeAppend_eq_ok {n capacity required : ℕ} (hpt : 0 < p.pageTokens)
    (hcap : capacity = (p.requests s).pageCount * p.pageTokens - (p.requests s).residentTokens)
    (hcovered : (p.requests s).residentTokens ≤ (p.requests s).pageCount * p.pageTokens)
    (htail : 0 < capacity → (p.requests s).tailPage = p.tailId s)
    (hrequired : required = (n - capacity) / p.pageTokens + min ((n - capacity) % p.pageTokens) 1)
    (h : (writeAppend s (p.requests s).tailPage n capacity required).exec p = (.ok (), p')) :
    p' = (grow s)^[n] p := by
  obtain ⟨hcover, htight⟩ := pages_cover (n := n - capacity) hpt
  rw [← hrequired] at hcover htight
  rw [writeAppend] at h
  simp only at h
  have hrest : n - min n capacity = n - capacity := by omega
  by_cases hwritten : min n capacity > 0
  · rw [if_pos hwritten] at h
    obtain ⟨p₁, hp₁, h⟩ := call_bind_eq_ok.mp h
    have htake := grow_iterate_tail (p := p) (s := s) (min n capacity) (by omega)
    have hfirst : p₁ = (grow s)^[min n capacity] p := by
      rw [htake, appendExistingPage_eq_ok hp₁, htail (by omega)]
    have hresident : (p₁.requests s).residentTokens =
        (p.requests s).residentTokens + min n capacity := by
      rw [hfirst, htake, resizeTail_requests_self]
    have hcount : (p₁.requests s).pageCount = (p.requests s).pageCount := by
      rw [hfirst, htake, resizeTail_requests_self]
    have hpt₁ : p₁.pageTokens = p.pageTokens := by
      rw [hfirst, htake]
      rfl
    rw [appendFreshPages_eq_ok (exec_call_eq_ok.mp h) (by rwa [hpt₁])
      (fun _ => by rw [hresident, hcount, hpt₁]; omega) (by rw [hpt₁]; omega)
      (by rw [hpt₁]; omega), hfirst, ← Function.iterate_add_apply,
      Nat.sub_add_cancel (min_le_left ..)]
  · rw [if_neg hwritten] at h
    have hzero : min n capacity = 0 := by omega
    rw [appendFreshPages_eq_ok (exec_call_eq_ok.mp h) hpt (fun _ => by omega) (by omega)
      (by omega), hzero, Nat.sub_zero]

theorem appendTentativeKey_eq_ok_of {request : RequestId} {n : ℕ} (hwf : p.WellFormed)
    (h : (appendTentativeKey request n).exec p = (.ok (), p')) :
    Appendable p request n ∧ p' = (grow request.slot)^[n] p := by
  obtain ⟨hl, happ⟩ := (appendTentativeKey_runs hwf request n).of_ok h
  have hcovered := (hwf.request _ hl.1).covered
  have hresident := (happ.wellFormed.request _ hl.1).resident_le
  rw [happ.resident, happ.evolves.geometry.2.1] at hresident
  obtain ⟨hcapacity, htail⟩ := tailCapacity_eq hwf rfl hl.1
  rw [appendTentativeKey] at h
  obtain ⟨_, hindex, h⟩ := query_bind_eq_ok.mp h
  obtain ⟨rfl, -⟩ := liveRequestIndex_ensures.of_ok hindex
  obtain ⟨_, hslot, h⟩ := query_bind_eq_ok.mp (get_bind_eq_ok.mp h)
  obtain rfl := Except.ok.inj ((requestAt_of_lt hl.1).symm.trans hslot)
  obtain ⟨_, -, h⟩ := query_bind_eq_ok.mp h
  obtain ⟨-, h⟩ := failIf_bind_eq_ok.mp h
  by_cases hn : n = 0
  · subst hn
    rw [if_pos rfl] at h
    cases h
    refine ⟨⟨hl, hresident, ?_⟩, rfl⟩
    rw [Nat.add_mul]
    omega
  rw [if_neg hn] at h
  obtain ⟨_, hcap, h⟩ := query_bind_eq_ok.mp h
  obtain rfl := Except.ok.inj (hcapacity.symm.trans hcap)
  obtain ⟨_, hrequired, h⟩ := query_bind_eq_ok.mp h
  obtain ⟨-, rfl⟩ := checkedAdd_eq_some.mp (orErr_eq_ok.mp hrequired)
  obtain ⟨_, -, h⟩ := query_bind_eq_ok.mp h
  obtain ⟨-, h⟩ := failIf_bind_eq_ok.mp h
  obtain ⟨hfree, h⟩ := failIf_bind_eq_ok.mp h
  obtain ⟨hcover, -⟩ := pages_cover (n := n - ((p.requests request.slot).pageCount *
    p.pageTokens - (p.requests request.slot).residentTokens)) hwf.geometry.pageTokens_pos
  have hmul := Nat.mul_le_mul_right p.pageTokens (not_lt.mp hfree)
  refine ⟨⟨hl, hresident, ?_⟩, writeAppend_eq_ok hwf.geometry.pageTokens_pos rfl hcovered
    (fun hpos => (htail hpos).2.1) rfl h⟩
  rw [Nat.add_mul]
  omega

/-- **When an append returns, and with what pool.** -/
theorem appendTentativeKey_eq_ok {request : RequestId} {n : ℕ} (hwf : p.WellFormed) :
    (appendTentativeKey request n).exec p = (.ok (), p') ↔
      Appendable p request n ∧ p' = (grow request.slot)^[n] p := by
  refine ⟨appendTentativeKey_eq_ok_of hwf, ?_⟩
  rintro ⟨happendable, rfl⟩
  rcases (appendTentativeKey_runs hwf request n).cases with ⟨_, p₁, hx, -⟩ | ⟨e, p₁, -, -, -, hnot⟩
  · rw [hx, (appendTentativeKey_eq_ok_of hwf hx).2]
  · exact absurd happendable hnot

end Cache

end Ferric
