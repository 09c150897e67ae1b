import Ferric.Cache.Growth
import Ferric.Cache.Identity

/-!
# Rejected tokens leave no trace

Tokens are appended before it is known which of them are accepted, and a finalization takes the
others back. Taking back undoes the last token exactly, up to the generation of the page if it was
the first one on it: the page is on top of the stack again, and the chain has an empty entry where
it was. So a longer append that ends in the same finalization differs in the generations of the
pages that only it took.

## Main results

* `finalizeTentativeKey_eq_ok` — when a finalization returns, and with what pool
* `rollBack_grow` — one token more is taken back
* `rejected_traceless` — any number of tokens more
-/

namespace Ferric

namespace Cache

open Spec Ferric.Action KvPool

/-! ### Finalizing, as a function -/

namespace KvPool

variable {p p' : KvPool} {s k : ℕ}

/-- Raise the committed tokens. -/
def commit (s committed : ℕ) (p : KvPool) : KvPool :=
  p.setRequest s { p.requests s with committedTokens := committed }

/-- The last page goes back on the stack. -/
def dropTail (s committed : ℕ) (p : KvPool) : KvPool :=
  (p.popTail s ((p.requests s).residentTokens -
    (p.pages (p.tailId s).index).initializedTokens) committed).recycle (p.tailId s).index
      ((p.pages (p.tailId s).index).generation + 1)

/-- The last page is cut back to the committed tokens. -/
def cutTail (s committed : ℕ) (p : KvPool) : KvPool :=
  if committed % p.pageTokens ≠ 0 then
    p.resizeTail s (p.tailId s).index (committed % p.pageTokens) committed
  else p

/-- The last pages go back on the stack, and the one before them is cut back. -/
def settle (s committed dropped : ℕ) (p : KvPool) : KvPool :=
  cutTail s committed ((dropTail s committed)^[dropped] p)

/-- What a finalization leaves. -/
def rollBack (s committed : ℕ) (p : KvPool) : KvPool :=
  settle s committed ((p.requests s).pageCount - p.retainedPages committed) (commit s committed p)

@[simp] theorem commit_requests_self {committed : ℕ} :
    (commit s committed p).requests s = { p.requests s with committedTokens := committed } :=
  setRequest_self

@[simp] theorem dropTail_requests_self {committed : ℕ} :
    (dropTail s committed p).requests s = { p.requests s with
      pages := Function.update (p.requests s).pages ((p.requests s).pageCount - 1) .empty
      pageCount := (p.requests s).pageCount - 1
      residentTokens := (p.requests s).residentTokens -
        (p.pages (p.tailId s).index).initializedTokens
      committedTokens := committed } := setRequest_self

theorem dropTail_iterate_count {committed : ℕ} (n : ℕ) :
    (((dropTail s committed)^[n] p).requests s).pageCount = (p.requests s).pageCount - n := by
  induction n with
  | zero => rfl
  | succ n ih =>
    rw [Function.iterate_succ_apply', dropTail_requests_self]
    simp only [ih]
    omega

theorem dropTail_iterate_entry {committed : ℕ} (n : ℕ) {i : ℕ}
    (hi : i + n < (p.requests s).pageCount) :
    (((dropTail s committed)^[n] p).requests s).pages i = (p.requests s).pages i := by
  induction n with
  | zero => rfl
  | succ n ih =>
    rw [Function.iterate_succ_apply', dropTail_requests_self]
    simp only [dropTail_iterate_count]
    rw [Function.update_of_ne (by omega), ih (by omega)]

theorem dropTail_iterate_pageTokens {committed : ℕ} (n : ℕ) :
    ((dropTail s committed)^[n] p).pageTokens = p.pageTokens := by
  induction n with
  | zero => rfl
  | succ n ih =>
    rw [Function.iterate_succ_apply']
    exact ih

theorem requestAt_eq_ok {request : RequestSlot} (h : p.requestAt s = .ok request) :
    request = p.requests s := by
  rw [requestAt] at h
  obtain ⟨_, -, h⟩ := bind_eq_ok.mp h
  exact (Except.ok.inj h).symm

theorem pageAt_eq_ok {slot : PageSlot} (h : p.pageAt k = .ok slot) : slot = p.pages k := by
  rw [pageAt] at h
  obtain ⟨_, -, h⟩ := bind_eq_ok.mp h
  exact (Except.ok.inj h).symm

theorem chainAt_eq_ok {i : ℕ} {page : PageId} (h : p.chainAt s i = .ok page) :
    page = (p.requests s).pages i := by
  rw [chainAt] at h
  obtain ⟨request, hrequest, h⟩ := bind_eq_ok.mp h
  obtain rfl := requestAt_eq_ok hrequest
  obtain ⟨_, -, h⟩ := bind_eq_ok.mp h
  exact (Except.ok.inj h).symm

theorem dropSoleTail_eq_ok {committed : ℕ}
    (h : p.dropSoleTail s (p.tailId s) committed = .ok p') : p' = dropTail s committed p := by
  rw [dropSoleTail] at h
  obtain ⟨request, hrequest, h⟩ := bind_eq_ok.mp h
  obtain rfl := requestAt_eq_ok hrequest
  obtain ⟨_, -, h⟩ := bind_eq_ok.mp h
  obtain ⟨slot, hslot, h⟩ := bind_eq_ok.mp h
  obtain rfl := pageAt_eq_ok hslot
  obtain ⟨_, hgeneration, h⟩ := bind_eq_ok.mp h
  obtain ⟨-, rfl⟩ := checkedAdd_eq_some.mp (orPanic_eq_ok.mp hgeneration)
  obtain ⟨_, hresident, h⟩ := bind_eq_ok.mp h
  obtain ⟨-, rfl⟩ := minus_eq_ok.mp hresident
  simp only [bind_eq_ok] at h
  obtain ⟨_, -, _, -, _, -, h⟩ := h
  exact (Except.ok.inj h).symm

theorem dropTails_eq_ok {committed retained left : ℕ}
    (h : dropTails s committed retained left p = .ok p')
    (hcount : (p.requests s).pageCount = retained + left) :
    p' = (dropTail s committed)^[left] p := by
  induction left generalizing p with
  | zero => exact (Except.ok.inj h).symm
  | succ left ih =>
    rw [dropTails] at h
    obtain ⟨page, hpage, h⟩ := bind_eq_ok.mp h
    obtain ⟨p₁, hp₁, h⟩ := bind_eq_ok.mp h
    have htail : page = p.tailId s := by
      rw [chainAt_eq_ok hpage, tailId, tail, hcount]
      rfl
    obtain rfl := dropSoleTail_eq_ok (htail ▸ hp₁)
    rw [ih h (by rw [dropTail_requests_self]; simp only; omega), Function.iterate_succ_apply]

end KvPool

variable {p p' : KvPool} {request : RequestId} {s k a : ℕ}

theorem writeFinalize_eq_ok {committed reclaim retained : ℕ}
    (hretained : retained = p.retainedPages committed)
    (hreclaim : reclaim = (p.requests s).pageCount - retained)
    (hle : retained ≤ (p.requests s).pageCount)
    (h : (writeFinalize s committed reclaim retained (committed % p.pageTokens)).exec p =
      (.ok (), p')) : p' = rollBack s committed p := by
  rw [writeFinalize] at h
  obtain ⟨p₁, hp₁, h⟩ := call_bind_eq_ok.mp h
  obtain ⟨p₂, hp₂, h⟩ := call_bind_eq_ok.mp h
  have hcommit : p₁ = commit s committed p := by
    rw [raiseCommitted] at hp₁
    obtain ⟨request, hrequest, hp₁⟩ := bind_eq_ok.mp hp₁
    obtain rfl := requestAt_eq_ok hrequest
    exact (Except.ok.inj hp₁).symm
  subst hcommit
  have hcount : ((commit s committed p).requests s).pageCount = retained + reclaim := by
    rw [commit_requests_self]
    simp only
    omega
  obtain rfl := dropTails_eq_ok hp₂ hcount
  rw [rollBack, settle, ← hretained, ← hreclaim, cutTail, dropTail_iterate_pageTokens]
  show p' = if committed % p.pageTokens ≠ 0 then _ else _
  by_cases htail : committed % p.pageTokens ≠ 0
  · rw [if_pos htail] at h ⊢
    obtain ⟨page, hpage, h⟩ := query_bind_eq_ok.mp h
    have hid : page = tailId ((dropTail s committed)^[reclaim] (commit s committed p)) s := by
      rw [chainAt_eq_ok hpage, tailId, tail, dropTail_iterate_count, hcount, Nat.add_sub_cancel]
    have hcut := exec_call_eq_ok.mp h
    rw [truncateWritableTail] at hcut
    obtain ⟨_, -, hcut⟩ := bind_eq_ok.mp hcut
    obtain ⟨_, -, hcut⟩ := bind_eq_ok.mp hcut
    rw [← hid]
    exact (Except.ok.inj hcut).symm
  · rw [if_neg htail] at h ⊢
    cases h
    rfl

theorem finalizeTentativeKey_eq_ok_of (hwf : p.WellFormed)
    (h : (finalizeTentativeKey request a).exec p = (.ok (), p')) :
    Finalizable p request a ∧
      p' = rollBack request.slot ((p.requests request.slot).committedTokens + a) p := by
  obtain ⟨hfinalizable, -⟩ := (finalizeTentativeKey_runs_iff hwf request a).of_ok h
  refine ⟨hfinalizable, ?_⟩
  rw [finalizeTentativeKey] at h
  obtain ⟨_, hindex, h⟩ := query_bind_eq_ok.mp h
  obtain ⟨rfl, -⟩ := liveRequestIndex_ensures.of_ok hindex
  obtain ⟨_, hslot, h⟩ := query_bind_eq_ok.mp (get_bind_eq_ok.mp h)
  obtain rfl := Except.ok.inj ((requestAt_of_lt hfinalizable.live.1).symm.trans hslot)
  obtain ⟨_, hcommitted, h⟩ := query_bind_eq_ok.mp h
  obtain ⟨-, rfl⟩ := checkedAdd_eq_some.mp (orErr_eq_ok.mp hcommitted)
  obtain ⟨-, h⟩ := failIf_bind_eq_ok.mp h
  obtain ⟨_, hretained, h⟩ := query_bind_eq_ok.mp h
  obtain ⟨-, rfl⟩ := checkedAdd_eq_some.mp (orPanic_eq_ok.mp hretained)
  obtain ⟨_, hreclaim, h⟩ := query_bind_eq_ok.mp h
  obtain ⟨hle, rfl⟩ := minus_eq_ok.mp hreclaim
  obtain ⟨_, -, h⟩ := query_bind_eq_ok.mp h
  obtain ⟨_, -, h⟩ := query_bind_eq_ok.mp h
  exact writeFinalize_eq_ok rfl rfl hle h

/-- **When a finalization returns, and with what pool.** -/
theorem finalizeTentativeKey_eq_ok (hwf : p.WellFormed) :
    (finalizeTentativeKey request a).exec p = (.ok (), p') ↔ Finalizable p request a ∧
      p' = rollBack request.slot ((p.requests request.slot).committedTokens + a) p := by
  refine ⟨finalizeTentativeKey_eq_ok_of hwf, ?_⟩
  rintro ⟨hfinalizable, rfl⟩
  rcases (finalizeTentativeKey_runs_iff hwf request a).cases with
    ⟨_, p₁, hx, -⟩ | ⟨e, p₁, -, -, -, hnot⟩
  · rw [hx, (finalizeTentativeKey_eq_ok_of hwf hx).2]
  · exact absurd hfinalizable hnot

/-! ### Taking one token back -/

namespace KvPool

variable {p p' : KvPool} {s k : ℕ}

/-- Beyond its pages, the table of a request is empty. -/
def Clean (p : KvPool) : Prop :=
  ∀ s i, (p.requests s).pageCount ≤ i → (p.requests s).pages i = .empty

/-- The pool with the given pages one generation on. -/
def aged (pages : List ℕ) (p : KvPool) : KvPool :=
  { p with pages := fun k =>
      if k ∈ pages then { p.pages k with generation := (p.pages k).generation + 1 }
      else p.pages k }

@[simp] theorem aged_nil : aged [] p = p := by
  simp [aged]

theorem Clean.setRequest {q : RequestSlot} (h : p.Clean) (hpages : q.pages = (p.requests s).pages)
    (hcount : q.pageCount = (p.requests s).pageCount) : (p.setRequest s q).Clean := by
  intro j i hi
  by_cases hj : j = s
  · subst hj
    rw [setRequest_self] at hi ⊢
    rw [hcount] at hi
    rw [hpages]
    exact h j i hi
  · rw [setRequest_of_ne hj] at hi ⊢
    exact h j i hi

theorem aged_of_mem {l : List ℕ} (h : k ∈ l) :
    (aged l p).pages k = { p.pages k with generation := (p.pages k).generation + 1 } := if_pos h

theorem aged_of_not_mem {l : List ℕ} (h : k ∉ l) : (aged l p).pages k = p.pages k := if_neg h

theorem ext_fields (hg : SameGeometry p p') (hpages : p'.pages = p.pages)
    (hstack : p'.freeStack = p.freeStack) (hlen : p'.freeLen = p.freeLen)
    (hbitmap : p'.freeBitmap = p.freeBitmap) (hrequests : p'.requests = p.requests) : p' = p := by
  obtain ⟨h1, h2, h3⟩ := hg
  cases p
  cases p'
  subst h1 h2 h3 hpages hstack hlen hbitmap hrequests
  rfl

theorem ext_pages (h : { p' with pages := p.pages } = p) (hpages : p'.pages = p.pages) :
    p' = p := by
  rw [← h, ← hpages]

theorem aged_aged {l l' : List ℕ} (h : ∀ k ∈ l', k ∉ l) :
    aged l' (aged l p) = aged (l ++ l') p := by
  refine ext_pages rfl (funext fun k => ?_)
  by_cases hk : k ∈ l'
  · rw [aged_of_mem hk, aged_of_not_mem (h k hk), aged_of_mem (List.mem_append_right l hk)]
  · rw [aged_of_not_mem hk]
    by_cases hl : k ∈ l
    · rw [aged_of_mem hl, aged_of_mem (List.mem_append_left l' hl)]
    · rw [aged_of_not_mem hl, aged_of_not_mem (by simp [hk, hl])]

theorem commit_grow {committed : ℕ} :
    commit s committed (grow s p) = grow s (commit s committed p) := by
  rw [grow, grow]
  simp only [commit_requests_self]
  show _ = if (p.requests s).residentTokens < (p.requests s).pageCount * p.pageTokens then _ else _
  have htail : (commit s committed p).tailId s = p.tailId s := by
    simp only [tailId, tail, commit_requests_self]
  by_cases h : (p.requests s).residentTokens < (p.requests s).pageCount * p.pageTokens
  · rw [if_pos h, if_pos h, htail]
    simp only [commit, resizeTail, setRequest, setPage, Function.update_self, Function.update_idem]
  · rw [if_neg h, if_neg h]
    simp only [commit, pushFresh, setRequest, setPage, Function.update_self, Function.update_idem]

/-- Dropping a page does not depend on how much of it is initialized. -/
theorem dropTail_resizeTail {committed : ℕ} :
    dropTail s committed (p.resizeTail s (p.tailId s).index
      ((p.pages (p.tailId s).index).initializedTokens + 1)
      ((p.requests s).residentTokens + 1)) = dropTail s committed p := by
  have htail : (p.resizeTail s (p.tailId s).index
      ((p.pages (p.tailId s).index).initializedTokens + 1)
      ((p.requests s).residentTokens + 1)).tailId s = p.tailId s := by
    simp only [tailId, tail, resizeTail_requests_self]
  rw [dropTail, dropTail, htail, resizeTail_requests_self, resizeTail_pages_self]
  simp only [Nat.add_sub_add_right, popTail, recycle, resizeTail, setRequest, setPage,
    Function.update_self, Function.update_idem]

/-- A page that is taken and dropped is on top of the stack again, one generation on. -/
theorem dropTail_pushFresh {committed : ℕ} (hwf : p.WellFormed) (hclean : p.Clean)
    (hfree : 0 < p.freeLen) (hk : p.freeStack (p.freeLen - 1) = k)
    (hcommitted : (p.requests s).committedTokens = committed) :
    dropTail s committed (p.pushFresh s k 1) = aged [k] p := by
  obtain ⟨hlimit, hstate, hmask, -⟩ := hwf.top_free hfree hk
  have hbit := ((hwf.page k hlimit).bitmap.mp hstate)
  have hinit := ((hwf.page k hlimit).of_free hstate).1
  have hslot : { PageSlot.free with generation := (p.pages k).generation + 1 } =
      { p.pages k with generation := (p.pages k).generation + 1 } := by
    rw [PageSlot.free, ← hstate, ← hmask, ← hinit]
  have htail : (p.pushFresh s k 1).tailId s = ⟨k, (p.pages k).generation⟩ := by
    rw [tailId, tail, pushFresh_requests_self]
    exact Function.update_self ..
  have hrequest : { (p.pushFresh s k 1).requests s with
      pages := Function.update ((p.pushFresh s k 1).requests s).pages
        (p.requests s).pageCount .empty
      pageCount := (p.requests s).pageCount
      residentTokens := (p.requests s).residentTokens
      committedTokens := committed } = p.requests s := by
    rw [pushFresh_requests_self, ← hcommitted]
    simp only [Function.update_idem]
    rw [← hclean s _ le_rfl, Function.update_eq_self]
  rw [dropTail, htail, pushFresh_requests_self, pushFresh_pages_self]
  simp only [Nat.add_sub_cancel]
  refine ext_fields ⟨rfl, rfl, rfl⟩ (funext fun m => ?_) ?_ (Nat.sub_add_cancel hfree) ?_
    (funext fun j => ?_)
  · by_cases hm : m = k
    · subst hm
      rw [aged_of_mem (List.mem_singleton_self m)]
      exact (setPage_self ..).trans hslot
    · rw [aged_of_not_mem (by simpa using hm)]
      exact (setPage_of_ne hm).trans (setPage_of_ne hm)
  · show Function.update p.freeStack (p.freeLen - 1) k = p.freeStack
    rw [← hk, Function.update_eq_self]
  · show Function.update (Function.update p.freeBitmap k false) k true = p.freeBitmap
    rw [Function.update_idem, ← hbit, Function.update_eq_self]
  · by_cases hj : j = s
    · subst hj
      refine (setRequest_self ..).trans ?_
      rw [pushFresh_requests_self] at hrequest ⊢
      exact hrequest
    · exact (setRequest_of_ne hj).trans (setRequest_of_ne hj)

/-- Dropping a page and ageing others commute. -/
theorem dropTail_aged {committed : ℕ} {l : List ℕ} (h : (p.tailId s).index ∉ l) :
    dropTail s committed (aged l p) = aged l (dropTail s committed p) := by
  have htail : (aged l p).tailId s = p.tailId s := rfl
  rw [dropTail, htail, aged_of_not_mem h]
  refine ext_pages rfl (funext fun m => ?_)
  by_cases hm : m = (p.tailId s).index
  · subst hm
    rw [aged_of_not_mem h]
    exact (setPage_self ..).trans (setPage_self ..).symm
  · by_cases hl : m ∈ l
    · rw [aged_of_mem hl]
      refine (setPage_of_ne hm).trans ((aged_of_mem hl).trans ?_)
      rw [show (dropTail s committed p).pages m = p.pages m from setPage_of_ne hm]
    · rw [aged_of_not_mem hl]
      exact (setPage_of_ne hm).trans ((aged_of_not_mem hl).trans (setPage_of_ne hm).symm)

theorem dropTail_iterate_aged {committed : ℕ} {l : List ℕ} (n : ℕ)
    (hn : n ≤ (p.requests s).pageCount)
    (h : ∀ i < (p.requests s).pageCount, ((p.requests s).pages i).index ∉ l) :
    (dropTail s committed)^[n] (aged l p) = aged l ((dropTail s committed)^[n] p) := by
  induction n generalizing p with
  | zero => rfl
  | succ n ih =>
    have htail : p.tail s < (p.requests s).pageCount := Nat.sub_lt (by omega) Nat.one_pos
    rw [Function.iterate_succ_apply, dropTail_aged (h _ htail), Function.iterate_succ_apply]
    refine ih (by rw [dropTail_requests_self]; simp only; omega) fun i hi => ?_
    rw [dropTail_requests_self] at hi ⊢
    simp only at hi ⊢
    rw [Function.update_of_ne hi.ne]
    exact h i (by omega)

theorem cutTail_aged {committed : ℕ} {l : List ℕ}
    (h : committed % p.pageTokens ≠ 0 → (p.tailId s).index ∉ l) :
    cutTail s committed (aged l p) = aged l (cutTail s committed p) := by
  rw [cutTail, cutTail]
  by_cases hcut : committed % p.pageTokens ≠ 0
  · have hnot := h hcut
    rw [if_pos hcut]
    show (if committed % p.pageTokens ≠ 0 then _ else _) = _
    rw [if_pos hcut]
    refine ext_pages rfl (funext fun m => ?_)
    by_cases hm : m = (p.tailId s).index
    · subst hm
      rw [aged_of_not_mem hnot, resizeTail_pages_self]
      refine (setPage_self ..).trans ?_
      rw [show ((aged l p).tailId s).index = (p.tailId s).index from rfl, aged_of_not_mem hnot]
      rfl
    · by_cases hl : m ∈ l
      · rw [aged_of_mem hl]
        refine (setPage_of_ne hm).trans ((aged_of_mem hl).trans ?_)
        rw [show (p.resizeTail s (p.tailId s).index (committed % p.pageTokens) committed).pages m =
          p.pages m from setPage_of_ne hm]
      · rw [aged_of_not_mem hl]
        exact (setPage_of_ne hm).trans ((aged_of_not_mem hl).trans (setPage_of_ne hm).symm)
  · rw [if_neg hcut]
    show (if committed % p.pageTokens ≠ 0 then _ else _) = _
    rw [if_neg hcut]

/-- A token on the last page: the page is dropped, or it is cut back. -/
theorem settle_grow_tail {committed n : ℕ}
    (hroom : (p.requests s).residentTokens < (p.requests s).pageCount * p.pageTokens)
    (hcut : n = 0 → committed % p.pageTokens ≠ 0) :
    settle s committed n (grow s p) = settle s committed n p := by
  have hgrow : grow s p = p.resizeTail s (p.tailId s).index
      ((p.pages (p.tailId s).index).initializedTokens + 1)
      ((p.requests s).residentTokens + 1) := by
    rw [grow, if_pos hroom]
  cases n with
  | zero =>
    have hid : (grow s p).tailId s = p.tailId s := by
      rw [hgrow]
      simp only [tailId, tail, resizeTail_requests_self]
    have hpt : (grow s p).pageTokens = p.pageTokens := by
      rw [hgrow]
      rfl
    rw [settle, settle, Function.iterate_zero, id_eq, id_eq, cutTail, cutTail, hpt,
      if_pos (hcut rfl), if_pos (hcut rfl), hid, hgrow, resizeTail_resizeTail]
  | succ n =>
    rw [settle, settle, Function.iterate_succ_apply, Function.iterate_succ_apply, hgrow,
      dropTail_resizeTail]

/-- A token on a page of its own: the page is dropped. -/
theorem settle_grow_fresh {committed n : ℕ} (hwf : p.WellFormed) (hclean : p.Clean)
    (hs : s < maxRequestSlots) (hfree : 0 < p.freeLen)
    (hroom : ¬ (p.requests s).residentTokens < (p.requests s).pageCount * p.pageTokens)
    (hcommitted : (p.requests s).committedTokens = committed)
    (hn : n ≤ (p.requests s).pageCount)
    (hcut : committed % p.pageTokens ≠ 0 → n < (p.requests s).pageCount) :
    settle s committed (n + 1) (grow s p) =
      aged [p.freeStack (p.freeLen - 1)] (settle s committed n p) := by
  have hchain : ∀ i < (p.requests s).pageCount,
      ((p.requests s).pages i).index ∉ [p.freeStack (p.freeLen - 1)] := by
    intro i hi hmem
    obtain ⟨-, -, -, hnone⟩ := hwf.top_free hfree rfl
    exact hnone s hs ⟨i, hi, List.mem_singleton.mp hmem⟩
  rw [settle, settle, Function.iterate_succ_apply, grow, if_neg hroom,
    dropTail_pushFresh hwf hclean hfree rfl hcommitted, dropTail_iterate_aged n hn hchain]
  refine cutTail_aged fun htail => ?_
  rw [dropTail_iterate_pageTokens] at htail
  have hlt := hcut htail
  rw [tailId, tail, dropTail_iterate_count, dropTail_iterate_entry n (by omega)]
  exact hchain _ (by omega)

end KvPool

variable {p p' : KvPool} {request : RequestId} {n m a t : ℕ}

/-- The pages that one more token takes. -/
def takenPages (p : KvPool) (s : ℕ) : List ℕ :=
  if (p.requests s).residentTokens < (p.requests s).pageCount * p.pageTokens then []
  else [p.freeStack (p.freeLen - 1)]

/-- The pages that are kept for tokens of the chain are in the chain. -/
theorem retainedPages_le (hwf : p.WellFormed) {s : ℕ} (hs : s < maxRequestSlots)
    (ht : t ≤ (p.requests s).residentTokens) : p.retainedPages t ≤ (p.requests s).pageCount := by
  obtain ⟨-, htight⟩ := pages_cover (n := t) hwf.geometry.pageTokens_pos
  have hcovered := (hwf.request s hs).covered
  by_contra hlt
  have hmul := Nat.mul_le_mul_right p.pageTokens (Nat.succ_le_of_lt (not_le.mp hlt))
  rw [Nat.succ_mul, KvPool.retainedPages] at hmul
  omega

/-- A full chain takes its next page from the stack. -/
theorem Appendable.freeLen_pos (happ : Appendable p request 1)
    (hfull : ¬ (p.requests request.slot).residentTokens <
      (p.requests request.slot).pageCount * p.pageTokens) : 0 < p.freeLen := by
  have hroom := happ.room
  rw [Nat.add_mul] at hroom
  rcases Nat.eq_zero_or_pos p.freeLen with hzero | hpos
  · rw [hzero] at hroom
    omega
  · exact hpos

/-- **One token is taken back.** What is finalized does not show it, but the page it took is one
generation on. -/
theorem rollBack_grow (hwf : p.WellFormed) (hclean : p.Clean) (happ : Appendable p request 1)
    (hc : (p.requests request.slot).committedTokens ≤ t)
    (ht : t ≤ (p.requests request.slot).residentTokens) :
    rollBack request.slot t (grow request.slot p) =
      aged (takenPages p request.slot) (rollBack request.slot t p) := by
  have hfree := happ.freeLen_pos
  set s := request.slot with hs
  have hslot : s < maxRequestSlots := happ.live.1
  obtain ⟨-, -, -, -, h5, h6, h7⟩ := hwf.request s hslot
  have hretained := retainedPages_le hwf hslot ht
  have hdiv := Nat.div_add_mod t p.pageTokens
  rw [rollBack, rollBack, commit_grow]
  set u := commit s t p with hu
  have hreq : u.requests s = { p.requests s with committedTokens := t } := commit_requests_self
  have hwfu : u.WellFormed := hwf.setNumbers hslot rfl rfl rfl hc ht h5 h6 h7
  by_cases hroom : (p.requests s).residentTokens < (p.requests s).pageCount * p.pageTokens
  · have hcount : ((grow s p).requests s).pageCount = (p.requests s).pageCount := by
      rw [grow, if_pos hroom, resizeTail_requests_self]
    have hpages : (grow s p).retainedPages t = p.retainedPages t := by
      rw [grow, if_pos hroom]
      rfl
    rw [hcount, hpages, takenPages, if_pos hroom, aged_nil]
    refine settle_grow_tail (by rw [hreq]; exact hroom) fun hzero hmod => ?_
    -- all pages are kept, and the tokens fill them
    have hmod : t % p.pageTokens = 0 := hmod
    rw [KvPool.retainedPages, hmod] at hzero hretained
    have hle : (p.requests s).pageCount = t / p.pageTokens := by omega
    rw [hle, Nat.mul_comm] at hroom
    omega
  · have hcount : ((grow s p).requests s).pageCount = (p.requests s).pageCount + 1 := by
      rw [grow, if_neg hroom, pushFresh_requests_self]
    have hpages : (grow s p).retainedPages t = p.retainedPages t := by
      rw [grow, if_neg hroom]
      rfl
    rw [hcount, hpages, takenPages, if_neg hroom, Nat.sub_add_comm hretained]
    refine settle_grow_fresh hwfu (hclean.setRequest rfl rfl) hslot (hfree hroom)
      (by rw [hreq]; exact hroom) (by rw [hreq]) (by rw [hreq]; exact Nat.sub_le ..) fun hmod => ?_
    have hmod : t % p.pageTokens ≠ 0 := hmod
    have hkept : 0 < p.retainedPages t :=
      (lt_min (Nat.pos_of_ne_zero hmod) Nat.one_pos).trans_le (Nat.le_add_left ..)
    rw [hreq]
    exact Nat.sub_lt (hkept.trans_le hretained) hkept

/-! ### Any number of tokens -/

/-- What one more token does, as far as the next one depends on it. -/
theorem grow_spec (hwf : p.WellFormed) (happ : Appendable p request 1) :
    Appended request.slot 1 p (grow request.slot p) ∧
      ((grow request.slot p).requests request.slot).pageCount + (grow request.slot p).freeLen =
        (p.requests request.slot).pageCount + p.freeLen := by
  have hfree := happ.freeLen_pos
  have hx := (appendTentativeKey_eq_ok hwf).mpr ⟨happ, rfl⟩
  refine ⟨((appendTentativeKey_runs hwf request 1).of_ok hx).2, ?_⟩
  rw [grow]
  by_cases hroom : (p.requests request.slot).residentTokens <
      (p.requests request.slot).pageCount * p.pageTokens
  · rw [if_pos hroom, resizeTail_requests_self]
    rfl
  · rw [if_neg hroom, pushFresh_requests_self]
    have hpos := hfree hroom
    show (p.requests request.slot).pageCount + 1 + (p.freeLen - 1) = _
    omega

theorem Appendable.mono (happ : Appendable p request n) (h : m ≤ n) : Appendable p request m :=
  ⟨happ.live, (Nat.add_le_add_left h _).trans happ.context,
    (Nat.add_le_add_left h _).trans happ.room⟩

theorem live_of_appended (hl : p.Live request) (happ : Appended request.slot n p p') :
    p'.Live request :=
  ⟨hl.1, happ.live.trans hl.2.1, happ.generation.trans hl.2.2⟩

/-- After one token, one token less can be appended. -/
theorem Appendable.grow (hwf : p.WellFormed) (happ : Appendable p request (n + 1)) :
    Appendable (grow request.slot p) request n := by
  obtain ⟨happended, hsum⟩ := grow_spec hwf (happ.mono (Nat.le_add_left ..))
  refine ⟨live_of_appended happ.live happended, ?_, ?_⟩
  · rw [happended.resident, happended.evolves.geometry.2.1, Nat.add_assoc, Nat.add_comm 1 n]
    exact happ.context
  · rw [happended.resident, happended.evolves.geometry.1, hsum, Nat.add_assoc, Nat.add_comm 1 n]
    exact happ.room

theorem clean_grow (hclean : p.Clean) (s : ℕ) : (grow s p).Clean := by
  rw [grow]
  by_cases hroom : (p.requests s).residentTokens < (p.requests s).pageCount * p.pageTokens
  · rw [if_pos hroom]
    exact Clean.setRequest (p := p.setPage _ _) hclean rfl rfl
  · rw [if_neg hroom]
    intro j i hi
    by_cases hj : j = s
    · subst hj
      rw [pushFresh_requests_self] at hi ⊢
      exact (Function.update_of_ne (Nat.ne_of_lt hi).symm ..).trans
        (hclean j i (Nat.le_of_succ_le hi))
    · rw [show (p.pushFresh s _ 1).requests j = p.requests j from setRequest_of_ne hj] at hi ⊢
      exact hclean j i hi

theorem clean_grow_iterate (hclean : p.Clean) (s n : ℕ) : ((grow s)^[n] p).Clean := by
  induction n with
  | zero => exact hclean
  | succ n ih =>
    rw [Function.iterate_succ_apply']
    exact clean_grow ih s

theorem Appendable.iterate (hwf : p.WellFormed) (happ : Appendable p request (n + m)) :
    Appended request.slot n p ((KvPool.grow request.slot)^[n] p) ∧
      Appendable ((KvPool.grow request.slot)^[n] p) request m := by
  have hx := (appendTentativeKey_eq_ok hwf).mpr ⟨happ.mono (Nat.le_add_right n m), rfl⟩
  refine ⟨((appendTentativeKey_runs hwf request n).of_ok hx).2, ?_⟩
  clear hx
  induction n generalizing p with
  | zero => exact (Nat.zero_add m) ▸ happ
  | succ n ih =>
    rw [Nat.add_right_comm] at happ
    exact ih (grow_spec hwf (happ.mono (Nat.le_add_left ..))).1.wellFormed (happ.grow hwf)

/-- What one more token takes is at the end of the chain. -/
theorem chain_grow (s : ℕ) :
    ((grow s p).chain s).map PageId.index = (p.chain s).map PageId.index ++ takenPages p s := by
  rw [grow, takenPages, KvPool.chain]
  by_cases hroom : (p.requests s).residentTokens < (p.requests s).pageCount * p.pageTokens
  · rw [if_pos hroom, if_pos hroom, resizeTail_requests_self, List.append_nil]
    rfl
  · rw [if_neg hroom, if_neg hroom, pushFresh_requests_self]
    simp only [KvPool.chain, List.range_succ, List.map_append, List.map_map, List.map_cons,
      List.map_nil, Function.update_self]
    congr 1
    refine List.map_congr_left fun i hi => ?_
    have hne : i ≠ (p.requests s).pageCount := (List.mem_range.mp hi).ne
    simp only [Function.comp_apply, Function.update_of_ne hne]

theorem length_chain (s : ℕ) : (p.chain s).length = (p.requests s).pageCount := by
  rw [KvPool.chain, List.length_map, List.length_range]

/-- **Any number of tokens is taken back.** -/
theorem rollBack_iterate (hwf : p.WellFormed) (hclean : p.Clean) (happ : Appendable p request n)
    (hc : (p.requests request.slot).committedTokens ≤ t)
    (ht : t ≤ (p.requests request.slot).residentTokens) :
    rollBack request.slot t ((grow request.slot)^[n] p) =
      aged ((freshPages p ((grow request.slot)^[n] p) request.slot).map PageId.index)
        (rollBack request.slot t p) := by
  set s := request.slot with hs
  induction n with
  | zero =>
    have hnone : freshPages p p s = [] := by
      rw [freshPages, ← length_chain, List.drop_length]
    rw [Function.iterate_zero, id_eq, hnone, List.map_nil, aged_nil]
  | succ n ih =>
    obtain ⟨happended, hnext⟩ := happ.iterate hwf
    rw [← hs] at happended hnext
    set q := (grow s)^[n] p with hq
    have hresident := happended.resident
    have hlen : (p.requests s).pageCount ≤ ((q.chain s).map PageId.index).length := by
      rw [List.length_map, length_chain]
      exact happended.count_le
    have hchain : (freshPages p (grow s q) s).map PageId.index =
        (freshPages p q s).map PageId.index ++ takenPages q s := by
      rw [freshPages, freshPages, List.map_drop, List.map_drop, chain_grow,
        List.drop_append_of_le_length hlen]
    have hdisjoint : ∀ k ∈ takenPages q s, k ∉ (freshPages p q s).map PageId.index := by
      intro k hk hmem
      rw [takenPages] at hk
      split at hk
      · exact absurd hk List.not_mem_nil
      · next hroom =>
        obtain ⟨-, -, -, hnone⟩ := happended.wellFormed.top_free (hnext.freeLen_pos hroom)
          (List.mem_singleton.mp hk).symm
        refine hnone s happ.live.1 (mem_chain_index.mp ?_)
        rw [freshPages, List.map_drop] at hmem
        exact List.mem_of_mem_drop hmem
    rw [Function.iterate_succ_apply', ← hq, rollBack_grow happended.wellFormed
      (clean_grow_iterate hclean s n) hnext (by rw [← hs, happended.committed]; exact hc)
      (by rw [← hs, hresident]; omega), ← hs, ih (happ.mono (Nat.le_succ n)), hchain,
      aged_aged hdisjoint]

/-! ### Reachable pools -/

theorem clean_popTail (hclean : p.Clean) (s resident committed : ℕ) :
    (p.popTail s resident committed).Clean := by
  intro j i hi
  by_cases hj : j = s
  · subst hj
    rw [KvPool.popTail, setRequest_self] at hi ⊢
    by_cases hlast : i = (p.requests j).pageCount - 1
    · rw [hlast]
      exact Function.update_self ..
    · refine (Function.update_of_ne hlast ..).trans (hclean j i ?_)
      change (p.requests j).pageCount - 1 ≤ i at hi
      omega
  · rw [show (p.popTail s resident committed).requests j = p.requests j from
      setRequest_of_ne hj] at hi ⊢
    exact hclean j i hi

theorem clean_rollBack (hclean : p.Clean) (s committed : ℕ) : (rollBack s committed p).Clean := by
  rw [rollBack, settle]
  generalize (p.requests s).pageCount - p.retainedPages committed = n
  have hcommit : (commit s committed p).Clean := hclean.setRequest rfl rfl
  have hdrop : ((dropTail s committed)^[n] (commit s committed p)).Clean := by
    induction n with
    | zero => exact hcommit
    | succ n ih =>
      rw [Function.iterate_succ_apply']
      exact clean_popTail ih s _ committed
  rw [cutTail]
  split
  · exact Clean.setRequest (p := KvPool.setPage _ _ _) hdrop rfl rfl
  · exact hdrop

/-- A page taken over goes to the first empty entry. -/
theorem clean_shareNextPage {s target position : ℕ} (hclean : p.Clean)
    (hcount : (p.requests target).pageCount = position)
    (h : p.shareNextPage s target position = .ok p') : p'.Clean := by
  have hshared : ∀ page state, (p.pushShared target position page state).Clean := by
    intro page state j i hi
    by_cases hj : j = target
    · subst hj
      rw [KvPool.pushShared, setRequest_self] at hi ⊢
      change (p.requests j).pageCount + 1 ≤ i at hi
      exact (Function.update_of_ne (by omega) ..).trans (hclean j i (by omega))
    · rw [show (p.pushShared target position page state).requests j = p.requests j from
        setRequest_of_ne hj] at hi ⊢
      exact hclean j i hi
  rw [shareNextPage] at h
  simp only [bind_eq_ok] at h
  obtain ⟨page, -, slot, -, _, -, _, -, _, -, _, -, h⟩ := h
  split at h <;> exact Except.ok.inj h ▸ hshared _ _

theorem clean_sharePages {s target n : ℕ} (hwf : p.WellFormed) (hclean : p.Clean)
    (hs : s < maxRequestSlots) (ht : target < maxRequestSlots) (hne : s ≠ target)
    (hlive : (p.requests target).live = true) (hempty : (p.requests target).residentTokens = 0)
    (hcommit : n * p.pageTokens ≤ (p.requests s).committedTokens)
    (h : p.sharePages s target n = .ok p') : p'.Clean := by
  induction n generalizing p' with
  | zero => exact Except.ok.inj h ▸ hclean
  | succ n ih =>
    have hcommit' := le_trans (Nat.mul_le_mul_right p.pageTokens (Nat.le_succ n)) hcommit
    obtain ⟨p₁, hp₁, hshared⟩ := sharePages_eq hwf hs ht hne hlive hempty hcommit'
    rw [sharePages, List.range_succ, List.foldlM_append] at h
    obtain ⟨p₂, hp₂, h⟩ := bind_eq_ok.mp h
    obtain rfl : p₁ = p₂ := Except.ok.inj (hp₁.symm.trans hp₂)
    rw [List.foldlM_cons] at h
    obtain ⟨p₃, hp₃, h⟩ := bind_eq_ok.mp h
    exact Except.ok.inj h ▸ clean_shareNextPage (ih hcommit' hp₁) hshared.count hp₃

theorem clean_releaseTail {s remaining : ℕ} (hclean : p.Clean)
    (h : p.releaseTail request s remaining = .ok p') : p'.Clean := by
  rw [releaseTail] at h
  simp only [bind_eq_ok] at h
  obtain ⟨_, -, page, -, _, -, _, -, _, -, shared, -, h⟩ := h
  split at h
  · rw [detachSharedTail] at h
    simp only [bind_eq_ok] at h
    obtain ⟨_, -, _, -, _, -, _, -, _, -, h⟩ := h
    exact Except.ok.inj h ▸ clean_popTail hclean _ _ _
  · rw [dropSoleTail] at h
    simp only [bind_eq_ok] at h
    obtain ⟨_, -, _, -, _, -, _, -, _, -, _, -, _, -, _, -, h⟩ := h
    exact Except.ok.inj h ▸ clean_popTail hclean _ _ _

theorem clean_releaseTails {s remaining : ℕ} (hclean : p.Clean)
    (h : releaseTails request s remaining p = .ok p') : p'.Clean := by
  induction remaining generalizing p with
  | zero => exact Except.ok.inj h ▸ hclean
  | succ remaining ih =>
    rw [releaseTails] at h
    obtain ⟨p₁, hp₁, h⟩ := bind_eq_ok.mp h
    exact ih (clean_releaseTail hclean hp₁) h

/-- **Step lemma.** -/
theorem Op.clean {op : Op} (hwf : p.WellFormed) (hclean : p.Clean)
    (h : op.run.exec p = (.ok (), p')) : p'.Clean := by
  have heff := (Op.runs hwf op).of_ok h
  cases op with
  | create request =>
    rw [Op.run, createRequestKey] at h
    obtain ⟨-, h⟩ := failIf_bind_eq_ok.mp h
    obtain ⟨_, hslot, h⟩ := query_bind_eq_ok.mp h
    obtain rfl := requestAt_eq_ok hslot
    obtain ⟨-, h⟩ := failIf_bind_eq_ok.mp h
    obtain ⟨-, h⟩ := failIf_bind_eq_ok.mp h
    cases h
    exact hclean.setRequest rfl rfl
  | append request n =>
    rw [((appendTentativeKey_eq_ok hwf).mp h).2]
    exact clean_grow_iterate hclean request.slot n
  | share source target n =>
    obtain ⟨hsharable, -⟩ := heff
    rw [Op.run, shareCommittedPrefixKey] at h
    obtain ⟨_, hsource, h⟩ := query_bind_eq_ok.mp h
    obtain ⟨rfl, -⟩ := liveRequestIndex_ensures.of_ok hsource
    obtain ⟨_, htarget, h⟩ := query_bind_eq_ok.mp h
    obtain ⟨rfl, -⟩ := liveRequestIndex_ensures.of_ok htarget
    obtain ⟨-, h⟩ := failIf_bind_eq_ok.mp h
    obtain ⟨-, h⟩ := failIf_bind_eq_ok.mp (get_bind_eq_ok.mp h)
    obtain ⟨_, -, h⟩ := query_bind_eq_ok.mp h
    obtain ⟨-, h⟩ := failIf_bind_eq_ok.mp h
    obtain ⟨_, -, h⟩ := query_bind_eq_ok.mp h
    obtain ⟨-, h⟩ := failIf_bind_eq_ok.mp h
    obtain ⟨-, h⟩ := failIf_bind_eq_ok.mp h
    exact clean_sharePages hwf hclean hsharable.source_live.1 hsharable.target_live.1 hsharable.ne
      hsharable.target_live.2.1 hsharable.empty
      (by rw [hsharable.aligned]; exact hsharable.committed) (exec_call_eq_ok.mp h)
  | finalize request a =>
    rw [((finalizeTentativeKey_eq_ok hwf).mp h).2]
    exact clean_rollBack hclean _ _
  | release request =>
    rw [Op.run, releaseRequestKey] at h
    obtain ⟨_, -, h⟩ := query_bind_eq_ok.mp h
    obtain ⟨_, -, h⟩ := query_bind_eq_ok.mp h
    obtain ⟨-, h⟩ := failIf_bind_eq_ok.mp h
    obtain ⟨_, -, h⟩ := query_bind_eq_ok.mp h
    obtain ⟨_, -, h⟩ := query_bind_eq_ok.mp h
    obtain ⟨p₁, hp₁, h⟩ := call_bind_eq_ok.mp h
    have hretire := exec_call_eq_ok.mp h
    rw [retireEmptyRequest] at hretire
    obtain ⟨_, hslot, hretire⟩ := bind_eq_ok.mp hretire
    obtain rfl := requestAt_eq_ok hslot
    obtain ⟨_, -, hretire⟩ := bind_eq_ok.mp hretire
    exact Except.ok.inj hretire ▸ (clean_releaseTails hclean hp₁).setRequest rfl rfl

/-- **Run lemma.** -/
theorem logged_clean {g : Logged} (hg : logged.Reachable g) : g.pool.Clean := by
  refine System.Reachable.induction (I := fun g => g.pool.Clean) ?_ ?_ hg
  · rintro g ⟨⟨a, b, c, hnew⟩, -⟩
    obtain ⟨-, hempty, -⟩ := (newBounded_ensures a b c).of_ok hnew
    intro s i _
    rw [hempty]
    rfl
  · rintro g op g' hg ih rfl
    have hwf := (logged_sound hg).wellFormed
    rw [Logged.apply]
    rcases (Op.runs hwf op).cases with ⟨_, p', hx, -⟩ | ⟨e, p', hx, rfl, -⟩
    · rw [hx]
      have hpool : (g.record p' op).pool = p' := by
        cases op <;> rfl
      rw [hpool]
      exact Op.clean hwf ih hx
    · rw [hx]
      exact ih

/-! ### The pages that later appends take -/

/-- Two pools that differ in generations of pages at most. -/
structure Alike (p p' : KvPool) : Prop where
  geometry : SameGeometry p p'
  stack : p'.freeStack = p.freeStack
  len : p'.freeLen = p.freeLen
  live : ∀ s, (p'.requests s).live = (p.requests s).live
  generation : ∀ s, (p'.requests s).generation = (p.requests s).generation
  resident : ∀ s, (p'.requests s).residentTokens = (p.requests s).residentTokens
  count : ∀ s, (p'.requests s).pageCount = (p.requests s).pageCount
  index : ∀ s i, ((p'.requests s).pages i).index = ((p.requests s).pages i).index

theorem alike_aged (l : List ℕ) (p : KvPool) : Alike (aged l p) p :=
  ⟨⟨rfl, rfl, rfl⟩, rfl, rfl, fun _ => rfl, fun _ => rfl, fun _ => rfl, fun _ => rfl,
    fun _ _ => rfl⟩

theorem Alike.grow (h : Alike p p') (s : ℕ) : Alike (grow s p) (grow s p') := by
  obtain ⟨h1, h2, h3, h4, h5, h6, h7, h8⟩ := h
  rw [KvPool.grow, KvPool.grow, h6, h7, h1.1]
  by_cases hroom : (p.requests s).residentTokens < (p.requests s).pageCount * p.pageTokens
  · rw [if_pos hroom, if_pos hroom]
    refine ⟨h1, h2, h3, fun j => ?_, fun j => ?_, fun j => ?_, fun j => ?_, fun j => ?_⟩
    all_goals
      by_cases hj : j = s
      · subst hj
        simp only [resizeTail_requests_self, h4, h5, h7, h8, implies_true]
      · rw [show (p.resizeTail s _ _ _).requests j = p.requests j from setRequest_of_ne hj,
          show (p'.resizeTail s _ _ _).requests j = p'.requests j from setRequest_of_ne hj]
        simp only [h4, h5, h6, h7, h8, implies_true]
  · rw [if_neg hroom, if_neg hroom, h2, h3]
    refine ⟨h1, h2, congrArg (· - 1) h3, fun j => ?_, fun j => ?_, fun j => ?_, fun j => ?_,
      fun j => ?_⟩
    all_goals
      by_cases hj : j = s
      · subst hj
        simp only [pushFresh_requests_self, h4, h5, h6, h7]
        try
          intro i
          by_cases hi : i = (p.requests j).pageCount
          · rw [hi, Function.update_self, Function.update_self]
          · rw [Function.update_of_ne hi, Function.update_of_ne hi, h8]
      · rw [show (p.pushFresh s _ _).requests j = p.requests j from setRequest_of_ne hj,
          show (p'.pushFresh s _ _).requests j = p'.requests j from setRequest_of_ne hj]
        simp only [h4, h5, h6, h7, h8, implies_true]

theorem Alike.iterate (h : Alike p p') (s n : ℕ) :
    Alike ((KvPool.grow s)^[n] p) ((KvPool.grow s)^[n] p') := by
  induction n with
  | zero => exact h
  | succ n ih =>
    rw [Function.iterate_succ_apply', Function.iterate_succ_apply']
    exact ih.grow s

theorem Alike.chain (h : Alike p p') (s : ℕ) :
    (p'.chain s).map PageId.index = (p.chain s).map PageId.index := by
  rw [KvPool.chain, KvPool.chain, List.map_map, List.map_map, h.count]
  exact List.map_congr_left fun i _ => h.index s i

/-- An append takes the same pages of both. -/
theorem Alike.append (h : Alike p p') (hwf : p.WellFormed) (hwf' : p'.WellFormed) {p₁ : KvPool}
    (happend : (appendTentativeKey request n).exec p = (.ok (), p₁)) :
    ∃ p₂, (appendTentativeKey request n).exec p' = (.ok (), p₂) ∧
      (freshPages p' p₂ request.slot).map PageId.index =
        (freshPages p p₁ request.slot).map PageId.index := by
  obtain ⟨happ, rfl⟩ := (appendTentativeKey_eq_ok hwf).mp happend
  have happ' : Appendable p' request n := by
    obtain ⟨⟨hslot, hlive, hgeneration⟩, hcontext, hroom⟩ := happ
    refine ⟨⟨hslot, (h.live _).trans hlive, (h.generation _).trans hgeneration⟩, ?_, ?_⟩
    · rw [h.resident, h.geometry.2.1]
      exact hcontext
    · rw [h.resident, h.count, h.len, h.geometry.1]
      exact hroom
  refine ⟨_, (appendTentativeKey_eq_ok hwf').mpr ⟨happ', rfl⟩, ?_⟩
  rw [freshPages, freshPages, List.map_drop, List.map_drop, (h.iterate request.slot n).chain,
    h.count]

/-- **Rejected tokens leave no trace.** In every reachable pool, when `n` tokens are appended and
`a` accepted of what the request then holds, and the first `m` of the tokens would have been enough,
then appending `m` and accepting `a` returns as well. It leaves the same pool, but for the
generations of the pages that only the longer append took: with it, each of these is one generation
on. So a later append takes the same pages. -/
theorem rejected_traceless {g : Logged} (hg : logged.Reachable g) (request : RequestId)
    (m n a : ℕ) (hmn : m ≤ n)
    (henough : (g.pool.requests request.slot).committedTokens + a ≤
      (g.pool.requests request.slot).residentTokens + m)
    (longer finalized : KvPool)
    (happend : (appendTentativeKey request n).exec g.pool = (.ok (), longer))
    (hfinalize : (finalizeTentativeKey request a).exec longer = (.ok (), finalized)) :
    ∃ shorter finalized' : KvPool,
      (appendTentativeKey request m).exec g.pool = (.ok (), shorter) ∧
      (finalizeTentativeKey request a).exec shorter = (.ok (), finalized') ∧
      finalized =
        aged ((freshPages shorter longer request.slot).map PageId.index) finalized' ∧
      ∀ (later : RequestId) (tokens : ℕ) (p₁ : KvPool),
        (appendTentativeKey later tokens).exec finalized = (.ok (), p₁) →
        ∃ p₂, (appendTentativeKey later tokens).exec finalized' = (.ok (), p₂) ∧
          (freshPages finalized' p₂ later.slot).map PageId.index =
            (freshPages finalized p₁ later.slot).map PageId.index := by
  have hwf := (logged_sound hg).wellFormed
  have hclean := logged_clean hg
  obtain ⟨happ, rfl⟩ := (appendTentativeKey_eq_ok hwf).mp happend
  obtain ⟨d, rfl⟩ := Nat.exists_eq_add_of_le hmn
  obtain ⟨happended, hrest⟩ := happ.iterate hwf
  set q := (KvPool.grow request.slot)^[m] g.pool with hq
  have hlonger : (KvPool.grow request.slot)^[m + d] g.pool =
      (KvPool.grow request.slot)^[d] q := by
    rw [Nat.add_comm, Function.iterate_add_apply]
  rw [hlonger] at hfinalize ⊢
  have hwfq := happended.wellFormed
  obtain ⟨happended', -⟩ := (show Appendable q request (d + 0) from hrest).iterate hwfq
  obtain ⟨hfinalizable, rfl⟩ := (finalizeTentativeKey_eq_ok happended'.wellFormed).mp hfinalize
  have hcommitted := happended'.committed
  have hle : (q.requests request.slot).committedTokens + a ≤
      (q.requests request.slot).residentTokens := by
    rw [happended.committed, happended.resident]
    exact henough
  have hfinalizable' : Finalizable q request a := by
    refine ⟨hrest.live, hle, fun i hi hretained => ?_⟩
    rw [← happended'.kept i hi]
    refine hfinalizable.fresh i (hi.trans_le happended'.count_le) ?_
    rw [hcommitted, KvPool.retainedPages, happended'.evolves.geometry.1]
    exact hretained
  have hx := (finalizeTentativeKey_eq_ok hwfq).mpr ⟨hfinalizable', rfl⟩
  have hwfFinal := ((finalizeTentativeKey_runs hwfq request a).of_ok hx).2.wellFormed
  have hwfFinal' :=
    ((finalizeTentativeKey_runs happended'.wellFormed request a).of_ok hfinalize).2.wellFormed
  refine ⟨q, _, (appendTentativeKey_eq_ok hwf).mpr ⟨happ.mono hmn, rfl⟩, hx, ?_⟩
  rw [hcommitted] at hwfFinal' ⊢
  have heq := rollBack_iterate hwfq (clean_grow_iterate hclean request.slot m) hrest
    (Nat.le_add_right ..) hle
  refine ⟨heq, fun later tokens p₁ hlater => Alike.append ?_ hwfFinal' hwfFinal hlater⟩
  rw [heq]
  exact alike_aged ..

/-- A request that holds nothing yet. -/
def openedRun : Logged := Logged.applyAll ⟨fourPages, [], [], [], []⟩ [.create ⟨0, 1⟩]

/-- Five tokens are appended, on three pages. -/
def openedLonger : KvPool := ((appendTentativeKey ⟨0, 1⟩ 5).exec openedRun.pool).2

/-- One of them is accepted. -/
def openedFinal : KvPool := ((finalizeTentativeKey ⟨0, 1⟩ 1).exec openedLonger).2

theorem rejected_traceless_openedRun :
    ∃ shorter finalized' : KvPool,
      (appendTentativeKey ⟨0, 1⟩ 1).exec openedRun.pool = (.ok (), shorter) ∧
      (finalizeTentativeKey ⟨0, 1⟩ 1).exec shorter = (.ok (), finalized') ∧
      openedFinal = aged ((freshPages shorter openedLonger 0).map PageId.index) finalized' := by
  have hg : logged.Reachable openedRun :=
    logged_applyAll (.init ⟨⟨4, 2, 8, newBounded_four⟩, rfl, rfl, rfl, rfl⟩)
  have happend : (appendTentativeKey ⟨0, 1⟩ 5).exec openedRun.pool = (.ok (), openedLonger) :=
    Prod.ext (by decide +kernel) rfl
  have hfinalize : (finalizeTentativeKey ⟨0, 1⟩ 1).exec openedLonger = (.ok (), openedFinal) :=
    Prod.ext (by decide +kernel) rfl
  obtain ⟨shorter, finalized', hshorter, hfinal, heq, -⟩ := rejected_traceless hg ⟨0, 1⟩ 1 5 1
    (by decide) (by decide +kernel) openedLonger openedFinal happend hfinalize
  exact ⟨shorter, finalized', hshorter, hfinal, heq⟩

end Cache

end Ferric
