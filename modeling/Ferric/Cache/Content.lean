import Ferric.Cache.Operations
import Ferric.Lib.Slots
import Ferric.Lib.System

/-!
# Content isolation

The pool is metadata only. To say what it is for, a run carries a memory of token cells and, for
each request, the list of values that were written for it. An append writes its values at the cells
of the positions it added; a share writes nothing and copies the first part of the list; a
finalization cuts the list.

Every position of a live request then reads back the value of its own list, whatever the other
requests did, and no step changes a cell that some live request can read.

## Main results

* `reachable_content` — every live request reads its own history
-/

namespace Ferric

namespace Cache

open Spec KvPool

/-- One call on the pool. -/
inductive Op where
  | create (request : RequestId)
  | append (request : RequestId) (tokenCount : ℕ)
  | share (source target : RequestId) (tokenCount : ℕ)
  | finalize (request : RequestId) (accepted : ℕ)
  | release (request : RequestId)

/-- The method that is called. -/
def Op.run : Op → Action KvPool KvError Unit
  | .create request => createRequestKey request
  | .append request tokenCount => appendTentativeKey request tokenCount
  | .share source target tokenCount => shareCommittedPrefixKey source target tokenCount
  | .finalize request accepted => finalizeTentativeKey request accepted
  | .release request => releaseRequestKey request

/-- What a call that returned did to the pool. -/
def Op.Effect : Op → KvPool → KvPool → Prop
  | .create request, p, p' => Created request p p'
  | .append request n, p, p' => p.Live request ∧ Appended request.slot n p p'
  | .share source target n, p, p' =>
    Sharable p source target n ∧ Shared source.slot target.slot (n / p.pageTokens) p p'
  | .finalize request a, p, p' => p.Live request ∧ Finalized request.slot a p p'
  | .release request, p, p' => p.Live request ∧ Released request.slot p p'

variable {p p' : KvPool}

/-- **Step lemma.** Every call has its effect, or fails and leaves the pool as it was. -/
theorem Op.runs (h : p.WellFormed) (op : Op) :
    Runs p op.run (fun _ p' => op.Effect p p') fun e p' => p' = p ∧ ¬ e.IsViolation := by
  cases op with
  | create request =>
    exact (createRequestKey_runs h request).mono (fun _ _ _ hq => hq) fun _ _ _ he => ⟨he.1, he.2.1⟩
  | append request n =>
    exact (appendTentativeKey_runs h request n).mono (fun _ _ _ hq => hq)
      fun _ _ _ he => ⟨he.1, he.2.1⟩
  | share source target n =>
    exact (shareCommittedPrefixKey_runs h source target n).mono (fun _ _ _ hq => hq)
      fun _ _ _ he => ⟨he.1, he.2.1⟩
  | finalize request a =>
    exact (finalizeTentativeKey_runs h request a).mono (fun _ _ _ hq => hq)
      fun _ _ _ he => ⟨he.1, he.2.1⟩
  | release request =>
    exact (releaseRequestKey_runs h request).mono (fun _ _ _ hq => hq)
      fun _ _ _ he => ⟨he.1, he.2.1⟩

theorem Op.Effect.wellFormed {op : Op} (h : op.Effect p p') : p'.WellFormed := by
  cases op with
  | create request => exact Created.wellFormed h
  | append request n => exact h.2.wellFormed
  | share source target n => exact h.2.wellFormed
  | finalize request a => exact h.2.wellFormed
  | release request => exact h.2.wellFormed

/-! ### Cells -/

/-- The cell of logical position `x` of the chain of slot `s`. -/
def KvPool.cell (p : KvPool) (s x : ℕ) : ℕ × ℕ :=
  (((p.requests s).pages (x / p.pageTokens)).index, x % p.pageTokens)

theorem KvPool.WellFormed.div_lt (h : p.WellFormed) {s x : ℕ} (hs : s < maxRequestSlots)
    (hx : x < (p.requests s).residentTokens) : x / p.pageTokens < (p.requests s).pageCount :=
  Nat.div_lt_of_lt_mul (Nat.mul_comm .. ▸ hx.trans_le (h.request s hs).covered)

/-- Positions of one chain have cells of their own. -/
theorem KvPool.WellFormed.cell_inj (h : p.WellFormed) {s x y : ℕ} (hs : s < maxRequestSlots)
    (hx : x < (p.requests s).residentTokens) (hy : y < (p.requests s).residentTokens)
    (heq : p.cell s x = p.cell s y) : x = y := by
  obtain ⟨hindex, hoffset⟩ := Prod.mk.inj heq
  have hdiv := h.distinct s hs _ (h.div_lt hs hx) _ (h.div_lt hs hy) hindex
  rw [← Nat.div_add_mod x p.pageTokens, ← Nat.div_add_mod y p.pageTokens, hdiv, hoffset]

/-- A position beyond the committed tokens has a cell that no other chain has. -/
theorem KvPool.WellFormed.cell_ne (h : p.WellFormed) {s t x y : ℕ} (hs : s < maxRequestSlots)
    (ht : t < maxRequestSlots) (hne : s ≠ t) (hy : y < (p.requests s).residentTokens)
    (hcommitted : (p.requests s).committedTokens ≤ y) (hx : x < (p.requests t).residentTokens) :
    p.cell s y ≠ p.cell t x := by
  intro heq
  obtain ⟨hindex, -⟩ := Prod.mk.inj heq
  have hlt : y < (y / p.pageTokens + 1) * p.pageTokens := by
    rw [Nat.mul_comm]
    exact Nat.lt_mul_div_succ y h.geometry.pageTokens_pos
  have hstate := h.writable_of_uncommitted hs (h.div_lt hs hy) (hcommitted.trans_lt hlt)
  exact hne (h.eq_owner ht ⟨_, h.div_lt ht hx, hindex.symm⟩ hstate)

/-! ### Runs with a memory -/

/-- A pool, what its cells hold, and what was written for each request. -/
structure Traced (V : Type) where
  pool : KvPool
  memory : ℕ × ℕ → V
  history : RequestId → List V

variable {V : Type}

/-- What a call that returned does to the memory and the histories. Appended values are
arbitrary. -/
def Traced.record (g : Traced V) (values : ℕ → V) (pool' : KvPool) : Op → Traced V
  | .create request =>
    { g with
      pool := pool'
      history := Function.update g.history request [] }
  | .append request tokenCount =>
    let resident := (g.pool.requests request.slot).residentTokens
    { pool := pool'
      memory := writeAll (fun i => pool'.cell request.slot (resident + i)) values g.memory
        (List.range tokenCount)
      history := Function.update g.history request
        (g.history request ++ (List.range tokenCount).map values) }
  | .share source target tokenCount =>
    { g with
      pool := pool'
      history := Function.update g.history target ((g.history source).take tokenCount) }
  | .finalize request accepted =>
    let committed := (g.pool.requests request.slot).committedTokens
    { g with
      pool := pool'
      history := Function.update g.history request
        ((g.history request).take (committed + accepted)) }
  | .release request =>
    { g with
      pool := pool'
      history := Function.update g.history request [] }

/-- The state after a call. A call that failed writes no values. -/
def Traced.apply (g : Traced V) (op : Op) (values : ℕ → V) : Traced V :=
  match op.run.exec g.pool with
  | (.ok _, pool') => g.record values pool' op
  | (.error _, pool') => { g with pool := pool' }

/-- Calls in any order with any arguments and any values. -/
def traced (V : Type) : System (Traced V) (Op × (ℕ → V)) where
  init g := ∃ pageCount pageTokens maxContextTokens,
    newBounded pageCount pageTokens maxContextTokens = .ok g.pool
  step g a g' := g' = g.apply a.1 a.2

/-- Every live request reads its own history. -/
def Traced.Faithful (g : Traced V) : Prop :=
  ∀ request, g.pool.Live request →
    (g.history request).length = (g.pool.requests request.slot).residentTokens ∧
      ∀ x < (g.pool.requests request.slot).residentTokens,
        (g.history request)[x]? = some (g.memory (g.pool.cell request.slot x))

/-- A request in a slot that the call does not work for. -/
theorem live_of_evolves {s : ℕ} (h : Evolves s p p') {r : RequestId} (hr : r.slot ≠ s) :
    p'.Live r ↔ p.Live r := by
  rw [KvPool.Live, KvPool.Live, h.others _ hr]

theorem cell_of_evolves {s t x : ℕ} (h : Evolves s p p') (ht : t ≠ s) :
    p'.cell t x = p.cell t x := by
  rw [KvPool.cell, KvPool.cell, h.others _ ht, h.geometry.1]

variable {g : Traced V} {values : ℕ → V}

/-- A call that touches one slot and no readable cell leaves the other requests' contents. -/
theorem Traced.Faithful.of_evolves {s : ℕ} {memory : ℕ × ℕ → V} {history : RequestId → List V}
    (h : g.Faithful) (he : Evolves s g.pool p')
    (hmemory : ∀ r, g.pool.Live r → r.slot ≠ s → ∀ x < (g.pool.requests r.slot).residentTokens,
      memory (g.pool.cell r.slot x) = g.memory (g.pool.cell r.slot x))
    (hhistory : ∀ r, r.slot ≠ s → history r = g.history r)
    (hself : ∀ r, p'.Live r → r.slot = s →
      (history r).length = (p'.requests s).residentTokens ∧
        ∀ x < (p'.requests s).residentTokens, (history r)[x]? = some (memory (p'.cell s x))) :
    (Traced.mk p' memory history).Faithful := by
  intro r hr
  by_cases hs : r.slot = s
  · subst hs
    exact hself r hr rfl
  · have hr' := (live_of_evolves he hs).mp hr
    obtain ⟨hlen, hread⟩ := h r hr'
    simp only [he.others _ hs, hhistory r hs]
    refine ⟨hlen, fun x hx => ?_⟩
    rw [cell_of_evolves he hs, hmemory r hr' hs x hx]
    exact hread x hx

/-- An append writes no cell that a live request could read. -/
theorem writeAll_append_of_live {n : ℕ} {request r : RequestId} (h : g.pool.WellFormed)
    (hrequest : g.pool.Live request) (happ : Appended request.slot n g.pool p')
    (hr : g.pool.Live r) {x : ℕ} (hx : x < (g.pool.requests r.slot).residentTokens) :
    writeAll (fun i => p'.cell request.slot ((g.pool.requests request.slot).residentTokens + i))
      values g.memory (List.range n) (g.pool.cell r.slot x) = g.memory (g.pool.cell r.slot x) := by
  refine writeAll_of_forall_ne fun i hi => ?_
  have hi := List.mem_range.mp hi
  have hresident := happ.resident
  by_cases hs : r.slot = request.slot
  · -- an earlier position of the same chain: its cell is where it was
    rw [hs] at hx ⊢
    have hcell : p'.cell request.slot x = g.pool.cell request.slot x := by
      rw [KvPool.cell, KvPool.cell, happ.evolves.geometry.1, happ.kept _ (h.div_lt hrequest.1 hx)]
    rw [← hcell]
    intro heq
    have := happ.wellFormed.cell_inj hrequest.1 (by omega) (by omega) heq
    omega
  · rw [← cell_of_evolves happ.evolves hs]
    have hcommitted := (h.request _ hrequest.1).committed_le
    refine happ.wellFormed.cell_ne hrequest.1 hr.1 (Ne.symm hs) (by omega) ?_ ?_
    · rw [happ.committed]
      omega
    · rwa [happ.evolves.others _ hs]

/-- A request that keeps living in its slot is the one that was there. -/
theorem eq_of_live_of_slot {request r : RequestId} (h : p.Live request) (hr : p'.Live r)
    (hs : r.slot = request.slot)
    (hgen : (p'.requests request.slot).generation = (p.requests request.slot).generation) :
    r = request := by
  obtain ⟨-, -, hr⟩ := hr
  rw [hs, hgen, h.2.2] at hr
  cases r
  cases request
  simp_all

theorem Traced.Faithful.create {request : RequestId} (h : g.Faithful)
    (hc : Created request g.pool p') : (g.record values p' (.create request)).Faithful := by
  refine h.of_evolves hc.evolves (fun _ _ _ _ _ => rfl)
    (fun r hr => Function.update_of_ne (fun he => hr (by rw [he])) ..) fun r hr hs => ?_
  obtain rfl : r = request := eq_of_live_of_slot hc.live hr hs rfl
  rw [Function.update_self, hc.resident]
  exact ⟨rfl, fun x hx => absurd hx (Nat.not_lt_zero x)⟩

theorem Traced.Faithful.append {request : RequestId} {n : ℕ} (h : g.Faithful)
    (hwf : g.pool.WellFormed) (hl : g.pool.Live request)
    (happ : Appended request.slot n g.pool p') :
    (g.record values p' (.append request n)).Faithful := by
  refine h.of_evolves happ.evolves (fun r hr _ x hx => writeAll_append_of_live hwf hl happ hr hx)
    (fun r hr => Function.update_of_ne (fun he => hr (by rw [he])) ..) fun r hr hs => ?_
  obtain rfl : r = request := eq_of_live_of_slot hl hr hs happ.generation
  obtain ⟨hlen, hread⟩ := h r hl
  have hresident := happ.resident
  rw [Function.update_self, List.length_append, List.length_map, List.length_range, hlen, hresident]
  refine ⟨rfl, fun x hx => ?_⟩
  by_cases hold : x < (g.pool.requests r.slot).residentTokens
  · rw [List.getElem?_append_left (by rwa [hlen]), hread x hold]
    have hcell : p'.cell r.slot x = g.pool.cell r.slot x := by
      rw [KvPool.cell, KvPool.cell, happ.evolves.geometry.1, happ.kept _ (hwf.div_lt hl.1 hold)]
    rw [hcell, writeAll_append_of_live hwf hl happ hl hold]
  · have hi : x - (g.pool.requests r.slot).residentTokens < n := by omega
    have hmem : x - (g.pool.requests r.slot).residentTokens ∈ List.range n := List.mem_range.mpr hi
    have hcells : (List.range n).Pairwise fun i j =>
        p'.cell r.slot ((g.pool.requests r.slot).residentTokens + i) ≠
          p'.cell r.slot ((g.pool.requests r.slot).residentTokens + j) := by
      refine List.Pairwise.imp_of_mem (fun ha hb hab heq => ?_) List.nodup_range
      have ha := List.mem_range.mp ha
      have hb := List.mem_range.mp hb
      have := happ.wellFormed.cell_inj hl.1 (by omega) (by omega) heq
      omega
    have hwrite : writeAll _ values g.memory _ _ = _ := writeAll_of_mem hcells hmem
    simp only [Nat.add_sub_cancel' (not_lt.mp hold)] at hwrite
    rw [hwrite, List.getElem?_append_right (by omega), hlen, List.getElem?_map,
      List.getElem?_range hi]
    rfl

theorem Traced.Faithful.share {source target : RequestId} {n : ℕ} (h : g.Faithful)
    (hwf : g.pool.WellFormed) (hsh : Sharable g.pool source target n)
    (hshared : Shared source.slot target.slot (n / g.pool.pageTokens) g.pool p') :
    (g.record values p' (.share source target n)).Faithful := by
  refine h.of_evolves hshared.evolves (fun _ _ _ _ _ => rfl)
    (fun r hr => Function.update_of_ne (fun he => hr (by rw [he])) ..) fun r hr hs => ?_
  obtain rfl : r = target := eq_of_live_of_slot hsh.target_live hr hs hshared.generation
  obtain ⟨hlen, hread⟩ := h source hsh.source_live
  have hle : n ≤ (g.pool.requests source.slot).residentTokens :=
    hsh.committed.trans (hwf.request _ hsh.source_live.1).committed_le
  rw [Function.update_self, hshared.resident, hsh.aligned, List.length_take, hlen]
  refine ⟨min_eq_left hle, fun x hx => ?_⟩
  rw [List.getElem?_take_of_lt hx, hread x (hx.trans_le hle)]
  have hdiv : x / g.pool.pageTokens < n / g.pool.pageTokens :=
    Nat.div_lt_of_lt_mul (by rwa [Nat.mul_comm, hsh.aligned])
  rw [KvPool.cell, KvPool.cell, hshared.evolves.geometry.1, hshared.pages _ hdiv]

theorem Traced.Faithful.finalize {request : RequestId} {a : ℕ} (h : g.Faithful)
    (hl : g.pool.Live request) (hf : Finalized request.slot a g.pool p') :
    (g.record values p' (.finalize request a)).Faithful := by
  refine h.of_evolves hf.evolves (fun _ _ _ _ _ => rfl)
    (fun r hr => Function.update_of_ne (fun he => hr (by rw [he])) ..) fun r hr hs => ?_
  obtain rfl : r = request := eq_of_live_of_slot hl hr hs hf.generation
  obtain ⟨hlen, hread⟩ := h r hl
  have hle := hf.resident_le
  have hresident := hf.resident
  rw [Function.update_self, List.length_take, hlen, ← hresident]
  refine ⟨min_eq_left hle, fun x hx => ?_⟩
  rw [List.getElem?_take_of_lt hx, hread x (hx.trans_le hle)]
  have hdiv := hf.wellFormed.div_lt hl.1 hx
  rw [hf.evolves.geometry.1] at hdiv
  rw [KvPool.cell, KvPool.cell, hf.evolves.geometry.1, hf.kept _ hdiv]

theorem Traced.Faithful.release {request : RequestId} (h : g.Faithful)
    (hr : Released request.slot g.pool p') : (g.record values p' (.release request)).Faithful := by
  refine h.of_evolves hr.evolves (fun _ _ _ _ _ => rfl)
    (fun r hr => Function.update_of_ne (fun he => hr (by rw [he])) ..) fun r hl hs => ?_
  have hlive := hl.2.1
  rw [hs, hr.dead] at hlive
  exact absurd hlive (by simp)

/-- What a call does to a run: it is recorded, or nothing changes. -/
theorem Traced.apply_cases (h : g.pool.WellFormed) (op : Op) (values : ℕ → V) :
    (∃ p', op.Effect g.pool p' ∧ g.apply op values = g.record values p' op) ∨
      g.apply op values = g := by
  rcases (Op.runs h op).cases with ⟨a, p', hx, heff⟩ | ⟨e, p', hx, rfl, -⟩
  · exact .inl ⟨p', heff, by rw [Traced.apply, hx]⟩
  · exact .inr (by rw [Traced.apply, hx])

@[simp] theorem Traced.record_pool (op : Op) : (g.record values p' op).pool = p' := by
  cases op <;> rfl

/-- **Step lemma.** -/
theorem Traced.Faithful.apply (h : g.Faithful) (hwf : g.pool.WellFormed) (op : Op)
    (values : ℕ → V) : (g.apply op values).pool.WellFormed ∧ (g.apply op values).Faithful := by
  rcases Traced.apply_cases hwf op values with ⟨p', heff, heq⟩ | heq
  · rw [heq, Traced.record_pool]
    refine ⟨heff.wellFormed, ?_⟩
    cases op with
    | create request => exact h.create heff
    | append request n => exact h.append hwf heff.1 heff.2
    | share source target n => exact h.share hwf heff.1 heff.2
    | finalize request a => exact h.finalize heff.1 heff.2
    | release request => exact h.release heff.2
  · rw [heq]
    exact ⟨hwf, h⟩

/-- **Run lemma.** -/
theorem traced_invariant (hg : (traced V).Reachable g) : g.pool.WellFormed ∧ g.Faithful := by
  refine System.Reachable.induction (I := fun g => g.pool.WellFormed ∧ g.Faithful) ?_ ?_ hg
  · rintro g ⟨a, b, c, hnew⟩
    obtain ⟨hwf, hempty, -⟩ := (newBounded_ensures a b c).of_ok hnew
    refine ⟨hwf, fun r hr => ?_⟩
    have hlive := hr.2.1
    rw [hempty] at hlive
    exact absurd hlive (by simp [RequestSlot.empty])
  · rintro g a g' _ ih rfl
    exact ih.2.apply ih.1 a.1 a.2

/-- **Content isolation.** In every reachable state, each live request reads back exactly its own
history, and no call changes a cell that a live request can read. -/
theorem reachable_content (hg : (traced V).Reachable g) :
    (∀ request, g.pool.Live request →
      (g.history request).length = (g.pool.requests request.slot).residentTokens ∧
        ∀ x < (g.pool.requests request.slot).residentTokens,
          (g.history request)[x]? = some (g.memory (g.pool.cell request.slot x))) ∧
      ∀ op values request, g.pool.Live request →
        ∀ x < (g.pool.requests request.slot).residentTokens,
          (g.apply op values).memory (g.pool.cell request.slot x) =
            g.memory (g.pool.cell request.slot x) := by
  obtain ⟨hwf, hcontent⟩ := traced_invariant hg
  refine ⟨hcontent, fun op values request hr x hx => ?_⟩
  rcases Traced.apply_cases hwf op values with ⟨p', heff, heq⟩ | heq
  · rw [heq]
    cases op with
    | append appended n => exact writeAll_append_of_live hwf heff.1 heff.2 hr hx
    | create | share | finalize | release => rfl
  · rw [heq]

/-- A pool of four pages of two tokens. -/
def fourPages : KvPool where
  pageTokens := 2
  maxContextTokens := 8
  pageLimit := 4
  pages := fun _ => .free
  freeStack := fun index => if index < 4 then 4 - index - 1 else 0
  freeLen := 4
  freeBitmap := fun _ => true
  requests := fun _ => .empty

theorem newBounded_four : newBounded 4 2 8 = .ok fourPages := rfl

/-- A run of calls, each with its values. -/
def Traced.applyAll (g : Traced V) (calls : List (Op × (ℕ → V))) : Traced V :=
  calls.foldl (fun g call => g.apply call.1 call.2) g

theorem reachable_applyAll {calls : List (Op × (ℕ → V))} (hg : (traced V).Reachable g) :
    (traced V).Reachable (g.applyAll calls) := by
  induction calls generalizing g with
  | nil => exact hg
  | cons call calls ih => exact ih (.step hg (a := call) rfl)

/-- Request 0 commits two of three tokens, request 1 takes over its first page, and both go on. -/
def sharedRun : Traced ℕ :=
  Traced.applyAll ⟨fourPages, fun _ => 0, fun _ => []⟩
    [(.create ⟨0, 1⟩, id), (.append ⟨0, 1⟩ 3, (10 + ·)), (.finalize ⟨0, 1⟩ 2, id),
      (.create ⟨1, 1⟩, id), (.share ⟨0, 1⟩ ⟨1, 1⟩ 2, id), (.append ⟨1, 1⟩ 1, (20 + ·)),
      (.append ⟨0, 1⟩ 1, (30 + ·))]

theorem reachable_content_sharedRun :
    sharedRun.history ⟨1, 1⟩ = [10, 11, 20] ∧ ∀ x < 3,
      (sharedRun.history ⟨1, 1⟩)[x]? = some (sharedRun.memory (sharedRun.pool.cell 1 x)) := by
  have hg : (traced ℕ).Reachable sharedRun := reachable_applyAll (.init ⟨4, 2, 8, newBounded_four⟩)
  have hlive : sharedRun.pool.Live ⟨1, 1⟩ :=
    ⟨by decide, by decide +kernel, by decide +kernel⟩
  have hresident : (sharedRun.pool.requests 1).residentTokens = 3 := by decide +kernel
  refine ⟨by decide +kernel, ?_⟩
  generalize sharedRun = g at hg hlive hresident ⊢
  exact fun x hx => ((reachable_content hg).1 ⟨1, 1⟩ hlive).2 x (hx.trans_eq hresident.symm)

end Cache

end Ferric
