import Ferric.EngineCore.Runs
import Ferric.RadixPrefix.Refinement

/-!
# Sharing a prefix from a live source

The bridge from the index to the engine. It looks up the longest match, asks the engine whether the
source of the match still has the tokens, and shares them. A source that does not is invalidated,
and the next match is tried, at most as often as there are sources.

Invalidating a source takes only that source off the list. So the ready registrations stay while the
others go, and a longest match whose source is ready is the longest one among the ready
registrations.

## Main definitions

* `shareRadixPrefixFromLiveSource` — the bridge
* `ready`, `Pruned` — the registrations with a ready source, and the sources that were taken off
* `bridges` — the runs of an index, its engine and the shares between them

## Main results

* `share_longest_live` — what is shared is the longest match of a ready source
* `share_keeps_sources` — no share in any run breaks the index or the engine
-/

namespace Ferric

namespace RadixPrefix

open Spec Cache EngineCore Ferric.Action

variable {C : ℕ}

/-- An index with the engine of its sources. -/
structure Bridge (C : ℕ) where
  index : Index
  engine : Engine C

/-- `M1RadixPrefixShareErrorV1` -/
inductive ShareError where
  | targetNotReady (target : RequestId) (state : Option RequestState)
  | targetNotEmpty (target : RequestId) (residentTokens committedTokens : Option ℕ)
  | sourceEqualsTarget (source : RequestId)
  | index (error : IndexError)
  | engine (error : EngineError)

/-- `M1RadixPrefixShareOutcomeV1` -/
inductive ShareOutcome where
  | noMatch (invalidatedSources : ℕ)
  | shared (source target : RequestId) (tokenCount invalidatedSources : ℕ)

def ShareOutcome.invalidatedSources : ShareOutcome → ℕ
  | .noMatch n => n
  | .shared _ _ _ n => n

/-- `source_has_range` -/
def sourceHasRange (e : Engine C) (source : RequestId) (tokenCount : ℕ) :
    Outcome ShareError Bool :=
  if e.state source = some .ready ∧ (committedTokens e.kv source).any (tokenCount ≤ ·) ∧
      (residentTokens e.kv source).any (tokenCount ≤ ·) then
    match e.validateRead source 0 tokenCount with
    | .ok () => .ok true
    | .error (.err .faulted) => .error (.err (.engine .faulted))
    | .error (.err _) => .ok false
    | .error .panic => .error .panic
    | .error .diverge => .error .diverge
  else .ok false

/-- The loop of `share_m1_radix_prefix_from_live_source_v1` over the attempts that are left. -/
def searchSource (target : RequestId) (tokens : List Token) (logicalPageTokens : ℕ) :
    ℕ → ℕ → Action (Bridge C) ShareError ShareOutcome
  | 0, invalidated => return .noMatch invalidated
  | attempts + 1, invalidated => do
    let found ← query fun b =>
      mapErr .index (b.index.longestPageAlignedMatch tokens logicalPageTokens)
    match found with
    | none => return .noMatch invalidated
    | some found => do
      Action.failIf (found.source = target) (.sourceEqualsTarget found.source)
      let ranged ← query fun b => sourceHasRange b.engine found.source found.tokenCount
      if ranged then
        let result ← onPart (·.engine) (fun e b => { b with engine := e })
          (Engine.shareCommittedPrefix found.source target found.tokenCount)
        orThrow .engine result
        return .shared found.source target found.tokenCount invalidated
      let result ← attempt (·.index) (fun ix b => { b with index := ix })
        (·.invalidateSource found.source)
      let removed ← orThrow .index result
      Action.failIf (removed = false) (.index .invariantViolation)
      let invalidated ← query fun _ =>
        orErr (.index .invariantViolation) (checkedAdd 64 invalidated 1)
      searchSource target tokens logicalPageTokens attempts invalidated

/-- `share_m1_radix_prefix_from_live_source_v1` -/
def shareRadixPrefixFromLiveSource (target : RequestId) (tokens : List Token) :
    Action (Bridge C) ShareError ShareOutcome := do
  let b ← get
  Action.failIf b.engine.faulted (.engine .faulted)
  let targetState := b.engine.state target
  Action.failIf (targetState ≠ some .ready) (.targetNotReady target targetState)
  let targetResident := residentTokens b.engine.kv target
  let targetCommitted := committedTokens b.engine.kv target
  Action.failIf (targetResident ≠ some 0 ∨ targetCommitted ≠ some 0)
    (.targetNotEmpty target targetResident targetCommitted)
  searchSource target tokens b.engine.kv.pageTokens b.index.sourceCount 0

/-! ### The sources -/

/-- The registrations whose source is ready. -/
def ready (e : Engine C) (L : Registry) : Registry :=
  L.filter fun r => e.state r.request = some .ready

/-- The sources that were taken off a list, none of which is ready. -/
structure Pruned (e : Engine C) (L : Registry) (removed : List RequestId) : Prop where
  nodup : removed.Nodup
  registered : ∀ q ∈ removed, ∃ r ∈ L, r.request = q
  stale : ∀ q ∈ removed, e.state q ≠ some .ready

/-- The ready sources of a list still have their tokens, and the target is none of its sources. -/
structure Backs (e : Engine C) (target : RequestId) (L : Registry) : Prop where
  committed : ∀ r ∈ L, e.state r.request = some .ready →
    ∃ n, committedTokens e.kv r.request = some n ∧ r.tokens.length ≤ n
  target_ne : ∀ r ∈ L, r.request ≠ target

variable {e e' : Engine C} {F R : List ℕ} {G : List (List RequestId)} {L : Registry} {ix : Index}
variable {source target : RequestId} {query : List Token} {p n : ℕ}

theorem mem_ready {r : Registration} :
    r ∈ ready e L ↔ r ∈ L ∧ e.state r.request = some .ready := by
  rw [ready, List.mem_filter, decide_eq_true_iff]

theorem Backs.invalidate (h : Backs e target L) (source : RequestId) :
    Backs e target (L.invalidate source) := by
  have hsub : ∀ r ∈ L.invalidate source, r ∈ L := fun r hr => (List.mem_filter.mp hr).1
  exact ⟨fun r hr => h.committed r (hsub r hr), fun r hr => h.target_ne r (hsub r hr)⟩

/-- A source that is not ready is taken off without the ready ones. -/
theorem ready_invalidate (h : e.state source ≠ some .ready) :
    ready e (L.invalidate source) = ready e L := by
  rw [ready, ready, Registry.invalidate, List.filter_filter]
  refine List.filter_congr fun r _ => ?_
  by_cases hsource : r.request = source
  · rw [hsource, decide_eq_false h, Bool.false_and]
  · rw [decide_eq_true hsource, Bool.and_true]

theorem Pruned.cons {removed : List RequestId} (h : Pruned e (L.invalidate source) removed)
    (hmem : ∃ r ∈ L, r.request = source) (hstale : e.state source ≠ some .ready) :
    Pruned e L (source :: removed) := by
  refine ⟨List.nodup_cons.mpr ⟨fun hsource => ?_, h.nodup⟩, fun q hq => ?_, fun q hq => ?_⟩
  · obtain ⟨r, hr, heq⟩ := h.registered source hsource
    exact of_decide_eq_true (List.mem_filter.mp hr).2 heq
  · rcases List.mem_cons.mp hq with rfl | hq
    · exact hmem
    · obtain ⟨r, hr, heq⟩ := h.registered q hq
      exact ⟨r, (List.mem_filter.mp hr).1, heq⟩
  · rcases List.mem_cons.mp hq with rfl | hq
    · exact hstale
    · exact h.stale q hq

theorem filter_invalidate {removed : List RequestId} :
    (L.invalidate source).filter (fun r => decide (r.request ∉ removed)) =
      L.filter fun r => decide (r.request ∉ source :: removed) := by
  rw [Registry.invalidate, List.filter_filter]
  refine List.filter_congr fun r _ => ?_
  rw [← Bool.decide_and, decide_eq_decide, List.mem_cons, not_or, and_comm]

/-- The longest match of a list is that of its ready registrations, if its source is ready. -/
theorem IsLongestMatch.ready {m : Match} (h : IsLongestMatch L query p m)
    (hsource : e.state m.source = some .ready) : IsLongestMatch (ready e L) query p m := by
  obtain ⟨r, hr, heq, hagrees⟩ := h.source_mem
  refine ⟨h.positive, h.aligned, ⟨r, mem_ready.mpr ⟨hr, by rw [heq]; exact hsource⟩, heq, hagrees⟩,
    ?_, fun r hr => h.least r (mem_ready.mp hr).1⟩
  rintro d hd ⟨r, hr, hagrees⟩
  exact h.longest d hd ⟨r, (mem_ready.mp hr).1, hagrees⟩

/-- An index counts its sources in a `usize`. -/
theorem Represents.length_lt (h : Represents ix L) :
    L.length < 2 ^ 64 ∧ ix.sourceCount = L.length := by
  have hcount := h.wellFormed.sourceCount_eq.2
  obtain ⟨path, kids, S, hinv, rfl⟩ := h
  refine ⟨?_, hcount⟩
  have hlive : (live ix.sources).length ≤ ix.sources.length := List.length_filterMap_le _ _
  rw [List.length_map, ← hinv.live_perm.length_eq]
  exact (hlive.trans_eq hinv.sourceSlots).trans_lt hinv.limits.sources_lt

/-! ### What the engine says of a source -/

theorem live_of_ready (h : e.Ok F R G) (hstate : e.state source = some .ready) :
    e.kv.Live source := by
  obtain ⟨hi, hready, hgeneration, -⟩ := h.ready_of_state hstate
  have hlive := h.live hi (by rw [hready]; simp)
  rw [hgeneration] at hlive
  exact hlive

theorem committedTokens_of_live {pool : KvPool} (h : pool.Live source) :
    committedTokens pool source = some (pool.requests source.slot).committedTokens := by
  obtain ⟨hslot, hlive, hgeneration⟩ := h
  rw [committedTokens, if_neg (not_le.mpr hslot)]
  simp [hlive, hgeneration]

theorem residentTokens_of_live {pool : KvPool} (h : pool.Live source) :
    residentTokens pool source = some (pool.requests source.slot).residentTokens := by
  obtain ⟨hslot, hlive, hgeneration⟩ := h
  rw [residentTokens, if_neg (not_le.mpr hslot)]
  simp [hlive, hgeneration]

/-- A ready source has the tokens that it has committed. -/
theorem sourceHasRange_of_ready (h : e.Ok F R G) (hstate : e.state source = some .ready)
    (hle : n ≤ (e.kv.requests source.slot).committedTokens) :
    sourceHasRange e source n = .ok true := by
  have hlive := live_of_ready h hstate
  have hslot := hlive.1
  have hrequest := h.kv.request source.slot hslot
  have hresident := hle.trans hrequest.committed_le
  have hwidth : n < 2 ^ 32 :=
    (hresident.trans hrequest.resident_le).trans_lt h.kv.geometry.context_lt
  have hread : e.validateRead source 0 n = .ok () := by
    have hindex : e.kv.liveRequestIndex source = .ok source.slot := by
      rw [KvPool.liveRequestIndex, Ferric.failIf, if_neg (not_le.mpr hslot), ok_bind,
        KvPool.requestAt_of_lt hslot, ok_bind, hlive.2.1, hlive.2.2, Ferric.failIf,
        if_neg (by simp),
        ok_bind, Ferric.failIf, if_neg (by simp)]
      rfl
    have hadd : checkedAdd 32 0 n = some n := checkedAdd_eq_some.mpr ⟨by omega, Nat.zero_add n⟩
    rw [Engine.validateRead, KvPool.validateReadKey, hindex, ok_bind, hadd,
      KvPool.requestAt_of_lt hslot,
      Ferric.failIf, if_neg (by rw [h.healthy]; simp)]
    show mapErr EngineError.kv (Ferric.failIf _ _) = _
    rw [Ferric.failIf, if_neg (not_lt.mpr hresident)]
    rfl
  rw [sourceHasRange, committedTokens_of_live hlive, residentTokens_of_live hlive, if_pos, hread]
  exact ⟨hstate, decide_eq_true hle, decide_eq_true hresident⟩

theorem sourceHasRange_of_stale (h : e.state source ≠ some .ready) :
    sourceHasRange e source n = .ok false := if_neg fun hx => h hx.1

/-- Ready requests do not share a slot. -/
theorem slot_ne_of_ready (h : e.Ok F R G) (hsource : e.state source = some .ready)
    (htarget : e.state target = some .ready) (hne : source ≠ target) :
      source.slot ≠ target.slot := by
  intro hslot
  obtain ⟨-, -, hgeneration, -⟩ := h.ready_of_state hsource
  obtain ⟨-, -, hgeneration', -⟩ := h.ready_of_state htarget
  obtain ⟨s, g⟩ := source
  obtain ⟨s', g'⟩ := target
  obtain rfl : s = s' := hslot
  exact hne (congrArg (RequestId.mk s) (hgeneration.symm.trans hgeneration'))

/-! ### The steps of the search -/

section Steps

variable {α : Type} {P : α → Bridge C → Prop} {E : ShareError → Bridge C → Prop}

theorem runs_lookup {f : Option Match → Action (Bridge C) ShareError α} (hix : Represents ix L)
    (hp : p ≠ 0) (hnone : (∀ r ∈ L, ¬ Agrees r query p) → Runs ⟨ix, e⟩ (f none) P E)
    (hsome : ∀ m, IsLongestMatch L query p m → Runs ⟨ix, e⟩ (f (some m)) P E) :
    Runs ⟨ix, e⟩ ((Action.query fun b =>
      mapErr ShareError.index (b.index.longestPageAlignedMatch query p)) >>= f) P E := by
  obtain ⟨found, hlookup, hnothing, hlongest⟩ := hix.lookup query hp
  refine runs_query (R := fun x => x = found) (ensures_mapErr ?_) ?_
  · show Ensures (ix.longestPageAlignedMatch query p) _ _
    rw [hlookup]
    exact rfl
  rintro found - rfl
  cases hfound : found with
  | none => exact hnone (hnothing.mp hfound)
  | some m => exact hsome m (hlongest m hfound)

theorem runs_sourceHasRange {f : Bool → Action (Bridge C) ShareError α} {ranged : Bool}
    (h : sourceHasRange e source n = .ok ranged) (hf : Runs ⟨ix, e⟩ (f ranged) P E) :
    Runs ⟨ix, e⟩ ((Action.query fun b => sourceHasRange b.engine source n) >>= f) P E := by
  refine runs_query (R := fun x => x = ranged) ?_ ?_
  · show Ensures (sourceHasRange e source n) _ _
    rw [h]
    exact rfl
  · rintro _ - rfl
    exact hf

/-- A registered source is taken off, and counted. -/
theorem runs_invalidate {f : ℕ → Action (Bridge C) ShareError α} (hix : Represents ix L)
    (hmem : ∃ r ∈ L, r.request = source) (hwidth : n + L.length < 2 ^ 64)
    (hf : ∀ ix', ix.invalidateSource source = .ok (true, ix') →
      Represents ix' (L.invalidate source) → (L.invalidate source).length < L.length →
      Runs ⟨ix', e⟩ (f (n + 1)) P E) :
    Runs ⟨ix, e⟩ (do
      let result ← attempt (·.index) (fun ix b => { b with index := ix })
        (·.invalidateSource source)
      let removed ← orThrow .index result
      Action.failIf (removed = false) (.index .invariantViolation)
      let invalidated ← Action.query fun _ =>
        orErr (.index .invariantViolation) (checkedAdd 64 n 1)
      f invalidated) P E := by
  obtain ⟨r, hr, hsource⟩ := hmem
  have hless : (L.invalidate source).length < L.length := by
    refine List.length_filter_lt_length_iff_exists.mpr ⟨r, hr, ?_⟩
    rw [decide_eq_true_iff]
    exact not_not.mpr hsource
  refine runs_attempt (hix.invalidate source) (fun removed ix' hx hinvalid => ?_)
    fun _ _ hfalse => hfalse.elim
  obtain rfl : removed = true := hinvalid.1.mpr ⟨r, hr, hsource⟩
  refine runs_orThrow (fun x hok => ?_) fun _ herror => ?_
  · obtain rfl := Except.ok.inj hok
    refine runs_failIf (fun hfalse => ?_) fun _ => ?_
    · cases hfalse
    have hadd : checkedAdd 64 n 1 = some (n + 1) := checkedAdd_eq_some.mpr ⟨by omega, rfl⟩
    refine runs_query (R := fun x => x = n + 1) ?_ ?_
    · rw [hadd]
      exact rfl
    · rintro _ - rfl
      exact hf ix' hx hinvalid.2 hless
  · cases herror

end Steps

/-! ### The search -/

/-- The target has the first pages of the source, and nothing else of the engine has changed. -/
structure Took (source target : RequestId) (tokenCount : ℕ) (e e' : Engine C) : Prop where
  scheduler : e'.scheduler = e.scheduler
  others : ∀ j, j ≠ target.slot → e'.kv.requests j = e.kv.requests j
  count : (e'.kv.requests target.slot).pageCount = tokenCount / e.kv.pageTokens
  pages : ∀ i < tokenCount / e.kv.pageTokens,
    (e'.kv.requests target.slot).pages i = (e.kv.requests source.slot).pages i
  committed : committedTokens e'.kv target = some tokenCount
  resident : residentTokens e'.kv target = some tokenCount

/-- What the search has found among the registrations `L`, of which `L'` are left. -/
def Found (e : Engine C) (target : RequestId) (L L' : Registry) (query : List Token)
    (e' : Engine C) : ShareOutcome → Prop
  | .noMatch _ => e' = e ∧ ∀ r ∈ L', ¬ Agrees r query e.kv.pageTokens
  | .shared source t tokenCount _ => t = target ∧
      IsLongestMatch (ready e L) query e.kv.pageTokens ⟨source, tokenCount⟩ ∧
      Took source target tokenCount e e'

/-- What the bridge does: it takes sources off that are not ready, and shares what it finds. -/
def Shares (e : Engine C) (target : RequestId) (L : Registry) (query : List Token) (n : ℕ)
    (out : ShareOutcome) (b : Bridge C) : Prop :=
  ∃ removed, Pruned e L removed ∧ out.invalidatedSources = n + removed.length ∧
    Represents b.index (L.filter fun r => decide (r.request ∉ removed)) ∧
    Found e target L (L.filter fun r => decide (r.request ∉ removed)) query b.engine out

theorem shares_of_nothing_removed {out : ShareOutcome} (hix : Represents ix L)
    (hout : out.invalidatedSources = n) (h : Found e target L L query e' out) :
    Shares e target L query n out ⟨ix, e'⟩ := by
  have hall : L.filter (fun r => decide (r.request ∉ ([] : List RequestId))) = L :=
    List.filter_eq_self.mpr fun r _ => decide_eq_true List.not_mem_nil
  refine ⟨[], ⟨.nil, ?_, ?_⟩, hout, ?_, ?_⟩
  · exact fun q hq => absurd hq List.not_mem_nil
  · exact fun q hq => absurd hq List.not_mem_nil
  · rw [hall]
    exact hix
  · rw [hall]
    exact h

/-- What is done without a source that is not ready is done with it. -/
theorem Shares.of_invalidate {out : ShareOutcome} {b : Bridge C}
    (h : Shares e target (L.invalidate source) query (n + 1) out b)
    (hmem : ∃ r ∈ L, r.request = source) (hstale : e.state source ≠ some .ready) :
    Shares e target L query n out b := by
  obtain ⟨removed, hpruned, hcount, hix, hfound⟩ := h
  rw [filter_invalidate] at hix hfound
  refine ⟨source :: removed, hpruned.cons hmem hstale, ?_, hix, ?_⟩
  · rw [hcount, List.length_cons]
    omega
  · cases out with
    | noMatch _ => exact hfound
    | shared _ _ _ _ =>
      obtain ⟨ht, hlongest, htook⟩ := hfound
      rw [ready_invalidate hstale] at hlongest
      exact ⟨ht, hlongest, htook⟩

/-- A prefix of a ready source is shared. -/
theorem share_runs (h : e.Ok F R G) (hsource : e.state source = some .ready)
    (htarget : e.state target = some .ready) (hne : source ≠ target) (hpos : 0 < n)
    (haligned : e.kv.pageTokens ∣ n)
    (hcommitted : n ≤ (e.kv.requests source.slot).committedTokens)
    (hempty : (e.kv.requests target.slot).residentTokens = 0) :
    Runs e (Engine.shareCommittedPrefix source target n) (fun _ e' => Took source target n e e')
      (fun _ _ => False) := by
  have hsharable : Sharable e.kv source target n :=
    ⟨live_of_ready h hsource, live_of_ready h htarget, slot_ne_of_ready h hsource htarget hne,
      hpos.ne', Nat.div_mul_cancel haligned, hcommitted, hempty⟩
  refine (Engine.shareCommittedPrefix_runs h source target n).mono ?_ ?_
  · rintro _ e' - ⟨-, -, hscheduler, hshared⟩
    have hlive : e'.kv.Live target := by
      obtain ⟨hslot, hlive, hgeneration⟩ := hsharable.target_live
      exact ⟨hslot, hshared.live.trans hlive, hshared.generation.trans hgeneration⟩
    refine ⟨hscheduler, hshared.evolves.others, hshared.count, hshared.pages, ?_, ?_⟩
    · rw [committedTokens_of_live hlive, hshared.committed, hsharable.aligned]
    · rw [residentTokens_of_live hlive, hshared.resident, hsharable.aligned]
  · rintro _ _ - ⟨-, hno⟩
    exact hno ⟨hsource, htarget, hsharable⟩

/-- The search, with at least as many attempts as there are registrations. -/
theorem searchSource_runs (h : e.Ok F R G) (htarget : e.state target = some .ready)
    (hempty : (e.kv.requests target.slot).residentTokens = 0) {attempts : ℕ}
    (hix : Represents ix L) (hbacks : Backs e target L) (hattempts : L.length ≤ attempts)
    (hwidth : n + L.length < 2 ^ 64) :
    Runs ⟨ix, e⟩ (searchSource target query e.kv.pageTokens attempts n)
      (Shares e target L query n) fun _ _ => False := by
  induction attempts generalizing ix L n with
  | zero =>
    obtain rfl := List.length_eq_zero_iff.mp (Nat.le_zero.mp hattempts)
    exact runs_pure
      (shares_of_nothing_removed hix rfl ⟨rfl, fun r hr => absurd hr List.not_mem_nil⟩)
  | succ attempts ih =>
    rw [searchSource]
    refine runs_lookup hix h.kv.geometry.pageTokens_pos.ne' (fun hnone => ?_) fun m hlongest => ?_
    · exact runs_pure (shares_of_nothing_removed hix rfl ⟨rfl, hnone⟩)
    obtain ⟨r, hr, hsource, hagrees⟩ := hlongest.source_mem
    have hne : m.source ≠ target := by
      rw [← hsource]
      exact hbacks.target_ne r hr
    refine runs_failIf (fun heq => absurd heq hne) fun _ => ?_
    by_cases hready : e.state m.source = some .ready
    · -- the source is ready, and its tokens are there
      obtain ⟨k, hk, hle⟩ := hbacks.committed r hr (by rw [hsource]; exact hready)
      rw [hsource, committedTokens_of_live (live_of_ready h hready)] at hk
      have hcommitted : m.tokenCount ≤ (e.kv.requests m.source.slot).committedTokens := by
        rw [Option.some.inj hk]
        exact hagrees.1.trans hle
      refine runs_sourceHasRange (sourceHasRange_of_ready h hready hcommitted) ?_
      rw [if_pos rfl]
      refine runs_onPart (share_runs h hready htarget hne hlongest.positive hlongest.aligned
        hcommitted hempty) (fun _ e' _ htook => ?_) fun _ _ _ hfalse => hfalse.elim
      refine runs_orThrow (fun _ _ => runs_pure ?_) fun _ hx => ?_
      · exact shares_of_nothing_removed hix rfl ⟨rfl, hlongest.ready hready, htook⟩
      · cases hx
    · -- the source is taken off
      refine runs_sourceHasRange (sourceHasRange_of_stale hready) ?_
      rw [if_neg Bool.false_ne_true]
      refine runs_invalidate hix ⟨r, hr, hsource⟩ hwidth fun ix' _ hix' hless => ?_
      exact (ih hix' (hbacks.invalidate m.source) (by omega) (by omega)).mono
        (fun _ _ _ hs => hs.of_invalidate ⟨r, hr, hsource⟩ hready) fun _ _ _ hf => hf

theorem shareRadixPrefixFromLiveSource_runs (h : e.Ok F R G) (hix : Represents ix L)
    (hbacks : Backs e target L) (htarget : e.state target = some .ready)
    (hempty : residentTokens e.kv target = some 0) :
    Runs ⟨ix, e⟩ (shareRadixPrefixFromLiveSource target query) (Shares e target L query 0)
      fun _ _ => False := by
  have hlive := live_of_ready h htarget
  have hresident : (e.kv.requests target.slot).residentTokens = 0 := by
    rw [residentTokens_of_live hlive] at hempty
    exact Option.some.inj hempty
  have hcommitted : committedTokens e.kv target = some 0 := by
    have hle := (h.kv.request target.slot hlive.1).committed_le
    rw [hresident] at hle
    rw [committedTokens_of_live hlive, Nat.le_zero.mp hle]
  obtain ⟨hlength, hcount⟩ := hix.length_lt
  rw [shareRadixPrefixFromLiveSource]
  refine runs_get (runs_failIf (fun hfaulted => ?_) fun _ => ?_)
  · have hfaulted : e.faulted = true := hfaulted
    rw [h.healthy] at hfaulted
    cases hfaulted
  refine runs_failIf (fun hno => hno htarget) fun _ => ?_
  refine runs_failIf (fun hno => hno.elim (fun hr => hr hempty) fun hc => hc hcommitted) fun _ => ?_
  refine searchSource_runs h htarget hresident hix hbacks ?_ ?_
  · exact hcount.ge
  · rw [Nat.zero_add]
    exact hlength

/-- **The bridge shares the longest match of a ready source.** It shares whenever a ready source
agrees with the query on a page, and then the longest agreement of any ready source, from the least
request that has it. It takes only sources off that are not ready, and counts them. If it finds
nothing, no source that is left agrees with the query on a page. -/
theorem share_longest_live (hindex : calls.Reachable (ix, L)) (hengine : (engines C).Reachable e)
    (hhealthy : e.faulted = false)
    (hcommitted : ∀ r ∈ L, e.state r.request = some .ready →
      ∃ n, committedTokens e.kv r.request = some n ∧ r.tokens.length ≤ n)
    (htarget : e.state target = some .ready) (hempty : residentTokens e.kv target = some 0)
    (hfresh : ∀ r ∈ L, r.request ≠ target) (query : List Token) :
    ∃ out b removed,
      (shareRadixPrefixFromLiveSource target query).exec ⟨ix, e⟩ = (.ok out, b) ∧
      ((∃ source n k, out = .shared source target n k) ↔
        ∃ r ∈ L, e.state r.request = some .ready ∧ Agrees r query e.kv.pageTokens) ∧
      (∀ source t n k, out = .shared source t n k → t = target ∧
        IsLongestMatch (ready e L) query e.kv.pageTokens ⟨source, n⟩ ∧
        Took source target n e b.engine) ∧
      (∀ k, out = .noMatch k → b.engine = e ∧
        ∀ r ∈ b.index.registrations, ¬ Agrees r query e.kv.pageTokens) ∧
      Pruned e L removed ∧ out.invalidatedSources = removed.length ∧
      b.index.registrations = L.filter fun r => decide (r.request ∉ removed) := by
  obtain ⟨G, hsound⟩ := sound_of_reachable hengine
  rcases hsound.status with ⟨hfaulted, -⟩ | ⟨F, R, hok⟩
  · rw [hhealthy] at hfaulted
    cases hfaulted
  have hix : Represents ix L := represents_of_reachable hindex
  have hruns : Runs ⟨ix, e⟩ (shareRadixPrefixFromLiveSource target query) _ _ :=
    shareRadixPrefixFromLiveSource_runs hok hix ⟨hcommitted, hfresh⟩ htarget hempty
  rcases hruns.cases with ⟨out, b, hx, removed, hpruned, hcount, hix', hfound⟩ | ⟨_, _, -, hfalse⟩
  swap
  · exact hfalse.elim
  have hleft := hix'.registrations_eq
  refine ⟨out, b, removed, hx, ?_, ?_, ?_, hpruned, by rw [hcount, Nat.zero_add], hleft⟩
  · cases out with
    | noMatch k =>
      refine iff_of_false ?_ ?_
      · rintro ⟨source, n, k, hout⟩
        cases hout
      · rintro ⟨r, hr, hready, hagrees⟩
        refine hfound.2 r (List.mem_filter.mpr ⟨hr, decide_eq_true fun hremoved => ?_⟩) hagrees
        exact hpruned.stale _ hremoved hready
    | shared source t n k =>
      obtain ⟨rfl, hlongest, -⟩ := hfound
      refine iff_of_true ⟨source, n, k, rfl⟩ ?_
      obtain ⟨r, hr, -, hagrees⟩ := hlongest.source_mem
      obtain ⟨hr, hready⟩ := mem_ready.mp hr
      exact ⟨r, hr, hready, hagrees.mono (Nat.le_of_dvd hlongest.positive hlongest.aligned)⟩
  · rintro source t n k rfl
    exact hfound
  · rintro k rfl
    rw [hleft]
    exact hfound

/-- A source that is gone, registered with more tokens than one that is ready. -/
def staleSource : Index where
  limits := { nodes := 6, tokensPerSource := 4, sources := 2, storedTokens := 8 }
  nodes := [
    some { token := 0, parent := noParent, firstChild := some 1, nextSibling := none, depth := 0 },
    some { token := 1, parent := 0, firstChild := some 2, nextSibling := none, depth := 1 },
    some { token := 2, parent := 1, firstChild := some 3, nextSibling := none, depth := 2 },
    some { token := 3, parent := 2, firstChild := some 4, nextSibling := none, depth := 3 },
    some { token := 4, parent := 3, firstChild := none, nextSibling := none, depth := 4 },
    none]
  sources := [
    some { request := ⟨1, 7⟩, endpoint := 4, tokenCount := 4, ticket := 1 },
    some { request := ⟨0, 1⟩, endpoint := 2, tokenCount := 2, ticket := 2 }]
  nodeCount := 5
  sourceCount := 2
  storedTokens := 6
  nextTicket := 3

theorem reachable_staleSource :
    calls.Reachable (staleSource, [⟨⟨1, 7⟩, [1, 2, 3, 4]⟩, ⟨⟨0, 1⟩, [1, 2]⟩]) := by
  have hinit : calls.Reachable (Index.new ⟨6, 4, 2, 8⟩, []) :=
    .init ⟨rfl, 6, 4, 2, 8, _, by decide +kernel, rfl⟩
  obtain ⟨ix₁, h₁⟩ : ∃ ix₁, (Index.new ⟨6, 4, 2, 8⟩).registerAuthenticatedSource ⟨1, 7⟩
      [1, 2, 3, 4] = .ok ix₁ := ⟨_, rfl⟩
  have hfirst : calls.Reachable (ix₁, [⟨⟨1, 7⟩, [1, 2, 3, 4]⟩]) :=
    .step (a := .register ⟨1, 7⟩ [1, 2, 3, 4]) hinit (.inl ⟨h₁, rfl⟩)
  have hboth : ((Index.new ⟨6, 4, 2, 8⟩).registerAuthenticatedSource ⟨1, 7⟩ [1, 2, 3, 4]).bind
      (·.registerAuthenticatedSource ⟨0, 1⟩ [1, 2]) = .ok staleSource := by decide +kernel
  rw [h₁] at hboth
  exact .step (a := .register ⟨0, 1⟩ [1, 2]) hfirst (.inl ⟨hboth, rfl⟩)

/-- Request 0 has committed two tokens, and request 1 is new. -/
def committedRun : Engine 2 :=
  twoSlots.applyAll [.admission, .append ⟨0, 1⟩ 2, .dispatchReady 1, .complete 1 [2], .admission]

theorem share_longest_live_committedRun :
    committedRun.kv.pageTokens = 2 ∧ ∃ out b,
      (shareRadixPrefixFromLiveSource ⟨1, 1⟩ [1, 2, 3, 4]).exec ⟨staleSource, committedRun⟩ =
        (.ok out, b) ∧ ∃ source n k, out = .shared source ⟨1, 1⟩ n k := by
  have hr : (engines 2).Reachable committedRun :=
    reachable_applyAll (.init ⟨4, 2, 8, new_twoSlots⟩)
  have hhealthy : committedRun.faulted = false := by decide +kernel
  have hpage : committedRun.kv.pageTokens = 2 := by decide +kernel
  have hgone : committedRun.state ⟨1, 7⟩ = none := by decide +kernel
  have hsource : committedRun.state ⟨0, 1⟩ = some .ready := by decide +kernel
  have htokens : committedTokens committedRun.kv ⟨0, 1⟩ = some 2 := by decide +kernel
  have htarget : committedRun.state ⟨1, 1⟩ = some .ready := by decide +kernel
  have hempty : residentTokens committedRun.kv ⟨1, 1⟩ = some 0 := by decide +kernel
  generalize committedRun = e at *
  refine ⟨hpage, ?_⟩
  obtain ⟨out, b, -, hx, hshared, -⟩ := share_longest_live reachable_staleSource hr hhealthy
    (by simp [hgone, hsource, htokens]) htarget hempty (by simp) [1, 2, 3, 4]
  refine ⟨out, b, hx, hshared.mpr ⟨⟨⟨0, 1⟩, [1, 2]⟩, by simp, hsource, ?_⟩⟩
  rw [hpage]
  exact ⟨le_rfl, by decide, rfl⟩

/-! ### Runs of the bridge -/

/-- The calls of an index and of the engine of its sources, and shares between them. -/
inductive BridgeCall where
  | index (call : Call)
  | engine (op : EngineCore.Op)
  | share (target : RequestId) (tokens : List Token)

/-- An index with its engine and with the registry it stands for. -/
def bridges (C : ℕ) : System (Bridge C × Registry) BridgeCall where
  init s := calls.init (s.1.index, s.2) ∧ (engines C).init s.1.engine
  step s call s' :=
    match call with
    | .index call => calls.step (s.1.index, s.2) call (s'.1.index, s'.2) ∧
        s'.1.engine = s.1.engine
    | .engine op => s' = (⟨s.1.index, (op.exec s.1.engine).2⟩, s.2)
    | .share target tokens =>
        s'.1 = ((shareRadixPrefixFromLiveSource target tokens).exec s.1).2 ∧
        s'.2 = s'.1.index.registrations

/-- The source of a registration is ready and still has its tokens. -/
def HasTokens (e : Engine C) (r : Registration) : Prop :=
  e.state r.request = some .ready ∧
    ∃ n, committedTokens e.kv r.request = some n ∧ r.tokens.length ≤ n

/-- What a share leaves: no registration was lost whose source has its tokens. -/
structure Leaves (e : Engine C) (L : Registry) (b : Bridge C) : Prop where
  index : calls.Reachable (b.index, b.index.registrations)
  engine : (engines C).Reachable b.engine
  sublist : b.index.registrations.Sublist L
  lost : ∀ r ∈ L, r ∉ b.index.registrations → ¬ HasTokens e r

section Runs

variable {b : Bridge C}

theorem leaves_of_reachable (hindex : calls.Reachable (ix, L))
    (hengine : (engines C).Reachable e') :
    Leaves e L ⟨ix, e'⟩ := by
  have hsame : ix.registrations = L := (represents_of_reachable hindex).registrations_eq
  refine ⟨?_, hengine, ?_, fun r hr hlost => ?_⟩
  · show calls.Reachable (ix, ix.registrations)
    rw [hsame]
    exact hindex
  · show ix.registrations.Sublist L
    rw [hsame]
  · have hlost : r ∉ ix.registrations := hlost
    rw [hsame] at hlost
    exact absurd hr hlost

theorem Leaves.of_invalidate (h : Leaves e (L.invalidate source) b)
    (hsource : ∀ r ∈ L, r.request = source → ¬ HasTokens e r) : Leaves e L b := by
  refine ⟨h.index, h.engine, h.sublist.trans List.filter_sublist, fun r hr hlost => ?_⟩
  by_cases heq : r.request = source
  · exact hsource r hr heq
  · exact h.lost r (List.mem_filter.mpr ⟨hr, decide_eq_true heq⟩) hlost

/-- The engine answers for every source. -/
theorem sourceHasRange_total (h : e.Ok F R G) (source : RequestId) (n : ℕ) :
    ∃ ranged, sourceHasRange e source n = .ok ranged := by
  by_cases hready : e.state source = some .ready
  · have hlive := live_of_ready h hready
    by_cases hle : n ≤ (e.kv.requests source.slot).committedTokens
    · exact ⟨true, sourceHasRange_of_ready h hready hle⟩
    · refine ⟨false, if_neg fun hx => hle ?_⟩
      have hany := hx.2.1
      rw [committedTokens_of_live hlive] at hany
      exact of_decide_eq_true hany
  · exact ⟨false, sourceHasRange_of_stale hready⟩

/-- A request has one registration. -/
theorem Represents.eq_of_request (h : Represents ix L) {r r' : Registration} (hr : r ∈ L)
    (hr' : r' ∈ L) (heq : r.request = r'.request) : r = r' := by
  have hnodup : (L.map (·.request)).Nodup := by
    refine List.pairwise_map.mpr (h.pairwise.imp ?_)
    rintro a b ⟨hslot, -⟩ hab
    exact hslot (by rw [hab])
  exact List.inj_on_of_nodup_map hnodup hr hr' heq

/-- A search keeps the index and the engine in order, whatever the target is. -/
theorem searchSource_safe (h : e.Ok F R G) (hengine : (engines C).Reachable e) {attempts : ℕ}
    (hindex : calls.Reachable (ix, L)) (hwidth : n + L.length < 2 ^ 64) :
    Runs ⟨ix, e⟩ (searchSource target query e.kv.pageTokens attempts n)
      (fun _ b => Leaves e L b) fun error b => Leaves e L b ∧ ∀ x, error ≠ .index x := by
  induction attempts generalizing ix L n with
  | zero => exact runs_pure (leaves_of_reachable hindex hengine)
  | succ attempts ih =>
    have hix : Represents ix L := represents_of_reachable hindex
    have hstay : Leaves e L ⟨ix, e⟩ := leaves_of_reachable hindex hengine
    rw [searchSource]
    refine runs_lookup hix h.kv.geometry.pageTokens_pos.ne' (fun _ => runs_pure hstay)
      fun m hlongest => ?_
    obtain ⟨r, hr, hsource, hagrees⟩ := hlongest.source_mem
    refine runs_failIf (fun _ => ⟨hstay, fun x hx => ?_⟩) fun _ => ?_
    · cases hx
    obtain ⟨ranged, hranged⟩ := sourceHasRange_total h m.source m.tokenCount
    refine runs_sourceHasRange hranged ?_
    cases ranged with
    | true =>
      rw [if_pos rfl]
      -- the engine makes one of its own calls
      have hnext : ∀ result e', (Engine.shareCommittedPrefix m.source target m.tokenCount).exec e =
          (result, e') → Leaves e L ⟨ix, e'⟩ := by
        intro result e' hx
        refine leaves_of_reachable hindex ?_
        refine hengine.step (a := .share m.source target m.tokenCount) ?_
        show e' = ((Engine.shareCommittedPrefix m.source target m.tokenCount).exec e).2
        rw [hx]
      refine runs_onPart (Engine.shareCommittedPrefix_runs h m.source target m.tokenCount)
        (fun _ e' hx _ => ?_) fun _ e' hx _ => ?_
      · refine runs_orThrow (fun _ _ => runs_pure (hnext _ e' hx)) fun _ herror => ?_
        cases herror
      · refine runs_orThrow (fun _ hok => ?_) fun _ _ => ⟨hnext _ e' hx, fun x hx => ?_⟩
        · cases hok
        · cases hx
    | false =>
      rw [if_neg Bool.false_ne_true]
      have hgone : ∀ r' ∈ L, r'.request = m.source → ¬ HasTokens e r' := by
        rintro r' hr' heq ⟨hready, k, hk, hle⟩
        obtain rfl := hix.eq_of_request hr hr' (hsource.trans heq.symm)
        rw [hsource] at hready hk
        rw [committedTokens_of_live (live_of_ready h hready)] at hk
        have hcommitted : m.tokenCount ≤ (e.kv.requests m.source.slot).committedTokens := by
          rw [Option.some.inj hk]
          exact hagrees.1.trans hle
        rw [sourceHasRange_of_ready h hready hcommitted] at hranged
        cases hranged
      refine runs_invalidate hix ⟨r, hr, hsource⟩ hwidth fun ix' hx _ hless => ?_
      have hnext : calls.Reachable (ix', L.invalidate m.source) :=
        hindex.step (a := .invalidate m.source) ⟨⟨true, hx⟩, rfl⟩
      exact (ih hnext (by omega)).mono (fun _ _ _ hl => hl.of_invalidate hgone)
        fun _ _ _ hl => ⟨hl.1.of_invalidate hgone, hl.2⟩

theorem shareRadixPrefixFromLiveSource_safe (hindex : calls.Reachable (b.index, L))
    (hengine : (engines C).Reachable b.engine) :
    Runs b (shareRadixPrefixFromLiveSource target query) (fun _ b' => Leaves b.engine L b')
      fun error b' => Leaves b.engine L b' ∧ ∀ x, error ≠ .index x := by
  have hstay : Leaves b.engine L b := leaves_of_reachable hindex hengine
  rw [shareRadixPrefixFromLiveSource]
  refine runs_get (runs_failIf (fun _ => ⟨hstay, fun x hx => ?_⟩) fun hhealthy => ?_)
  · cases hx
  refine runs_failIf (fun _ => ⟨hstay, fun x hx => ?_⟩) fun _ => ?_
  · cases hx
  refine runs_failIf (fun _ => ⟨hstay, fun x hx => ?_⟩) fun _ => ?_
  · cases hx
  obtain ⟨G, hsound⟩ := sound_of_reachable hengine
  rcases hsound.status with ⟨hfaulted, -⟩ | ⟨F, R, hok⟩
  · exact absurd hfaulted hhealthy
  · refine searchSource_safe hok hengine hindex ?_
    rw [Nat.zero_add]
    exact (represents_of_reachable hindex).length_lt.1

theorem reachable_of_bridges {s : Bridge C × Registry} (h : (bridges C).Reachable s) :
    calls.Reachable (s.1.index, s.2) ∧ (engines C).Reachable s.1.engine := by
  refine h.induction (I := fun s => calls.Reachable (s.1.index, s.2) ∧
    (engines C).Reachable s.1.engine) ?_ ?_
  · rintro s ⟨hindex, hengine⟩
    exact ⟨.init hindex, .init hengine⟩
  · rintro s call s' - ⟨hindex, hengine⟩ hstep
    cases call with
    | index call =>
      obtain ⟨hcall, hsame⟩ := hstep
      refine ⟨hindex.step hcall, ?_⟩
      rw [hsame]
      exact hengine
    | engine op =>
      obtain rfl : s' = _ := hstep
      exact ⟨hindex, hengine.step (a := op) rfl⟩
    | share target tokens =>
      obtain ⟨hbridge, hregistry⟩ := hstep
      have hleaves : Leaves s.1.engine s.2 s'.1 := by
        rw [hbridge]
        exact (shareRadixPrefixFromLiveSource_safe hindex hengine).final (fun _ _ hl => hl)
          fun _ _ hl => hl.1
      rw [hregistry]
      exact ⟨hleaves.index, hleaves.engine⟩

/-- The runs of the bridge reach what the index and the engine reach on their own. -/
theorem reachable_bridges_iff : (bridges C).Reachable (b, L) ↔
    calls.Reachable (b.index, L) ∧ (engines C).Reachable b.engine := by
  refine ⟨fun h => reachable_of_bridges h, ?_⟩
  rintro ⟨hindex, hengine⟩
  have hstart : ∀ e₀, (engines C).init e₀ → (bridges C).Reachable (⟨b.index, e₀⟩, L) := by
    intro e₀ he₀
    refine hindex.induction (I := fun s => (bridges C).Reachable (⟨s.1, e₀⟩, s.2)) ?_ ?_
    · intro s hs
      exact .init ⟨hs, he₀⟩
    · intro s call s' _ hs hstep
      exact hs.step (a := .index call) ⟨hstep, rfl⟩
  refine hengine.induction (I := fun e => (bridges C).Reachable (⟨b.index, e⟩, L)) hstart ?_
  intro e op e' _ he hstep
  obtain rfl : e' = (op.exec e).2 := hstep
  exact he.step (a := .engine op) rfl

/-- **A share breaks nothing.** In every run of the index, the engine and shares between them, with
any arguments, a share returns or is rejected for a reason other than the index itself. It leaves a
registry and an engine of such a run, and no registration is lost whose source is ready and has its
tokens. -/
theorem share_keeps_sources (h : (bridges C).Reachable (b, L)) (target : RequestId)
    (query : List Token) :
    ∃ result b', (shareRadixPrefixFromLiveSource target query).exec b = (result, b') ∧
      result ≠ .error .panic ∧ result ≠ .error .diverge ∧
      (∀ x, result ≠ .error (.err (.index x))) ∧
      (bridges C).Reachable (b', b'.index.registrations) ∧
      b'.index.registrations.Sublist L ∧
      ∀ r ∈ L, r ∉ b'.index.registrations → ¬ HasTokens b.engine r := by
  obtain ⟨hindex, hengine⟩ := reachable_of_bridges h
  have hruns : Runs b (shareRadixPrefixFromLiveSource target query) _ _ :=
    shareRadixPrefixFromLiveSource_safe hindex hengine
  have hnext : (bridges C).Reachable (((shareRadixPrefixFromLiveSource target query).exec b).2,
      ((shareRadixPrefixFromLiveSource target query).exec b).2.index.registrations) :=
    h.step (a := .share target query) ⟨rfl, rfl⟩
  rcases hruns.cases with ⟨out, b', hx, hl⟩ | ⟨error, b', hx, hl, herror⟩
  · rw [hx] at hnext
    refine ⟨_, b', hx, ?_, ?_, fun x hno => ?_, hnext, hl.sublist, hl.lost⟩
    · intro hno
      cases hno
    · intro hno
      cases hno
    · cases hno
  · rw [hx] at hnext
    refine ⟨_, b', hx, ?_, ?_, fun x hno => ?_, hnext, hl.sublist, hl.lost⟩
    · intro hno
      cases hno
    · intro hno
      cases hno
    · exact herror x (Fault.err.inj (Except.error.inj hno))

end Runs

/-- A share beside a source that is gone, and one that is ready. -/
theorem share_keeps_sources_committedRun : ∃ result b',
    (shareRadixPrefixFromLiveSource ⟨1, 1⟩ [1, 2, 3, 4]).exec ⟨staleSource, committedRun⟩ =
      (result, b') ∧ result ≠ .error .panic ∧ ⟨⟨0, 1⟩, [1, 2]⟩ ∈ b'.index.registrations := by
  have hr : (engines 2).Reachable committedRun :=
    reachable_applyAll (.init ⟨4, 2, 8, new_twoSlots⟩)
  have hsource : committedRun.state ⟨0, 1⟩ = some .ready := by decide +kernel
  have htokens : committedTokens committedRun.kv ⟨0, 1⟩ = some 2 := by decide +kernel
  generalize committedRun = e at *
  have hb : (bridges 2).Reachable (⟨staleSource, e⟩, [⟨⟨1, 7⟩, [1, 2, 3, 4]⟩, ⟨⟨0, 1⟩, [1, 2]⟩]) :=
    reachable_bridges_iff.mpr ⟨reachable_staleSource, hr⟩
  obtain ⟨result, b', hx, hpanic, -, -, -, -, hlost⟩ :=
    share_keeps_sources hb ⟨1, 1⟩ [1, 2, 3, 4]
  refine ⟨result, b', hx, hpanic, ?_⟩
  by_contra hgone
  exact hlost _ (by simp) hgone ⟨hsource, 2, htokens, by simp⟩

end RadixPrefix

end Ferric
