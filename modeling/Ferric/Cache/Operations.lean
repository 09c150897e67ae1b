import Ferric.Cache.Effects

/-!
# The operations of the KV pool

One contract for each operation, over every well-formed pool and every argument. A result comes with
what the operation did; an error value comes with the pool as it was. No operation panics, and none
reports an invariant violation.
-/

namespace Ferric

namespace Cache

open Spec KvPool

variable {p p' : KvPool}

/-- The request is the one living in its slot. -/
def KvPool.Live (p : KvPool) (request : RequestId) : Prop :=
  request.slot < maxRequestSlots ∧ (p.requests request.slot).live = true ∧
    (p.requests request.slot).generation = request.generation

/-- The error values that stand for a broken pool. -/
def KvError.IsViolation : KvError → Prop
  | .invariantViolation _ => True
  | _ => False

/-- Reasons for which a request is not found. -/
def KvError.IsStale (request : RequestId) (e : KvError) : Prop :=
  e = .invalidRequestSlot request.slot ∨ e = .unknownRequest request.slot ∨
    ∃ expected, expected ≠ request.generation ∧
      e = .staleRequestGeneration request.slot expected request.generation

theorem KvError.IsStale.not_violation {request : RequestId} {e : KvError} (h : e.IsStale request) :
    ¬ e.IsViolation := by
  rcases h with rfl | rfl | ⟨_, _, rfl⟩ <;> exact id

/-! ### The checks -/

theorem liveRequestIndex_ensures {request : RequestId} :
    Ensures (p.liveRequestIndex request) (fun e => ¬ p.Live request ∧ e.IsStale request)
      fun index => index = request.slot ∧ p.Live request := by
  rw [liveRequestIndex]
  refine (ensures_failIf (Q := fun _ => request.slot < maxRequestSlots) (fun hge => ?_)
    fun hlt => not_le.mp hlt).bind fun _ _ hslot => ?_
  · exact ⟨fun hl => absurd hl.1 (not_lt.mpr hge), .inl rfl⟩
  rw [requestAt_of_lt hslot, ok_bind]
  refine (ensures_failIf (Q := fun _ => (p.requests request.slot).live = true) (fun hdead => ?_)
    fun hlive => by simpa using hlive).bind fun _ _ hlive => ?_
  · refine ⟨fun hl => ?_, .inr (.inl rfl)⟩
    rw [hl.2.1] at hdead
    exact absurd hdead (by simp)
  refine (ensures_failIf (Q := fun _ => (p.requests request.slot).generation = request.generation)
    (fun hstale => ?_) fun hgen => not_not.mp hgen).bind fun _ _ hgen => ?_
  · exact ⟨fun hl => hstale hl.2.2, .inr (.inr ⟨_, hstale, rfl⟩)⟩
  exact ⟨rfl, hslot, hlive, hgen⟩

/-- The room in the tail page is what the chain covers beyond the resident tokens. -/
theorem tailCapacity_eq {request : RequestId} {s : ℕ} (h : p.WellFormed) (hslot : request.slot = s)
    (hs : s < maxRequestSlots) :
    p.tailCapacity request (p.requests s) =
        .ok ((p.requests s).pageCount * p.pageTokens - (p.requests s).residentTokens) ∧
      (0 < (p.requests s).pageCount * p.pageTokens - (p.requests s).residentTokens →
        0 < (p.requests s).pageCount ∧ (p.requests s).tailPage = (p.requests s).pages (p.tail s) ∧
          (p.pages ((p.requests s).pages (p.tail s)).index).state = .writable s) := by
  rw [tailCapacity]
  by_cases hzero : (p.requests s).pageCount = 0
  · rw [if_pos hzero, hzero, Nat.zero_mul, Nat.zero_sub]
    exact ⟨rfl, fun hx => absurd hx (lt_irrefl 0)⟩
  have hcount : 0 < (p.requests s).pageCount := Nat.pos_of_ne_zero hzero
  obtain ⟨htail, hinit, hresident⟩ := h.resident_tail hs hcount
  have hcount' : (p.requests s).pageCount = p.tail s + 1 := (Nat.sub_add_cancel hcount).symm
  have hmul : (p.tail s + 1) * p.pageTokens = p.tail s * p.pageTokens + p.pageTokens :=
    Nat.succ_mul ..
  have hpage : (p.requests s).tailPage = (p.requests s).pages (p.tail s) := if_neg hzero
  obtain ⟨g1, g2, -, g4, g5, g6⟩ := h.serves s hs _ htail
  obtain ⟨h1, -, h3, -, -, -, -⟩ := h.request s hs
  have hslotEq : p.pageSlot ((p.requests s).pages (p.tail s)) =
      .ok (p.pages ((p.requests s).pages (p.tail s)).index) := by
    rw [pageSlot, failIf_of_not (not_le.mpr (h.index_lt s hs _ htail)), ok_bind,
      h.pageAt_chain hs htail, ok_bind, failIf_of_not (not_not.mpr g1)]
    rfl
  rw [if_neg hzero, hpage, inBounds_of_lt (show _ - 1 < _ from htail.trans_le (h.pageCount_le hs)),
    ok_bind, hslotEq, ok_bind]
  rw [hcount'] at h3 ⊢
  cases hstate : (p.pages ((p.requests s).pages (p.tail s)).index).state with
  | free => exact absurd hstate g4
  | writable o =>
    obtain rfl : o = s := g5 o hstate
    refine ⟨?_, fun _ => ⟨Nat.succ_pos _, rfl, rfl⟩⟩
    simp only [failIf_of_not (show ¬ o ≠ request.slot from not_not.mpr hslot.symm), ok_bind]
    rw [minus_of_le (by rw [g2]; exact min_le_left ..)]
    congr 1
    omega
  | sealed =>
    have hfull := g6 hstate
    have hcap : (p.tail s + 1) * p.pageTokens - (p.requests s).residentTokens = 0 := by omega
    rw [hcap]
    exact ⟨rfl, fun hx => absurd hx (lt_irrefl 0)⟩

theorem checkStackRoom_eq (hlimit : p.pageLimit ≤ maxPageSlots) {n : ℕ}
    (h : p.freeLen + n ≤ p.pageLimit) : p.checkStackRoom n = .ok () := by
  have hfit : p.freeLen + n < 2 ^ 32 := by
    rw [maxPageSlots] at hlimit
    omega
  simp only [checkStackRoom, checkedAdd, if_pos hfit]
  exact failIf_of_not (not_lt.mpr h)

/-- A page of the chain is in its last generation. -/
def KvPool.Worn (p : KvPool) (s : ℕ) : Prop :=
  ∃ i < (p.requests s).pageCount, ((p.requests s).pages i).generation = u32Max

theorem KvPool.Worn.exists_page {s : ℕ} (hw : p.Worn s) (h : p.WellFormed)
    (hs : s < maxRequestSlots) :
    ∃ k < p.pageLimit, (p.pages k).generation = u32Max := by
  obtain ⟨i, hi, hmax⟩ := hw
  exact ⟨_, h.index_lt s hs i hi, (h.serves s hs i hi).generation.trans hmax⟩

/-- The loop reports an exhausted generation, or there is none. -/
theorem checkGenerations_ensures {s : ℕ} {positions : List ℕ} (h : p.WellFormed)
    (hs : s < maxRequestSlots) (hpos : ∀ i ∈ positions, i < (p.requests s).pageCount) :
    Ensures (p.checkGenerations s positions)
      (fun e => ¬ e.IsViolation ∧ ∃ i ∈ positions, ((p.requests s).pages i).generation = u32Max)
      fun _ => ∀ i ∈ positions, ((p.requests s).pages i).generation ≠ u32Max := by
  rw [checkGenerations]
  refine (ensures_foldlM (d := [])
    (E := fun e => ¬ KvError.IsViolation e ∧
      ∃ i ∈ positions, ((p.requests s).pages i).generation = u32Max)
    (I := fun done rest _ => (∀ i ∈ rest, i ∈ positions) ∧
      ∀ i ∈ done, ((p.requests s).pages i).generation ≠ u32Max) ⟨fun _ hi => hi, by simp⟩ ?_).mono
    ?_ ?_
  · rintro done i rest _ ⟨hrest, hdone⟩
    have hmem := hrest i List.mem_cons_self
    have hi := hpos i hmem
    rw [h.chainAt_eq hs hi, ok_bind, h.pageAt_chain hs hi, ok_bind]
    refine ensures_failIf (fun hmax => ⟨id, i, hmem, ?_⟩) fun hne =>
      ⟨fun j hj => hrest j (List.mem_cons_of_mem _ hj), fun j hj => ?_⟩
    · exact (h.serves s hs i hi).generation.symm.trans hmax
    rcases List.mem_append.mp hj with hj | hj
    · exact hdone j hj
    · rw [List.mem_singleton.mp hj, ← (h.serves s hs i hi).generation]
      exact hne
  · exact fun _ he => he
  · exact fun _ _ hi => hi.2

/-- The loop counts pages of this chain alone, and reports an exhausted generation among them. -/
theorem countReclaims_ensures {request : RequestId} {s : ℕ} (h : p.WellFormed)
    (hslot : request.slot = s) (hs : s < maxRequestSlots) :
    Ensures (p.countReclaims request s (p.requests s).pageCount)
      (fun e => ¬ e.IsViolation ∧ p.Worn s)
      fun n => p.freeLen + n ≤ p.pageLimit ∧
        ∀ i < (p.requests s).pageCount, p.Sole s i →
          ((p.requests s).pages i).generation ≠ u32Max := by
  set count := (p.requests s).pageCount with hcount
  -- the counter is at most the number of positions seen
  rw [countReclaims]
  refine (ensures_foldlM (d := [])
    (E := fun e => ¬ KvError.IsViolation e ∧ p.Worn s)
    (I := fun done rest n => (∀ i ∈ rest, i < count) ∧ (∀ i ∈ done, i < count) ∧ n ≤ done.length ∧
      done.length + rest.length = count ∧
      ∀ i ∈ done, p.Sole s i → ((p.requests s).pages i).generation ≠ u32Max)
    ⟨fun i hi => List.mem_range.mp hi, by simp, by simp, by simp, by simp⟩ ?_).mono
      (fun _ he => he) ?_
  rotate_left
  · rintro n - ⟨-, -, hn, hlen, hgen⟩
    rw [List.nil_append, List.length_range] at hn
    have hroom := h.freeLen_add_le ((List.range count).map
      fun i => ((p.requests s).pages i).index) ?_ ?_ ?_
    · rw [List.length_map, List.length_range] at hroom
      exact ⟨by omega, fun i hi => hgen i (List.mem_range.mpr hi)⟩
    · refine List.Nodup.map_on (fun i hi j hj => ?_) List.nodup_range
      exact h.distinct s hs i (List.mem_range.mp hi) j (List.mem_range.mp hj)
    · intro k hk
      obtain ⟨i, hi, rfl⟩ := List.mem_map.mp hk
      exact h.index_lt s hs i (List.mem_range.mp hi)
    · intro k hk
      obtain ⟨i, hi, rfl⟩ := List.mem_map.mp hk
      exact (h.serves s hs i (List.mem_range.mp hi)).not_free
  · rintro done i rest n ⟨hrest, hdone, hn, hlen, hgen⟩
    have hi := hrest i List.mem_cons_self
    obtain ⟨shared, hshared, hiff⟩ := h.pageHasOtherReference_eq hs hi
    rw [List.length_cons] at hlen
    have hrest' : ∀ j ∈ rest, j < count := fun j hj => hrest j (List.mem_cons_of_mem _ hj)
    have hdone' : ∀ j ∈ done ++ [i], j < count := by
      intro j hj
      rcases List.mem_append.mp hj with hj | hj
      · exact hdone j hj
      · exact List.mem_singleton.mp hj ▸ hi
    have hlen' : (done ++ [i]).length + rest.length = count := by
      rw [List.length_append, List.length_singleton]
      omega
    have hgen' : (p.Sole s i → ((p.requests s).pages i).generation ≠ u32Max) →
        ∀ j ∈ done ++ [i], p.Sole s j → ((p.requests s).pages j).generation ≠ u32Max := by
      intro hgi j hj
      rcases List.mem_append.mp hj with hj | hj
      · exact hgen j hj
      · exact List.mem_singleton.mp hj ▸ hgi
    rw [h.chainAt_eq hs hi, ok_bind, hslot, hshared, ok_bind]
    cases shared with
    | true =>
      refine ⟨hrest', hdone', ?_, hlen',
        hgen' fun hsole => absurd (hiff.mp rfl) (sole_iff.mp hsole)⟩
      rw [List.length_append]
      omega
    | false =>
      rw [if_neg (by simp), h.pageAt_chain hs hi, ok_bind]
      have hpage := (h.serves s hs i hi).generation
      refine (ensures_failIf (Q := fun _ => ((p.requests s).pages i).generation ≠ u32Max)
        (fun hmax => ⟨id, i, hi, hpage.symm.trans hmax⟩) fun hne => hpage ▸ hne).bind
        fun _ _ hne => ?_
      have hmax := h.pageCount_le hs
      rw [maxPagesPerRequest] at hmax
      rw [plus_of_lt (by omega)]
      refine ⟨hrest', hdone', ?_, hlen', hgen' fun _ => hne⟩
      rw [List.length_append, List.length_singleton]
      omega

/-! ### Construction -/

theorem newBounded_ensures (pageCount pageTokens maxContextTokens : UInt32) :
    Ensures (newBounded pageCount pageTokens maxContextTokens) (fun e => ¬ e.IsViolation)
      fun p => p.WellFormed ∧ (∀ s, p.requests s = .empty) ∧ p.freeLen = p.pageLimit := by
  rw [newBounded]
  refine (ensures_failIf (Q := fun _ => True) (fun _ => id) fun _ => trivial).bind fun _ _ _ => ?_
  refine (ensures_failIf (Q := fun _ => 0 < pageTokens.toNat) (fun _ => id)
    fun h => Nat.pos_of_ne_zero h).bind fun _ _ hpt => ?_
  refine (ensures_failIf (Q := fun _ => True) (fun _ => id) fun _ => trivial).bind fun _ _ _ => ?_
  refine (ensures_failIf (Q := fun _ => pageCount.toNat ≤ maxPageSlots) (fun _ => id)
    fun h => not_lt.mp h).bind fun _ _ hlimit => ?_
  refine (ensures_failIf (Q := fun _ => True) (fun _ => id) fun _ => trivial).bind fun _ _ _ => ?_
  refine (ensures_failIf (Q := fun _ => _ ≤ maxPagesPerRequest) (fun _ => id)
    fun h => not_lt.mp h).bind fun _ _ hchain => ?_
  refine ensures_pure.mpr ⟨⟨⟨hpt, maxContextTokens.toNat_lt, hlimit, hchain⟩, fun s _ => ?_,
    fun s _ i hi => absurd hi (Nat.not_lt_zero i), fun s _ i hi => absurd hi (Nat.not_lt_zero i),
    fun s _ i hi => absurd hi (Nat.not_lt_zero i), fun k _ => ?_, ?_⟩, fun _ => rfl, rfl⟩
  · exact ⟨le_rfl, Nat.zero_le _, Nat.zero_le _, by simpa [RequestSlot.empty] using hpt,
      fun _ => rfl, Nat.one_pos, by show 1 < 2 ^ 32; decide⟩
  · exact ⟨Nat.one_pos, by show 1 < 2 ^ 32; decide, fun s hs => by simp [PageSlot.free] at hs,
      by simp [PageSlot.free], fun _ => ⟨rfl, rfl⟩, fun hx => absurd rfl hx⟩
  · refine ⟨fun i hi => ?_, fun i hi j hj hij => ?_, fun k hk => ?_⟩
    · simp only at hi ⊢
      rw [if_pos hi]
      omega
    · simp only at hi hj hij
      rw [if_pos hi, if_pos hj] at hij
      omega
    · simp only at hk ⊢
      refine ⟨fun _ => ⟨pageCount.toNat - k - 1, by omega, ?_⟩, fun _ => trivial⟩
      rw [if_pos (by omega)]
      omega

/-! ### Creation -/

/-- The slot is vacant and waits for this generation. -/
def KvPool.Vacant (p : KvPool) (request : RequestId) : Prop :=
  request.slot < maxRequestSlots ∧ (p.requests request.slot).live = false ∧
    (p.requests request.slot).generation = request.generation

/-- What `create_request_key` does. -/
structure Created (request : RequestId) (p p' : KvPool) : Prop where
  wellFormed : p'.WellFormed
  evolves : Evolves request.slot p p'
  vacant : p.Vacant request
  live : p'.Live request
  resident : (p'.requests request.slot).residentTokens = 0
  count : (p'.requests request.slot).pageCount = 0
  pages : p'.pages = p.pages

theorem createRequestKey_runs (h : p.WellFormed) (request : RequestId) :
    Runs p (createRequestKey request) (fun _ p' => Created request p p')
      fun e p' => p' = p ∧ ¬ e.IsViolation ∧ ¬ p.Vacant request := by
  rw [createRequestKey]
  refine runs_failIf (fun hge => ⟨rfl, id, fun hv => absurd hv.1 (not_lt.mpr hge)⟩) fun hlt => ?_
  have hs : request.slot < maxRequestSlots := not_le.mp hlt
  refine runs_query (R := fun slot => slot = p.requests request.slot) ?_ ?_
  · rw [requestAt_of_lt hs]
    exact rfl
  rintro slot - rfl
  refine runs_failIf (fun hlive => ⟨rfl, id, fun hv => ?_⟩) fun hdead => ?_
  · rw [hv.2.1] at hlive
    exact absurd hlive (by simp)
  refine runs_failIf (fun hne => ⟨rfl, id, fun hv => hne hv.2.2⟩) fun heq => ?_
  have hidle : (p.requests request.slot).live = false := by simpa using hdead
  have hgen : (p.requests request.slot).generation = request.generation := not_not.mp heq
  obtain ⟨h1, h2, h3, h4, h5, h6, h7⟩ := h.request _ hs
  have hcount := h5 hidle
  rw [hcount, Nat.zero_mul, Nat.le_zero] at h3
  have hself : (p.setRequest request.slot { p.requests request.slot with live := true }).requests
      request.slot = { p.requests request.slot with live := true } := setRequest_self
  refine ⟨h.setNumbers hs rfl rfl rfl le_rfl h1 (fun _ => hcount) h6 h7, ?_, ⟨hs, hidle, hgen⟩,
    ⟨hs, ?_, ?_⟩, ?_, ?_, rfl⟩
  · exact ⟨⟨rfl, rfl, rfl⟩, fun j hj => setRequest_of_ne hj, fun _ => le_rfl⟩
  · rw [hself]
  · rw [hself]
    exact hgen
  · rw [hself]
    exact h3
  · rw [hself]
    exact hcount

/-! ### Appending -/

/-- Whole pages and the remainder cover the tokens without waste. -/
theorem pages_cover {n pageTokens : ℕ} (hpt : 0 < pageTokens) :
    n ≤ (n / pageTokens + min (n % pageTokens) 1) * pageTokens ∧
      (n / pageTokens + min (n % pageTokens) 1) * pageTokens < n + pageTokens := by
  have hdiv := Nat.div_add_mod n pageTokens
  have hmod := Nat.mod_lt n hpt
  rw [Nat.add_mul, Nat.mul_comm (n / pageTokens)]
  rcases Nat.eq_zero_or_pos (n % pageTokens) with hz | hz
  · rw [hz, Nat.min_eq_left (Nat.zero_le 1)]
    omega
  · rw [Nat.min_eq_right (show 1 ≤ n % pageTokens from hz)]
    omega

/-- The writes of an append return. -/
theorem writeAppend_runs {s n : ℕ} {E : KvError → KvPool → Prop} (h : p.WellFormed)
    (hs : s < maxRequestSlots) (hlive : (p.requests s).live = true)
    (htail : 0 < (p.requests s).pageCount * p.pageTokens - (p.requests s).residentTokens →
      0 < (p.requests s).pageCount ∧ (p.requests s).tailPage = (p.requests s).pages (p.tail s) ∧
        (p.pages ((p.requests s).pages (p.tail s)).index).state = .writable s)
    (hcontext : (p.requests s).residentTokens + n ≤ p.maxContextTokens) {capacity required : ℕ}
    (hcap : capacity = (p.requests s).pageCount * p.pageTokens - (p.requests s).residentTokens)
    (hrequired : required = (n - capacity) / p.pageTokens + min ((n - capacity) % p.pageTokens) 1)
    (hfree : required ≤ p.freeLen) :
    Runs p (writeAppend s (p.requests s).tailPage n capacity required)
      (fun _ p' => Appended s n p p') E := by
  rw [← hcap] at htail
  have hcovered := (h.request s hs).covered
  obtain ⟨hcover, htight⟩ := pages_cover (n := n - capacity) h.geometry.pageTokens_pos
  rw [← hrequired] at hcover htight
  rw [writeAppend]
  have hrest : ∀ {p₁ : KvPool}, Appended s (min n capacity) p p₁ → p₁.freeLen = p.freeLen →
      (0 < n - capacity → (p₁.requests s).pageCount = (p.requests s).pageCount) →
      ∃ p₂, appendFreshPages s required (n - min n capacity) p₁ = .ok p₂ ∧ Appended s n p p₂ := by
    intro p₁ happ hlen hcount
    obtain ⟨hg1, hg2, -⟩ := happ.evolves.geometry
    have hresident := happ.resident
    obtain ⟨p₂, heq, happ'⟩ := appendFreshPages_eq required (n - min n capacity) happ.wellFormed hs
      (by rw [happ.live, hlive]) (by omega)
      (fun hpos => by rw [hresident, hcount (by omega), hg1]; omega) (by rw [hg1]; omega)
      (by rw [hg1]; omega) (by rw [hg2]; omega)
    refine ⟨p₂, heq, ?_⟩
    have := happ.trans happ'
    rwa [Nat.add_sub_cancel' (min_le_left ..)] at this
  by_cases hwritten : min n capacity > 0
  · rw [if_pos hwritten]
    obtain ⟨hcount, hpage, hstate⟩ := htail (by omega)
    rw [hpage]
    obtain ⟨p₁, heq, happ⟩ := appendExistingPage_eq h hs hcount rfl hstate (min n capacity)
      (by omega) (by omega)
    have hp₁ : p₁.freeLen = p.freeLen ∧
        (p₁.requests s).pageCount = (p.requests s).pageCount := by
      rw [appendExistingPage, bind_eq_ok] at heq
      obtain ⟨_, -, heq⟩ := heq
      obtain ⟨_, -, heq⟩ := bind_eq_ok.mp heq
      obtain ⟨_, -, heq⟩ := bind_eq_ok.mp heq
      obtain ⟨_, -, heq⟩ := bind_eq_ok.mp heq
      obtain rfl := Except.ok.inj heq
      exact ⟨rfl, by rw [KvPool.resizeTail, setRequest_self]⟩
    obtain ⟨p₂, heq', happ'⟩ := hrest happ hp₁.1 fun _ => hp₁.2
    exact runs_call heq (runs_call_last heq' happ')
  · rw [if_neg hwritten]
    have hzero : min n capacity = 0 := by omega
    obtain ⟨p₂, heq', happ'⟩ := hrest (hzero ▸ Appended.refl h) rfl fun _ => rfl
    exact runs_call_last heq' happ'

/-- The conditions under which tokens are appended. -/
structure Appendable (p : KvPool) (request : RequestId) (tokenCount : ℕ) : Prop where
  live : p.Live request
  context : (p.requests request.slot).residentTokens + tokenCount ≤ p.maxContextTokens
  room : (p.requests request.slot).residentTokens + tokenCount ≤
    ((p.requests request.slot).pageCount + p.freeLen) * p.pageTokens

/-- The pages that an append may take are there, and its chain stays short enough. -/
theorem Appendable.required_le {request : RequestId} {n capacity required : ℕ}
    (h : Appendable p request n) (hwf : p.WellFormed)
    (hcap : capacity = (p.requests request.slot).pageCount * p.pageTokens -
      (p.requests request.slot).residentTokens)
    (hrequired : required = (n - capacity) / p.pageTokens + min ((n - capacity) % p.pageTokens) 1) :
    required ≤ p.freeLen ∧ (p.requests request.slot).pageCount + required ≤ maxPagesPerRequest := by
  have hpt := hwf.geometry.pageTokens_pos
  obtain ⟨-, htight⟩ := pages_cover (n := n - capacity) hpt
  rw [← hrequired] at htight
  have hcovered := (hwf.request _ h.live.1).covered
  have hroom := h.room
  have hcontext := h.context
  have hchain := hwf.geometry.chain_le
  have hcount := hwf.pageCount_le h.live.1
  rw [Nat.add_mul] at hroom
  constructor
  · by_contra hlt
    have hmul := Nat.mul_le_mul_right p.pageTokens (Nat.succ_le_of_lt (not_le.mp hlt))
    rw [Nat.succ_mul] at hmul
    omega
  · rcases Nat.eq_zero_or_pos (n - capacity) with hz | hpos
    · rw [hrequired, hz]
      simpa using hcount
    · refine le_trans ?_ hchain
      rw [Nat.le_div_iff_mul_le hpt, Nat.add_mul]
      omega

theorem appendTentativeKey_runs (h : p.WellFormed) (request : RequestId) (tokenCount : ℕ) :
    Runs p (appendTentativeKey request tokenCount)
      (fun _ p' => p.Live request ∧ Appended request.slot tokenCount p p')
      fun e p' => p' = p ∧ ¬ e.IsViolation ∧ ¬ Appendable p request tokenCount := by
  rw [appendTentativeKey]
  have hctx := h.geometry.context_lt
  refine runs_query (liveRequestIndex_ensures.mono (fun e he => ⟨rfl, he.2.not_violation,
    fun hx => he.1 hx.live⟩) fun _ _ hi => hi) ?_
  rintro index - ⟨rfl, hl⟩
  have hs := hl.1
  have hlive := hl.2.1
  refine runs_get (runs_query (R := fun slot => slot = p.requests request.slot) ?_ ?_)
  · rw [requestAt_of_lt hs]
    exact rfl
  rintro slot - rfl
  refine runs_query (R := fun new => new = (p.requests request.slot).residentTokens + tokenCount)
    (ensures_orErr (fun hnone => ⟨rfl, id, fun hx => ?_⟩)
      fun new hnew => (checkedAdd_eq_some.mp hnew).2.symm) ?_
  · have := hx.context
    rw [checkedAdd, if_pos (by omega)] at hnone
    exact absurd hnone (by simp)
  rintro new - rfl
  refine runs_failIf (fun hgt => ⟨rfl, id, fun hx => absurd hx.context hgt.not_ge⟩) fun hctx' => ?_
  by_cases hzero : tokenCount = 0
  · rw [if_pos hzero]
    exact runs_pure ⟨hl, hzero ▸ .refl h⟩
  rw [if_neg hzero]
  obtain ⟨hcap, htail⟩ := tailCapacity_eq h rfl hs
  refine runs_query (R := fun capacity => capacity = _) (by rw [hcap]; exact rfl) ?_
  rintro capacity - rfl
  -- every later failure contradicts `Appendable`
  have hbound := fun hx : Appendable p request tokenCount => hx.required_le h rfl rfl
  have hmax : maxPagesPerRequest < 2 ^ 32 := by
    rw [maxPagesPerRequest]
    omega
  refine runs_query (R := fun required => required = _) (ensures_orErr (fun hnone => ⟨rfl, id,
    fun hx => ?_⟩) fun required hr => (checkedAdd_eq_some.mp hr).2.symm) ?_
  · have := (hbound hx).2
    rw [checkedAdd, if_pos (by omega)] at hnone
    exact absurd hnone (by simp)
  rintro required - rfl
  refine runs_query (R := fun count => count = _) (ensures_orErr (fun hnone => ⟨rfl, id,
    fun hx => ?_⟩) fun count hc => (checkedAdd_eq_some.mp hc).2.symm) ?_
  · have := (hbound hx).2
    rw [checkedAdd, if_pos (by omega)] at hnone
    exact absurd hnone (by simp)
  rintro count - rfl
  refine runs_failIf (fun hgt => ⟨rfl, id, fun hx => absurd (hbound hx).2 hgt.not_ge⟩) fun _ => ?_
  refine runs_failIf (fun hgt => ⟨rfl, id, fun hx => absurd (hbound hx).1 hgt.not_ge⟩)
    fun hfree => ?_
  exact (writeAppend_runs h hs hlive htail (not_lt.mp hctx') rfl rfl (not_lt.mp hfree)).mono
    (fun _ _ _ happ => ⟨hl, happ⟩) fun _ _ _ he => he

/-! ### Sharing -/

/-- The conditions under which a prefix is shared. -/
structure Sharable (p : KvPool) (source target : RequestId) (tokenCount : ℕ) : Prop where
  source_live : p.Live source
  target_live : p.Live target
  ne : source.slot ≠ target.slot
  pos : tokenCount ≠ 0
  aligned : tokenCount / p.pageTokens * p.pageTokens = tokenCount
  committed : tokenCount ≤ (p.requests source.slot).committedTokens
  empty : (p.requests target.slot).residentTokens = 0

theorem shareCommittedPrefixKey_runs (h : p.WellFormed) (source target : RequestId)
    (tokenCount : ℕ) :
    Runs p (shareCommittedPrefixKey source target tokenCount)
      (fun _ p' => Sharable p source target tokenCount ∧
        Shared source.slot target.slot (tokenCount / p.pageTokens) p p')
      fun e p' => p' = p ∧ ¬ e.IsViolation ∧ ¬ Sharable p source target tokenCount := by
  rw [shareCommittedPrefixKey]
  refine runs_query (liveRequestIndex_ensures.mono (fun e he => ⟨rfl, he.2.not_violation,
    fun hx => he.1 hx.source_live⟩) fun _ _ hi => hi) ?_
  rintro index - ⟨rfl, hsource⟩
  refine runs_query (liveRequestIndex_ensures.mono (fun e he => ⟨rfl, he.2.not_violation,
    fun hx => he.1 hx.target_live⟩) fun _ _ hi => hi) ?_
  rintro index - ⟨rfl, htarget⟩
  refine runs_failIf (fun he => ⟨rfl, id, fun hx => hx.ne he⟩) fun hne => runs_get ?_
  refine runs_failIf (fun he => ⟨rfl, id, fun hx => he.elim hx.pos fun ha => ha hx.aligned⟩)
    fun hk => ?_
  obtain ⟨hpos, haligned⟩ := not_or.mp hk
  refine runs_query (R := fun slot => slot = p.requests source.slot) ?_ ?_
  · rw [requestAt_of_lt hsource.1]
    exact rfl
  rintro slot - rfl
  refine runs_failIf (fun he => ⟨rfl, id, fun hx => absurd hx.committed he.not_ge⟩) fun hle => ?_
  refine runs_query (R := fun slot => slot = p.requests target.slot) ?_ ?_
  · rw [requestAt_of_lt htarget.1]
    exact rfl
  rintro slot - rfl
  refine runs_failIf (fun he => ⟨rfl, id, fun hx => he hx.empty⟩) fun hempty => ?_
  have hsharable : Sharable p source target tokenCount :=
    ⟨hsource, htarget, hne, hpos, not_not.mp haligned, not_lt.mp hle, not_not.mp hempty⟩
  obtain ⟨p', heq, hshared⟩ := sharePages_eq h hsource.1 htarget.1 hne htarget.2.1
    hsharable.empty (n := tokenCount / p.pageTokens)
    (by rw [hsharable.aligned]; exact hsharable.committed)
  refine runs_failIf (fun he => absurd ?_ he.not_ge) fun _ => runs_call_last heq
    ⟨hsharable, hshared⟩
  exact hshared.count ▸ hshared.wellFormed.pageCount_le htarget.1

/-! ### Finalizing -/

/-- The pages that a chain keeps for the committed tokens. -/
def KvPool.retainedPages (p : KvPool) (committed : ℕ) : ℕ :=
  committed / p.pageTokens + min (committed % p.pageTokens) 1

/-- What `finalize_tentative_key` does. -/
structure Finalized (s accepted : ℕ) (p p' : KvPool) : Prop extends Shrunk s p p' where
  committed : (p'.requests s).committedTokens = (p.requests s).committedTokens + accepted
  resident : (p'.requests s).residentTokens = (p.requests s).committedTokens + accepted
  resident_le : (p'.requests s).residentTokens ≤ (p.requests s).residentTokens

/-- Cutting the tail page back to the committed tokens. -/
theorem truncateWritableTail_eq {s : ℕ} (h : p.WellFormed) (hs : s < maxRequestSlots)
    (hcount : 0 < (p.requests s).pageCount) {tailTokens : ℕ} (hpos : 0 < tailTokens)
    (hcommitted : p.tail s * p.pageTokens + tailTokens = (p.requests s).committedTokens)
    (hfit : tailTokens < p.pageTokens) :
    ∃ p', p.truncateWritableTail s ((p.requests s).pages (p.tail s))
        (p.requests s).committedTokens tailTokens = .ok p' ∧ Shrunk s p p' ∧
      (p'.requests s).residentTokens = (p.requests s).committedTokens ∧
      (p'.requests s).committedTokens = (p.requests s).committedTokens := by
  have htail : p.tail s < (p.requests s).pageCount := Nat.sub_lt hcount Nat.one_pos
  have hlimit := h.index_lt s hs _ htail
  have hmul : (p.tail s + 1) * p.pageTokens = p.tail s * p.pageTokens + p.pageTokens :=
    Nat.succ_mul ..
  have hstate := h.writable_of_uncommitted hs htail (by omega)
  obtain ⟨h1, h2, -, -, -, -, -⟩ := h.request s hs
  have hwf := h.resizeTail hs hcount rfl hstate hcommitted hpos hfit.le le_rfl (h1.trans h2)
  set p₁ := p.resizeTail s ((p.requests s).pages (p.tail s)).index tailTokens
    (p.requests s).committedTokens with hp₁
  have hreq : p₁.requests s = { p.requests s with
      residentTokens := (p.requests s).committedTokens } := setRequest_self
  refine ⟨p₁, ?_, ⟨hwf, ?_, ?_, ?_, ?_, ?_⟩, ?_, ?_⟩
  · rw [truncateWritableTail, inBounds_of_lt (hlimit.trans_le h.geometry.limit_le), ok_bind,
      inBounds_of_lt hs, ok_bind]
    rfl
  · refine evolves_of_page (k := ((p.requests s).pages (p.tail s)).index) ⟨rfl, rfl, rfl⟩
      (fun j hj => setRequest_of_ne hj) (fun m hm => setPage_of_ne hm) ?_
    rw [pageStamp, pageStamp, show p₁.pages ((p.requests s).pages (p.tail s)).index = _ from
      setPage_self]
  · rw [hreq]
  · rw [hreq]
  · rw [hreq]
  · rw [hreq]
    exact fun _ _ => rfl
  · rw [hreq]
  · rw [hreq]

/-- The writes of a finalization return. -/
theorem writeFinalize_runs {s accepted committed retained reclaim : ℕ}
    {E : KvError → KvPool → Prop} (h : p.WellFormed) (hs : s < maxRequestSlots)
    (hcommitted : committed = (p.requests s).committedTokens + accepted)
    (hle : committed ≤ (p.requests s).residentTokens)
    (hretained : retained = committed / p.pageTokens + min (committed % p.pageTokens) 1)
    (hcount : (p.requests s).pageCount = retained + reclaim)
    (hgeneration : ∀ i < (p.requests s).pageCount, retained ≤ i →
      ((p.requests s).pages i).generation ≠ u32Max) :
    Runs p (writeFinalize s committed reclaim retained (committed % p.pageTokens))
      (fun _ p' => Finalized s accepted p p') E := by
  obtain ⟨hcover, -⟩ := pages_cover (n := committed) h.geometry.pageTokens_pos
  rw [← hretained] at hcover
  have hdiv := Nat.div_add_mod committed p.pageTokens
  have hmod := Nat.mod_lt committed h.geometry.pageTokens_pos
  obtain ⟨-, -, h3, -, h5, h6, h7⟩ := h.request s hs
  set p₁ := p.setRequest s { p.requests s with committedTokens := committed } with hp₁
  have hreq₁ : p₁.requests s = { p.requests s with committedTokens := committed } :=
    setRequest_self
  have hwf₁ : p₁.WellFormed :=
    h.setNumbers hs rfl rfl rfl (hcommitted ▸ Nat.le_add_right ..) hle h5 h6 h7
  have hshrunk₁ : Shrunk s p p₁ := by
    refine ⟨hwf₁, ⟨⟨rfl, rfl, rfl⟩, fun j hj => setRequest_of_ne hj, fun _ => le_rfl⟩, ?_,
      ?_, ?_, ?_⟩
      <;> rw [hreq₁]
    exact fun _ _ => rfl
  obtain ⟨p₂, heq₂, hshrunk₂, hcount₂, hcommitted₂, hzero, hpos⟩ :=
    dropTails_eq committed retained reclaim hwf₁
    hs
    (by rw [hreq₁]; exact hcount) (by rw [hreq₁]) hcover (by rw [hreq₁]; exact hgeneration)
  rw [writeFinalize]
  refine runs_call (t := p₁) (by rw [raiseCommitted, requestAt_of_lt hs, ok_bind]; rfl)
    (runs_call heq₂ ?_)
  have hshrunk := hshrunk₁.trans hshrunk₂
  by_cases htail : committed % p.pageTokens ≠ 0
  · rw [if_pos htail]
    have hret : retained = committed / p.pageTokens + 1 := by omega
    have htail₂ : p₂.tail s = committed / p.pageTokens := by rw [tail, hcount₂, hret]; rfl
    have hpt₂ : p₂.pageTokens = p.pageTokens := hshrunk.evolves.geometry.1
    obtain ⟨p₃, heq₃, hshrunk₃, hresident₃, hcommitted₃⟩ := truncateWritableTail_eq
      hshrunk.wellFormed hs (by omega) (Nat.pos_of_ne_zero htail)
      (by rw [htail₂, hpt₂, hcommitted₂, Nat.mul_comm]; exact hdiv) (by rw [hpt₂]; exact hmod)
    refine runs_query (R := fun page => page = (p₂.requests s).pages (p₂.tail s)) ?_ ?_
    · rw [hret, Nat.add_sub_cancel, ← htail₂, hshrunk.wellFormed.chainAt_eq hs (by omega)]
      exact rfl
    rintro page - rfl
    rw [hcommitted₂] at heq₃ hresident₃ hcommitted₃
    exact runs_call_last heq₃ ⟨hshrunk.trans hshrunk₃, hcommitted₃.trans hcommitted,
      hresident₃.trans hcommitted, hresident₃.trans_le hle⟩
  · rw [if_neg htail]
    have hret : retained * p.pageTokens = committed := by
      rw [hretained, not_not.mp htail, Nat.zero_min, Nat.add_zero, Nat.mul_comm]
      omega
    have hresident : (p₂.requests s).residentTokens = committed := by
      rcases Nat.eq_zero_or_pos reclaim with rfl | hreclaim
      · rw [hzero rfl, hreq₁]
        rw [hcount, Nat.add_zero, hret] at h3
        exact le_antisymm h3 hle
      · rw [hpos hreclaim]
        exact hret
    exact runs_pure ⟨hshrunk, hcommitted₂.trans hcommitted, hresident.trans hcommitted,
      hresident.trans_le hle⟩

/-- The conditions under which tokens are accepted. -/
structure Finalizable (p : KvPool) (request : RequestId) (accepted : ℕ) : Prop where
  live : p.Live request
  resident : (p.requests request.slot).committedTokens + accepted ≤
    (p.requests request.slot).residentTokens
  fresh : ∀ i < (p.requests request.slot).pageCount,
    p.retainedPages ((p.requests request.slot).committedTokens + accepted) ≤ i →
      ((p.requests request.slot).pages i).generation ≠ u32Max

/-- A finalization fails where it is not allowed only. -/
theorem finalizeTentativeKey_runs_iff (h : p.WellFormed) (request : RequestId) (accepted : ℕ) :
    Runs p (finalizeTentativeKey request accepted)
      (fun _ p' => Finalizable p request accepted ∧ Finalized request.slot accepted p p')
      fun e p' => p' = p ∧ ¬ e.IsViolation ∧ ¬ Finalizable p request accepted := by
  rw [finalizeTentativeKey]
  refine runs_query (liveRequestIndex_ensures.mono (fun e he => ⟨rfl, he.2.not_violation,
    fun hf => absurd hf.live he.1⟩) fun _ _ hi => hi) ?_
  rintro index - ⟨rfl, hl⟩
  have hs := hl.1
  obtain ⟨h1, h2, h3, h4, -, -, -⟩ := h.request _ hs
  have hctx := h.geometry.context_lt
  refine runs_get (runs_query (R := fun slot => slot = p.requests request.slot) ?_ ?_)
  · rw [requestAt_of_lt hs]
    exact rfl
  rintro slot - rfl
  refine runs_query (R := fun new => new = (p.requests request.slot).committedTokens + accepted)
    (ensures_orErr (fun hnone => ⟨rfl, id, fun hf => ?_⟩)
      fun new hnew => (checkedAdd_eq_some.mp hnew).2.symm) ?_
  · have := hf.resident
    rw [checkedAdd, if_pos (by omega)] at hnone
    exact absurd hnone (by simp)
  rintro new - rfl
  refine runs_failIf (fun hgt => ⟨rfl, id, fun hf => absurd hf.resident hgt.not_ge⟩) fun hle => ?_
  have hle := not_lt.mp hle
  set committed := (p.requests request.slot).committedTokens + accepted with hcommitted
  have hpt := h.geometry.pageTokens_pos
  obtain ⟨hcover, htight⟩ := pages_cover (n := committed) hpt
  have hretained : committed / p.pageTokens + min (committed % p.pageTokens) 1 ≤
      (p.requests request.slot).pageCount := by
    by_contra hlt
    have hmul := Nat.mul_le_mul_right p.pageTokens (Nat.succ_le_of_lt (not_le.mp hlt))
    rw [Nat.succ_mul] at hmul
    omega
  have hmax := h.pageCount_le hs
  refine runs_query (R := fun retained => retained = committed / p.pageTokens +
    min (committed % p.pageTokens) 1) ?_ ?_
  · rw [plus_of_lt (by rw [maxPagesPerRequest] at hmax; omega)]
    exact rfl
  rintro retained - rfl
  refine runs_query (R := fun reclaim => reclaim = (p.requests request.slot).pageCount -
    (committed / p.pageTokens + min (committed % p.pageTokens) 1))
    (by rw [minus_of_le hretained]; exact rfl) ?_
  rintro reclaim - rfl
  set retained := committed / p.pageTokens + min (committed % p.pageTokens) 1 with hret
  have hmem : ∀ {i}, i ∈ List.range' retained ((p.requests request.slot).pageCount - retained) ↔
      retained ≤ i ∧ i < (p.requests request.slot).pageCount := by
    intro i
    rw [List.mem_range'_1]
    omega
  refine runs_query (R := fun _ => True) ?_ ?_
  · have hroom := h.freeLen_add_le ((List.range' retained
      ((p.requests request.slot).pageCount - retained)).map
        fun i => ((p.requests request.slot).pages i).index) ?_ ?_ ?_
    · rw [List.length_map, List.length_range'] at hroom
      rw [checkStackRoom_eq h.geometry.limit_le hroom]
      exact trivial
    · refine List.Nodup.map_on (fun i hi j hj => ?_) List.nodup_range'
      exact h.distinct _ hs i (hmem.mp hi).2 j (hmem.mp hj).2
    · intro k hk
      obtain ⟨i, hi, rfl⟩ := List.mem_map.mp hk
      exact h.index_lt _ hs i (hmem.mp hi).2
    · intro k hk
      obtain ⟨i, hi, rfl⟩ := List.mem_map.mp hk
      exact (h.serves _ hs i (hmem.mp hi).2).not_free
  rintro _ - -
  refine runs_query ((checkGenerations_ensures h hs fun i hi => (hmem.mp hi).2).mono
    (fun e he => ⟨rfl, he.1, fun hf => ?_⟩) fun _ _ hg => hg) ?_
  · obtain ⟨i, hi, hmax⟩ := he.2
    obtain ⟨hge, hlt⟩ := hmem.mp hi
    exact hf.fresh i hlt hge hmax
  rintro _ - hgen
  have hfresh : ∀ i < (p.requests request.slot).pageCount, retained ≤ i →
      ((p.requests request.slot).pages i).generation ≠ u32Max :=
    fun i hi hle => hgen i (hmem.mpr ⟨hle, hi⟩)
  exact (writeFinalize_runs h hs hcommitted hle hret (by omega) hfresh).mono
    (fun _ _ _ hf => ⟨⟨hl, hle, hfresh⟩, hf⟩) fun _ _ _ he => he

theorem finalizeTentativeKey_runs (h : p.WellFormed) (request : RequestId) (accepted : ℕ) :
    Runs p (finalizeTentativeKey request accepted)
      (fun _ p' => p.Live request ∧ Finalized request.slot accepted p p')
      fun e p' => p' = p ∧ ¬ e.IsViolation ∧ (p.Live request →
        (p.requests request.slot).committedTokens + accepted ≤
          (p.requests request.slot).residentTokens →
        p.Worn request.slot) := by
  refine (finalizeTentativeKey_runs_iff h request accepted).mono
    (fun _ _ _ hq => ⟨hq.1.live, hq.2⟩) fun _ _ _ he => ⟨he.1, he.2.1, fun hl hle => ?_⟩
  by_contra hworn
  exact he.2.2 ⟨hl, hle, fun i hi _ hmax => hworn ⟨i, hi, hmax⟩⟩


/-! ### Releasing -/

/-- What `release_request_key` does. -/
structure Released (s : ℕ) (p p' : KvPool) : Prop where
  wellFormed : p'.WellFormed
  evolves : Evolves s p p'
  generation : (p'.requests s).generation = (p.requests s).generation + 1
  dead : (p'.requests s).live = false

theorem releaseRequestKey_runs (h : p.WellFormed) (request : RequestId) :
    Runs p (releaseRequestKey request)
      (fun _ p' => p.Live request ∧ Released request.slot p p')
      fun e p' => p' = p ∧ ¬ e.IsViolation ∧ (p.Live request →
        request.generation = u32Max ∨ p.Worn request.slot) := by
  rw [releaseRequestKey]
  refine runs_query (liveRequestIndex_ensures.mono (fun e he => ⟨rfl, he.2.not_violation,
    fun hl => absurd hl he.1⟩) fun _ _ hi => hi) ?_
  rintro index - ⟨rfl, hl⟩
  have hs := hl.1
  refine runs_query (R := fun slot => slot = p.requests request.slot) ?_ ?_
  · rw [requestAt_of_lt hs]
    exact rfl
  rintro slot - rfl
  refine runs_failIf (fun hmax => ⟨rfl, id, fun _ => .inl (hl.2.2 ▸ hmax)⟩) fun hne => ?_
  refine runs_query ((countReclaims_ensures h rfl hs).mono
    (fun e he => ⟨rfl, he.1, fun _ => .inr he.2⟩) fun _ _ hn => hn) ?_
  rintro n - ⟨hroom, hgen⟩
  refine runs_query (R := fun _ => True)
    (by rw [checkStackRoom_eq h.geometry.limit_le hroom]; exact trivial) ?_
  rintro _ - -
  obtain ⟨p₁, heq, hshrunk, hcount⟩ := releaseTails_eq h rfl hs rfl hgen
  obtain ⟨h1, -, -, -, -, h6, h7⟩ := hshrunk.wellFormed.request _ hs
  have hlt : (p₁.requests request.slot).generation + 1 < 2 ^ 32 := by
    rw [hshrunk.generation] at h7 ⊢
    rw [u32Max] at hne
    omega
  have hwf := hshrunk.wellFormed.setNumbers hs (q := { p₁.requests request.slot with
    live := false, generation := (p₁.requests request.slot).generation + 1 }) rfl rfl rfl le_rfl h1
    (fun _ => hcount) (Nat.succ_pos _) hlt
  refine runs_call heq (runs_call_last (t := p₁.setRequest request.slot _) ?_ ⟨hl, hwf, ?_, ?_, ?_⟩)
  · rw [retireEmptyRequest, requestAt_of_lt hs, ok_bind, plus_of_lt hlt]
    rfl
  · exact hshrunk.evolves.trans
      ⟨⟨rfl, rfl, rfl⟩, fun j hj => setRequest_of_ne hj, fun _ => le_rfl⟩
  · rw [setRequest_self, hshrunk.generation]
  · rw [setRequest_self]

end Cache

end Ferric
