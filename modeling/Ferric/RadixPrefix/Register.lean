import Ferric.RadixPrefix.Invariant

/-!
# Registration

The two records that a registration may replace are the one of the same request slot and the one of
the same tokens. They are found by scanning the records, counted for the capacity checks, and taken
out before the new path is linked in. When both exist, the second one ends where the new record
ends, so that pruning the first path can never take the second one's endpoint away.
-/

namespace Ferric

namespace RadixPrefix

open Spec

variable {path : ℕ → List Token} {kids : ℕ → List ℕ} {S : List Source} {ix : Index}
  {source : RequestId} {tokens : List Token}

/-- The registration leaves this record in place. -/
def Survives (path : ℕ → List Token) (source : RequestId) (tokens : List Token) (s : Source) :
    Bool :=
  s.request.slot ≠ source.slot ∧ path s.endpoint ≠ tokens

theorem not_survives {s : Source} :
    ¬ Survives path source tokens s ↔ s.request.slot = source.slot ∨ path s.endpoint = tokens := by
  simp [Survives, -not_and, not_and_or]

theorem Inv.eq_of_slot (h : Inv ix path kids S []) {a b : Source} (ha : a ∈ S) (hb : b ∈ S)
    (hab : a.request.slot = b.request.slot) : a = b :=
  eq_of_pairwise_ne h.records.slots_ne ha hb hab

theorem Inv.eq_of_path (h : Inv ix path kids S []) {a b : Source} (ha : a ∈ S) (hb : b ∈ S)
    (hab : path a.endpoint = path b.endpoint) : a = b := by
  obtain ⟨n, hn⟩ := h.records.endpoint a ha
  obtain ⟨m, hm⟩ := h.records.endpoint b hb
  exact eq_of_pairwise_ne h.records.endpoints_ne ha hb (h.shape.path_inj hn hm hab)

namespace Index

/-- The slots of the victims and their records. -/
structure Victims (ix : Index) (path : ℕ → List Token) (S : List Source) (source : RequestId)
    (tokens : List Token) (slots : List ℕ) (vs : List Source) : Prop where
  cells : List.Forall₂ (fun slot v => cell ix.sources slot = some v) slots vs
  nodup : slots.Nodup
  length_le : vs.length ≤ 2
  mem_iff : ∀ s ∈ S, s ∈ vs ↔ ¬ Survives path source tokens s
  mem : ∀ v ∈ vs, v ∈ S
  /-- The second victim has the tokens of the new record. -/
  tail : ∀ v ∈ vs.tail, path v.endpoint = tokens

theorem victims_spec (h : Inv ix path kids S []) (source : RequestId) (tokens : List Token) :
    ∃ vs, Victims ix path S source tokens (ix.victims source tokens) vs := by
  have hequal : ∀ s ∈ S, ix.sourceTokensEqual s tokens ↔ path s.endpoint = tokens := by
    intro s hs
    obtain ⟨n, hn⟩ := h.records.endpoint s hs
    exact sourceTokensEqual_iff h.shape hn (h.records.tokens s hs)
  have hmem : ∀ {slot s}, cell ix.sources slot = some s → s ∈ S :=
    fun hs => h.mem_iff.mpr ⟨_, hs⟩
  have hnone : ∀ {f : Source → Bool}, ix.sources.findIdx? (·.any f) = none → ∀ s ∈ S, ¬ f s :=
    fun hf s hs => forall_of_findIdx?_eq_none hf s (h.live_perm.mem_iff.mpr hs)
  cases hslot : ix.sources.findIdx? (·.any (·.request.slot = source.slot)) with
  | none =>
    have hother : ∀ s ∈ S, s.request.slot ≠ source.slot := fun s hs => by
      simpa using hnone hslot s hs
    cases hdup : ix.sources.findIdx? (·.any (ix.sourceTokensEqual · tokens)) with
    | none =>
      have hvictims : ix.victims source tokens = [] := by simp [victims, hslot, hdup]
      rw [hvictims]
      refine ⟨[], .nil, List.nodup_nil, by simp, fun s hs => ?_, by simp, by simp⟩
      rw [not_survives, ← hequal s hs]
      have := hnone hdup s hs
      simp [hother s hs, this]
    | some k =>
      obtain ⟨v, hv, hveq⟩ := exists_of_findIdx?_eq_some hdup
      rw [hequal v (hmem hv)] at hveq
      have hvictims : ix.victims source tokens = [k] := by
        simp [victims, hslot, hdup, Option.filter]
      rw [hvictims]
      refine ⟨[v], by simpa using hv, by simp, by simp, fun s hs => ?_,
        by simpa using hmem hv, by simp⟩
      rw [not_survives, List.mem_singleton, or_iff_right (hother s hs)]
      exact ⟨fun hsv => hsv ▸ hveq, fun hs' => h.eq_of_path hs (hmem hv) (hs'.trans hveq.symm)⟩
  | some j =>
    obtain ⟨u, hu, hueq⟩ := exists_of_findIdx?_eq_some hslot
    replace hueq : u.request.slot = source.slot := by simpa using hueq
    have hsame : ∀ s ∈ S, s.request.slot = source.slot ↔ s = u := fun s hs =>
      ⟨fun hs' => h.eq_of_slot hs (hmem hu) (hs'.trans hueq.symm), fun hsu => hsu ▸ hueq⟩
    cases hdup : ix.sources.findIdx? (·.any (ix.sourceTokensEqual · tokens)) with
    | none =>
      have hvictims : ix.victims source tokens = [j] := by simp [victims, hslot, hdup]
      rw [hvictims]
      refine ⟨[u], by simpa using hu, by simp, by simp, fun s hs => ?_,
        by simpa using hmem hu, by simp⟩
      rw [not_survives, List.mem_singleton, hsame s hs, ← hequal s hs]
      have := hnone hdup s hs
      simp [this]
    | some k =>
      obtain ⟨v, hv, hveq⟩ := exists_of_findIdx?_eq_some hdup
      rw [hequal v (hmem hv)] at hveq
      have htokens : ∀ s ∈ S, path s.endpoint = tokens ↔ s = v := fun s hs =>
        ⟨fun hs' => h.eq_of_path hs (hmem hv) (hs'.trans hveq.symm), fun hsv => hsv ▸ hveq⟩
      by_cases hkj : k = j
      · subst hkj
        obtain rfl := Option.some.inj (hu.symm.trans hv)
        have hvictims : ix.victims source tokens = [k] := by
          simp [victims, hslot, hdup, Option.filter]
        rw [hvictims]
        refine ⟨[u], by simpa using hu, by simp, by simp, fun s hs => ?_,
          by simpa using hmem hu, by simp⟩
        rw [not_survives, List.mem_singleton, hsame s hs, htokens s hs, or_self]
      · have hvictims : ix.victims source tokens = [j, k] := by
          simp [victims, hslot, hdup, Option.filter, hkj]
        rw [hvictims]
        refine ⟨[u, v], by simpa using ⟨hu, hv⟩, by simpa using Ne.symm hkj, by simp,
          fun s hs => ?_, by simpa using ⟨hmem hu, hmem hv⟩, by simpa using hveq⟩
        rw [not_survives, hsame s hs, htokens s hs]
        simp

theorem weighVictim_eq {c t slot : ℕ} {v : Source} (hv : cell ix.sources slot = some v)
    (hc : c < 2) (ht : t ≤ c * maxContextTokens) (hvb : v.tokenCount ≤ maxContextTokens) :
    ix.weighVictim (c, t) slot = .ok (c + 1, t + v.tokenCount) := by
  have hcount : checkedAdd 64 c 1 = some (c + 1) := checkedAdd_eq_some.mpr ⟨by omega, rfl⟩
  have htokens : checkedAdd 64 t v.tokenCount = some (t + v.tokenCount) := by
    refine checkedAdd_eq_some.mpr ⟨?_, rfl⟩
    have : t ≤ 2 * maxContextTokens := ht.trans (Nat.mul_le_mul_right _ (by omega))
    rw [maxContextTokens] at this hvb
    omega
  rw [weighVictim, cell_eq_some.mp hv]
  simp only [orPanic, orErr, ok_bind, hcount, htokens]
  rfl

/-- The victims are counted without overflow. -/
theorem weighVictims_eq {slots : List ℕ} {vs : List Source}
    (h : List.Forall₂ (fun slot v => cell ix.sources slot = some v) slots vs) (hlen : vs.length ≤ 2)
    (hbound : ∀ v ∈ vs, v.tokenCount ≤ maxContextTokens) :
    ix.weighVictims slots = .ok (vs.length, (vs.map (·.tokenCount)).sum) := by
  -- generalise over what has been counted already
  suffices hfold : ∀ c t, c + vs.length ≤ 2 → t ≤ c * maxContextTokens →
      slots.foldlM ix.weighVictim (c, t) =
        .ok (c + vs.length, t + (vs.map (·.tokenCount)).sum) by
    simpa [weighVictims] using hfold 0 0 (by omega) (by omega)
  clear hlen
  induction h with
  | nil => exact fun c t _ _ => rfl
  | @cons slot v slots vs hv _ ih =>
    intro c t hc ht
    rw [List.length_cons] at hc
    have hvb := hbound v List.mem_cons_self
    rw [List.foldlM_cons, weighVictim_eq hv (by omega) ht hvb, ok_bind,
      ih (fun u hu => hbound u (.tail _ hu)) (c + 1) (t + v.tokenCount) (by omega)
        (by rw [Nat.succ_mul]; omega)]
    simp only [List.length_cons, List.map_cons, List.sum_cons]
    congr 2 <;> omega

/-- The victims are taken out; the rest stays. -/
theorem takeVictims_eq {sources : List (Option Source)} {slots : List ℕ} {vs : List Source}
    (h : List.Forall₂ (fun slot v => cell sources slot = some v) slots vs) (hnd : slots.Nodup) :
    ∃ sources', takeVictims sources slots = .ok (sources', vs.map (·.endpoint)) ∧
      sources'.length = sources.length ∧ (live sources).Perm (vs ++ live sources') := by
  suffices hfold : ∀ es, ∃ sources',
      slots.foldlM takeVictim (sources, es) = .ok (sources', es ++ vs.map (·.endpoint)) ∧
      sources'.length = sources.length ∧ (live sources).Perm (vs ++ live sources') by
    simpa [takeVictims] using hfold []
  induction slots generalizing sources vs with
  | nil =>
    cases h
    exact fun es => ⟨sources, by simp; rfl, rfl, by simp⟩
  | cons slot slots ih =>
    intro es
    obtain ⟨v, vs, hv, hrest, rfl⟩ := List.forall₂_cons_left_iff.mp h
    rw [List.nodup_cons] at hnd
    have hrest' : List.Forall₂ (fun k v => cell (sources.set slot none) k = some v) slots vs := by
      refine List.forall₂_iff_zip.mpr ⟨hrest.length_eq, fun {k u} hmem => ?_⟩
      have hk : k ≠ slot := by
        rintro rfl
        exact hnd.1 (List.of_mem_zip hmem).1
      rw [cell_set_of_ne hk]
      exact (List.forall₂_iff_zip.mp hrest).2 hmem
    obtain ⟨sources', hfold, hlen, hperm⟩ := ih hrest' hnd.2 (es ++ [v.endpoint])
    refine ⟨sources', ?_, hlen.trans (by simp), ?_⟩
    · rw [List.foldlM_cons, takeVictim, hv]
      simp only [orPanic, ok_bind, pure_bind]
      rw [hfold, List.append_assoc]
      rfl
    · exact (live_perm_of_cell hv).trans (hperm.cons v)

/-- The index without the victims; their endpoints are pending. -/
theorem inv_takeVictims (h : Inv ix path kids S []) {slots : List ℕ} {vs : List Source}
    {sources : List (Option Source)} (hv : Victims ix path S source tokens slots vs)
    (hlen : sources.length = ix.sources.length)
    (hperm : (live ix.sources).Perm (vs ++ live sources)) :
    Inv { ix with
        sources
        sourceCount := ix.sourceCount - vs.length
        storedTokens := ix.storedTokens - (vs.map (·.tokenCount)).sum } path kids
      (S.filter (Survives path source tokens)) (vs.map (·.endpoint)) := by
  have hS : S.Perm (vs ++ live sources) := h.live_perm.symm.trans hperm
  have hnd := hS.nodup_iff.mp h.records.nodup
  have hgone : vs.filter (Survives path source tokens) = [] :=
    List.filter_eq_nil_iff.mpr fun v hmem => (hv.mem_iff v (hv.mem v hmem)).mp hmem
  have hkept : (live sources).filter (Survives path source tokens) = live sources := by
    refine List.filter_eq_self.mpr fun s hs => ?_
    by_contra hnot
    have hmem := (hv.mem_iff s (hS.mem_iff.mpr (by simp [hs]))).mpr hnot
    exact (List.nodup_append.mp hnd).2.2 s hmem s hs rfl
  have hfilter : (S.filter (Survives path source tokens)).Perm (live sources) := by
    have := hS.filter (Survives path source tokens)
    rwa [List.filter_append, hgone, hkept, List.nil_append] at this
  have hsplit : S.Perm (vs ++ S.filter (Survives path source tokens)) :=
    hS.trans (hfilter.symm.append_left vs)
  exact
    { limits := h.limits
      shape := h.shape
      nodeSlots := h.nodeSlots
      sourceSlots := hlen.trans h.sourceSlots
      nodeCount := h.nodeCount
      live_perm := hfilter.symm
      sourceCount := by
        have := hsplit.length_eq
        rw [List.length_append] at this
        rw [h.sourceCount, this, Nat.add_sub_cancel_left]
      storedTokens := by
        have := (hsplit.map (·.tokenCount)).sum_eq
        rw [List.map_append, List.sum_append] at this
        rw [h.storedTokens, this, Nat.add_sub_cancel_left]
      records := h.records.sublist List.filter_sublist
      leaves := by
        intro i n hi hne hk
        obtain ⟨s, hs, rfl⟩ := (h.leaves hi hne hk).resolve_right List.not_mem_nil
        by_cases hvs : s ∈ vs
        · exact .inr (List.mem_map_of_mem hvs)
        · refine .inl ⟨s, List.mem_filter.mpr ⟨hs, ?_⟩, rfl⟩
          by_contra hnot
          exact hvs ((hv.mem_iff s hs).mpr hnot) }

/-- The index with one more record, which ends at a pending node. -/
theorem inv_addSource {slot e nextTicket : ℕ} {pending : List ℕ} {s : Source}
    (h : Inv ix path kids S (e :: pending)) (hslot : ix.sources[slot]? = some none)
    (he : ∃ n, ix.node e = some n) (hend : s.endpoint = e)
    (hcount : s.tokenCount = (path e).length) (hticket : s.ticket = ix.nextTicket)
    (hnext : ix.nextTicket < nextTicket) (hbound : s.tokenCount ≤ ix.limits.tokensPerSource)
    (hothers : ∀ a ∈ S, a.request.slot ≠ s.request.slot ∧ path a.endpoint ≠ path e) :
    Inv { ix with
        sources := ix.sources.set slot (some s)
        sourceCount := ix.sourceCount + 1
        storedTokens := ix.storedTokens + s.tokenCount
        nextTicket } path kids (S ++ [s]) pending := by
  subst hend
  have hrecords : Records ix.limits ix.nodes path nextTicket (S ++ [s]) :=
    { ordered := by
        refine List.pairwise_append.mpr ⟨h.records.ordered, List.pairwise_singleton _ _, ?_⟩
        intro a ha b hb
        rw [List.mem_singleton.mp hb, hticket]
        exact h.records.ticket_lt a ha
      ticket_lt := by
        intro a ha
        rcases List.mem_append.mp ha with ha | ha
        · exact (h.records.ticket_lt a ha).trans hnext
        · rw [List.mem_singleton.mp ha, hticket]
          exact hnext
      endpoint := by simpa [or_imp, forall_and] using ⟨h.records.endpoint, he⟩
      tokens := by simpa [or_imp, forall_and] using ⟨h.records.tokens, hcount.symm⟩
      bounded := by simpa [or_imp, forall_and] using ⟨h.records.bounded, hbound⟩
      slots_ne := by
        refine List.pairwise_append.mpr ⟨h.records.slots_ne, List.pairwise_singleton _ _, ?_⟩
        intro a ha b hb
        rw [List.mem_singleton.mp hb]
        exact (hothers a ha).1
      endpoints_ne := by
        refine List.pairwise_append.mpr ⟨h.records.endpoints_ne, List.pairwise_singleton _ _, ?_⟩
        intro a ha b hb hab
        rw [List.mem_singleton.mp hb] at hab
        exact (hothers a ha).2 (by rw [hab]) }
  exact
    { limits := h.limits
      shape := h.shape
      nodeSlots := h.nodeSlots
      sourceSlots := by
        rw [List.length_set]
        exact h.sourceSlots
      nodeCount := h.nodeCount
      live_perm := by
        refine (live_set_perm hslot).trans ((h.live_perm.cons s).trans ?_)
        exact (List.perm_append_singleton s S).symm
      sourceCount := by rw [h.sourceCount, List.length_append, List.length_singleton]
      storedTokens := by simp [h.storedTokens]
      records := hrecords
      leaves := by
        intro i n hi hne hk
        rcases h.leaves hi hne hk with ⟨a, ha, hai⟩ | hmem
        · exact .inl ⟨a, List.mem_append_left _ ha, hai⟩
        · rcases List.mem_cons.mp hmem with rfl | hmem
          · exact .inl ⟨s, by simp, rfl⟩
          · exact .inr hmem }

/-- Pruning the replaced paths. Only the first of them may be in nobody's use. -/
theorem prunePaths_ensures {es : List ℕ} (h : Inv ix path kids S es)
    (hhead : ∀ e, es.head? = some e → ∃ n, ix.node e = some n)
    (htail : ∀ e ∈ es.tail, ∃ s ∈ S, s.endpoint = e) :
    Ensures (ix.prunePaths es) (fun _ => False) fun ix' => ∃ kids', Inv ix' path kids' S [] := by
  induction es generalizing ix kids with
  | nil => exact ⟨kids, h⟩
  | cons e es ih =>
    obtain ⟨n, hn⟩ := hhead e rfl
    rw [prunePaths, List.foldlM_cons]
    refine (ensures_expect (pruneFrom_ensures h hn)).bind fun ix' _ hinv => ?_
    obtain ⟨kids', hinv⟩ := hinv
    refine ih hinv (fun e' he' => ?_) fun e' he' => htail e' (List.mem_of_mem_tail he')
    obtain ⟨s, hs, rfl⟩ := htail e' (List.mem_of_mem_head? he')
    exact hinv.records.endpoint s hs

/-! ### The two halves of a registration -/

/-- What the checks of a registration compute for the changes. -/
structure Plan where
  nextTicket : ℕ
  victims : List ℕ
  retainedSources : ℕ
  retainedTokens : ℕ
  requestedTokens : ℕ
  existingParent : ℕ
  existingDepth : ℕ

/-- The checks. -/
def preflight (ix : Index) (source : RequestId) (tokens : List Token) :
    Outcome IndexError Plan := do
  failIf (tokens = []) .emptySource
  failIf (source.generation = 0) .zeroSourceGeneration
  failIf (tokens.length > ix.limits.tokensPerSource)
    (.tokensPerSourceCapacity ix.limits.tokensPerSource tokens.length)
  let nextTicket ← orErr .ticketExhausted (checkedAdd 64 ix.nextTicket 1)
  let victims := ix.victims source tokens
  let (victimCount, victimTokens) ← ix.weighVictims victims
  let retainedSources ← orErr .invariantViolation (checkedSub ix.sourceCount victimCount)
  failIf (retainedSources ≥ ix.limits.sources) (.sourceCapacity ix.limits.sources)
  let retainedTokens ← orErr .invariantViolation (checkedSub ix.storedTokens victimTokens)
  let requestedTokens ← orErr (.storedTokenCapacity ix.limits.storedTokens (2 ^ 64 - 1))
    (checkedAdd 64 retainedTokens tokens.length)
  failIf (requestedTokens > ix.limits.storedTokens)
    (.storedTokenCapacity ix.limits.storedTokens requestedTokens)
  let (existingParent, existingDepth) ← ix.existingPrefix tokens
  let missingNodes ← orPanic (checkedSub tokens.length existingDepth)
  let freeNodes ← orPanic (checkedSub ix.limits.nodes ix.nodeCount)
  failIf (missingNodes > freeNodes)
    (.nodeCapacity ix.limits.nodes (min (ix.nodeCount + missingNodes) (2 ^ 64 - 1)))
  return { nextTicket, victims, retainedSources, retainedTokens, requestedTokens, existingParent,
           existingDepth }

/-- The changes. -/
def replaceVictims (ix : Index) (source : RequestId) (tokens : List Token) (plan : Plan) :
    Outcome IndexError Index := do
  let (sources, victimEndpoints) ← takeVictims ix.sources plan.victims
  let ix := { ix with
    sources, sourceCount := plan.retainedSources, storedTokens := plan.retainedTokens }
  let (endpoint, ix) ← ix.insertPath plan.existingParent (tokens.drop plan.existingDepth)
  let sourceSlot ← orPanic (ix.sources.findIdx? (·.isNone))
  let sourceCount ← orPanic (checkedAdd 64 plan.retainedSources 1)
  let record :=
    { request := source, endpoint, tokenCount := tokens.length, ticket := ix.nextTicket }
  let ix := { ix with
    sources := ix.sources.set sourceSlot (some record)
    sourceCount, storedTokens := plan.requestedTokens, nextTicket := plan.nextTicket }
  ix.prunePaths victimEndpoints

/-- A registration is its checks and then its changes. -/
theorem registerAuthenticatedSource_eq :
    ix.registerAuthenticatedSource source tokens =
      ix.preflight source tokens >>= ix.replaceVictims source tokens := by
  simp only [registerAuthenticatedSource, preflight, replaceVictims, bind_assoc, pure_bind]

/-- What the checks test, in terms of the records that stay. -/
structure Fits (ix : Index) (path : ℕ → List Token) (S : List Source) (source : RequestId)
    (tokens : List Token) : Prop where
  nonempty : tokens ≠ []
  generation_ne : source.generation ≠ 0
  length_le : tokens.length ≤ ix.limits.tokensPerSource
  ticket_lt : ix.nextTicket + 1 < 2 ^ 64
  sources_lt : (S.filter (Survives path source tokens)).length < ix.limits.sources
  storedTokens_le : ((S.filter (Survives path source tokens)).map (·.tokenCount)).sum +
    tokens.length ≤ ix.limits.storedTokens
  nodes_le : ∀ p d, ix.existingPrefix tokens = .ok (p, d) →
    ix.nodeCount + (tokens.length - d) ≤ ix.limits.nodes

/-- What the changes need to know of the plan. -/
structure Planned (ix : Index) (path : ℕ → List Token) (S : List Source) (source : RequestId)
    (tokens : List Token) (plan : Plan) : Prop where
  nextTicket : plan.nextTicket = ix.nextTicket + 1
  victims : plan.victims = ix.victims source tokens
  retainedSources : plan.retainedSources = (S.filter (Survives path source tokens)).length
  retainedTokens :
    plan.retainedTokens = ((S.filter (Survives path source tokens)).map (·.tokenCount)).sum
  requestedTokens : plan.requestedTokens = plan.retainedTokens + tokens.length
  reached : ∃ n rest, ix.node plan.existingParent = some n ∧
    path plan.existingParent ++ rest = tokens ∧
    plan.existingDepth = (path plan.existingParent).length ∧
    ix.nodeCount + rest.length ≤ ix.limits.nodes ∧
    ∀ t, rest.head? = some t → ∀ j m, ix.node j = some m →
      path j ≠ path plan.existingParent ++ [t]

/-- The victims out of the array, and what stays. -/
theorem exists_taken (h : Inv ix path kids S []) (source : RequestId) (tokens : List Token) :
    ∃ vs sources, Victims ix path S source tokens (ix.victims source tokens) vs ∧
      takeVictims ix.sources (ix.victims source tokens) = .ok (sources, vs.map (·.endpoint)) ∧
      ix.weighVictims (ix.victims source tokens) =
        .ok (vs.length, (vs.map (·.tokenCount)).sum) ∧
      ix.sourceCount = vs.length + (S.filter (Survives path source tokens)).length ∧
      ix.storedTokens = (vs.map (·.tokenCount)).sum +
        ((S.filter (Survives path source tokens)).map (·.tokenCount)).sum ∧
      Inv { ix with
          sources
          sourceCount := (S.filter (Survives path source tokens)).length
          storedTokens := ((S.filter (Survives path source tokens)).map (·.tokenCount)).sum }
        path kids (S.filter (Survives path source tokens)) (vs.map (·.endpoint)) := by
  obtain ⟨vs, hvictims⟩ := victims_spec h source tokens
  have hbound : ∀ v ∈ vs, v.tokenCount ≤ maxContextTokens := fun v hv =>
    (h.records.bounded v (hvictims.mem v hv)).trans h.limits.tokens_le
  obtain ⟨sources, htake, hlen, hperm⟩ := takeVictims_eq hvictims.cells hvictims.nodup
  have hinv := inv_takeVictims h hvictims hlen hperm
  have hcount : vs.length ≤ ix.sourceCount := by
    rw [h.sourceCount, ← h.live_perm.length_eq, hperm.length_eq, List.length_append]
    omega
  have hstored : (vs.map (·.tokenCount)).sum ≤ ix.storedTokens := by
    rw [h.storedTokens, ← (h.live_perm.map _).sum_eq, (hperm.map _).sum_eq, List.map_append,
      List.sum_append]
    omega
  have hcount' := hinv.sourceCount
  have hstored' := hinv.storedTokens
  dsimp only at hcount' hstored'
  refine ⟨vs, sources, hvictims, htake,
    weighVictims_eq hvictims.cells hvictims.length_le hbound, by omega, by omega, ?_⟩
  rw [← hcount', ← hstored']
  exact hinv

/-- The checks fail exactly when the registration does not fit. -/
theorem preflight_ensures (h : Inv ix path kids S []) :
    Ensures (ix.preflight source tokens)
      (fun e => e ≠ .invariantViolation ∧ ¬ Fits ix path S source tokens)
      fun plan => Fits ix path S source tokens ∧ Planned ix path S source tokens plan := by
  obtain ⟨vs, sources, -, -, hweigh, hcount, hstored, -⟩ := exists_taken h source tokens
  have hnodes : ix.nodeCount ≤ ix.limits.nodes := by
    rw [h.nodeCount, ← h.nodeSlots]
    exact length_live_le _
  rw [preflight]
  refine ensures_failIf_bind (fun hc => ⟨by simp, fun hf => hf.nonempty hc⟩) fun hne => ?_
  refine ensures_failIf_bind (fun hc => ⟨by simp, fun hf => hf.generation_ne hc⟩) fun hgen => ?_
  refine ensures_failIf_bind (fun hc => ⟨by simp, fun hf => hf.length_le.not_gt hc⟩) fun hsize => ?_
  refine Ensures.bind (ensures_orErr (fun hnone => ⟨by simp, fun hf => ?_⟩) fun _ ht => ht)
    fun ticket _ hticket => ?_
  · rw [checkedAdd, if_pos hf.ticket_lt] at hnone
    simp at hnone
  obtain ⟨hlt, rfl⟩ := checkedAdd_eq_some.mp hticket
  simp only [hweigh,
    checkedSub_of_le (hcount.symm ▸ Nat.le_add_right _ _ : vs.length ≤ ix.sourceCount),
    checkedSub_of_le (hstored.symm ▸ Nat.le_add_right _ _ :
      (vs.map (·.tokenCount)).sum ≤ ix.storedTokens), orErr, ok_bind]
  rw [hcount, hstored]
  simp only [Nat.add_sub_cancel_left]
  refine ensures_failIf_bind (fun hc => ⟨by simp, fun hf => hf.sources_lt.not_ge hc⟩)
    fun hsources => ?_
  refine Ensures.bind (ensures_orErr (fun hnone => ⟨by simp, fun hf => ?_⟩) fun _ hr => hr)
    fun requested _ hreq => ?_
  · -- the limit is itself a machine word
    rw [checkedAdd, if_pos (hf.storedTokens_le.trans_lt h.limits.storedTokens_lt)] at hnone
    simp at hnone
  obtain ⟨-, rfl⟩ := checkedAdd_eq_some.mp hreq
  refine ensures_failIf_bind (fun hc => ⟨by simp, fun hf => hf.storedTokens_le.not_gt hc⟩)
    fun htokens => ?_
  refine ((existingPrefix_ensures h.shape h.nodes_lt).mono (fun _ hf => hf.elim)
    fun _ _ hq => hq).bind ?_
  rintro ⟨p, d⟩ hreach ⟨m, rest, hp, hrest, hd, hfresh⟩
  simp only at hp hrest hd hfresh ⊢
  subst hd
  have hlen : (path p).length + rest.length = tokens.length := by
    rw [← List.length_append, hrest]
  simp only [checkedSub_of_le (by omega : (path p).length ≤ tokens.length),
    checkedSub_of_le hnodes, orPanic, ok_bind]
  refine ensures_failIf_bind (fun hc => ⟨by simp, fun hf => ?_⟩) fun hroom => ?_
  · have := hf.nodes_le p _ hreach
    omega
  refine ensures_pure.mpr ⟨⟨hne, hgen, not_lt.mp hsize, hlt, not_le.mp hsources, not_lt.mp htokens,
    fun p' d' hreach' => ?_⟩, rfl, rfl, rfl, rfl, rfl, m, rest, hp, hrest, rfl, by omega, hfresh⟩
  obtain ⟨rfl, rfl⟩ := Prod.mk.inj (Except.ok.inj (hreach.symm.trans hreach'))
  omega

/-- The changes do what was planned. -/
theorem replaceVictims_ensures {plan : Plan} (h : Inv ix path kids S [])
    (hfits : Fits ix path S source tokens) (hplan : Planned ix path S source tokens plan) :
    Ensures (ix.replaceVictims source tokens plan) (fun _ => False) fun ix' =>
      ∃ path' kids' s, Inv ix' path' kids' (S.filter (Survives path source tokens) ++ [s]) [] ∧
        s.request = source ∧ path' s.endpoint = tokens ∧
        ∀ a ∈ S, Survives path source tokens a → path' a.endpoint = path a.endpoint := by
  obtain ⟨vs, sources, hvictims, htake, -, -, -, hinv₁⟩ := exists_taken h source tokens
  obtain ⟨nextTicket, victims, retainedSources, retainedTokens, requestedTokens, p, d⟩ := plan
  obtain ⟨ht, hv, hrs, hrt, hreq, m, rest, hp, hrest, hd, hroom, hfresh⟩ := hplan
  dsimp only at ht hv hrs hrt hreq hp hrest hd hroom hfresh
  subst ht hv hrs hrt hreq hd
  have hdrop : tokens.drop (path p).length = rest := by rw [← hrest, List.drop_left]
  rw [replaceVictims]
  simp only [htake, ok_bind, hdrop]
  -- the new path
  have hinv₂ := hinv₁.weaken (p :: vs.map (·.endpoint)) fun i hi =>
    .inr (List.mem_cons_of_mem _ hi)
  refine (insertPath_ensures hinv₂ hp hfresh ?_).bind ?_
  · rw [h.nodeSlots, ← h.nodeCount]
    exact hroom
  rintro ⟨e, ix₃⟩ - ⟨path', kids', hinv₃, he, hpath, hframe, hlimits, hsame, hnext⟩
  simp only at hinv₃ he hpath hframe hlimits hsame hnext ⊢
  rw [hrest] at hpath
  -- the new record
  have hfree : (live ix₃.sources).length < ix₃.sources.length := by
    rw [hinv₃.live_perm.length_eq, hinv₃.sourceSlots, hlimits]
    exact hfits.sources_lt
  obtain ⟨slot, hfind, hslot⟩ := exists_findIdx?_isNone hfree
  have hadd : checkedAdd 64 (S.filter (Survives path source tokens)).length 1 =
      some ((S.filter (Survives path source tokens)).length + 1) := by
    refine checkedAdd_eq_some.mpr ⟨?_, rfl⟩
    have := h.limits.sources_lt
    have := hfits.sources_lt
    omega
  simp only [hfind, hadd, orPanic, ok_bind]
  have hend : ∀ a ∈ S, path' a.endpoint = path a.endpoint := fun a ha => by
    obtain ⟨n, hn⟩ := h.records.endpoint a ha
    exact (hframe _ n hn).1
  have hinv₄ := inv_addSource
    (s :=
      { request := source, endpoint := e, tokenCount := tokens.length, ticket := ix₃.nextTicket })
    hinv₃ hslot he rfl (by rw [hpath]) rfl (by rw [hnext]; simp : _ < ix.nextTicket + 1)
    (by rw [hlimits]; exact hfits.length_le) fun a ha => by
      obtain ⟨ha, hsurv⟩ := List.mem_filter.mp ha
      rw [hend a ha, hpath]
      simpa [Survives] using hsurv
  rw [hinv₃.sourceCount, hinv₃.storedTokens] at hinv₄
  refine (prunePaths_ensures hinv₄ (fun i hi => ?_) fun i hi => ?_).mono (fun _ hf => hf.elim) ?_
  · obtain ⟨v, hv, rfl⟩ := List.mem_map.mp (List.mem_of_mem_head? hi)
    obtain ⟨n, hn⟩ := h.records.endpoint v (hvictims.mem v hv)
    exact (hframe _ n hn).2
  · -- a second victim ends where the new record does
    rw [← List.map_tail] at hi
    obtain ⟨v, hv, rfl⟩ := List.mem_map.mp hi
    obtain ⟨n, hn⟩ := h.records.endpoint v (hvictims.mem v (List.mem_of_mem_tail hv))
    obtain ⟨n', hn'⟩ := (hframe _ n hn).2
    obtain ⟨m', hm'⟩ := he
    refine ⟨_, List.mem_append_right _ (List.mem_singleton_self _), ?_⟩
    refine hinv₃.shape.path_inj hm' hn' ?_
    rw [hpath, (hframe _ n hn).1, hvictims.tail v hv]
  · rintro ix' - ⟨kids'', hinv⟩
    exact ⟨path', kids'', _, hinv, rfl, hpath, fun a ha _ => hend a ha⟩

/-- A registration that does not fit changes nothing; one that fits replaces the victims by the new
record. -/
theorem registerAuthenticatedSource_ensures (h : Inv ix path kids S []) :
    Ensures (ix.registerAuthenticatedSource source tokens)
      (fun e => e ≠ .invariantViolation ∧ ¬ Fits ix path S source tokens) fun ix' =>
      Fits ix path S source tokens ∧
      ∃ path' kids' s, Inv ix' path' kids' (S.filter (Survives path source tokens) ++ [s]) [] ∧
        s.request = source ∧ path' s.endpoint = tokens ∧
        ∀ a ∈ S, Survives path source tokens a → path' a.endpoint = path a.endpoint := by
  rw [registerAuthenticatedSource_eq]
  refine (preflight_ensures h).bind fun plan _ ⟨hfits, hplan⟩ => ?_
  exact (replaceVictims_ensures h hfits hplan).mono (fun _ hf => hf.elim)
    fun _ _ hix => ⟨hfits, hix⟩

end Index

end RadixPrefix

end Ferric
