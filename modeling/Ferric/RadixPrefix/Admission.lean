import Ferric.Lib.Action
import Ferric.Lib.Prefixes
import Ferric.RadixPrefix.Refinement

/-!
# When a registration is admitted

A registration is checked against counters: how many records there are, how many tokens they have,
and how many nodes. The records that it replaces are taken off the first two before the check, but
their paths still count as nodes. `Admissible` states the check for the list of registrations that
the index stands for, where the nodes are the distinct prefixes of the prompts.

`registerInPlace` performs the registration as it is written, one assignment after the other.
Everything that can fail with an error comes before the first of them.

## Main results

* `Index.nodeCount_eq_card` — the node counter counts prefixes
* `Index.fits_iff_admissible` — the check on the counters is the check on the list
* `Index.registration_exact`
-/

namespace Ferric

namespace RadixPrefix

open Spec

variable {path : ℕ → List Token} {kids : ℕ → List ℕ} {S : List Source} {ix : Index}
  {L : Registry} {source : RequestId} {tokens : List Token}

/-- The registrations that stay when this one is made. -/
def Registry.retained (L : Registry) (source : RequestId) (tokens : List Token) : Registry :=
  L.filter fun e => e.request.slot ≠ source.slot ∧ e.tokens ≠ tokens

/-- What the index asks of a registration. -/
structure Admissible (ix : Index) (L : Registry) (source : RequestId) (tokens : List Token) :
    Prop where
  nonempty : tokens ≠ []
  length_le : tokens.length ≤ ix.limits.tokensPerSource
  generation_ne : source.generation ≠ 0
  ticket_lt : ix.nextTicket < 2 ^ 64 - 1
  sources_le : (L.retained source tokens).length + 1 ≤ ix.limits.sources
  storedTokens_le : ((L.retained source tokens).map (·.tokens.length)).sum + tokens.length ≤
    ix.limits.storedTokens
  /-- The prompts that are replaced still count here. -/
  nodes_le : (prefixes (tokens :: L.map (·.tokens))).card ≤ ix.limits.nodes - 1

/-- At most two registrations are replaced. -/
theorem Registry.length_le_retained
    (h : L.Pairwise fun a b => a.request.slot ≠ b.request.slot ∧ a.tokens ≠ b.tokens) :
    L.length ≤ (L.retained source tokens).length + 2 := by
  have hslot : (L.filter fun e => e.request.slot = source.slot).length ≤ 1 := by
    have hnd : ((L.filter fun e => e.request.slot = source.slot).map fun _ => ()).Nodup := by
      refine List.pairwise_map.mpr ((h.filter _).imp_of_mem fun ha hb hab => ?_)
      simp only [List.mem_filter, decide_eq_true_eq] at ha hb
      exact absurd (ha.2.trans hb.2.symm) hab.1
    simpa using hnd.length_le_card
  have htokens : (L.filter fun e => e.tokens = tokens).length ≤ 1 := by
    have hnd : ((L.filter fun e => e.tokens = tokens).map fun _ => ()).Nodup := by
      refine List.pairwise_map.mpr ((h.filter _).imp_of_mem fun ha hb hab => ?_)
      simp only [List.mem_filter, decide_eq_true_eq] at ha hb
      exact absurd (ha.2.trans hb.2.symm) hab.2
    simpa using hnd.length_le_card
  have hsplit : L.length ≤ (L.retained source tokens).length +
      (L.filter fun e => e.request.slot = source.slot).length +
      (L.filter fun e => e.tokens = tokens).length := by
    clear h hslot htokens
    rw [Registry.retained]
    induction L with
    | nil => simp
    | cons e L ih =>
      by_cases hs : e.request.slot = source.slot <;> by_cases ht : e.tokens = tokens <;>
        simp [hs, ht] at ih ⊢ <;> omega
  omega

namespace Index

/-! ### Counting nodes -/

/-- There is a node for every prefix of a prompt, and the root. -/
theorem nodeCount_eq_card (h : Represents ix L) :
    ix.nodeCount = (prefixes (L.map (·.tokens))).card + 1 := by
  have hwf := h.wellFormed
  let occupied := (Finset.range ix.nodes.length).filter fun i => (ix.node i).isSome
  have hocc : ∀ i, i ∈ occupied ↔ ∃ n, ix.node i = some n := by
    intro i
    rw [Finset.mem_filter, Finset.mem_range, ← Option.isSome_iff_exists]
    refine ⟨And.right, fun hi => ⟨?_, hi⟩⟩
    obtain ⟨n, hn⟩ := Option.isSome_iff_exists.mp hi
    exact lt_length_of_cell hn
  have hcard : occupied.card = ix.nodeCount := by
    rw [hwf.nodeCount_eq]
    show ((Finset.range ix.nodes.length).filter fun i => (cell ix.nodes i).isSome).card = _
    rw [card_filter_cell]
  have hinj : Set.InjOn ix.pathTo occupied := fun i hi j hj hij =>
    hwf.nodes_bijOn.injOn ((hocc i).mp hi) ((hocc j).mp hj) hij
  have himage : occupied.image ix.pathTo = insert [] (prefixes (L.map (·.tokens))) := by
    ext w
    rw [Finset.mem_image, Finset.mem_insert, mem_prefixes]
    have hmem : (∃ i ∈ occupied, ix.pathTo i = w) ↔ w = [] ∨ ∃ e ∈ L, w <+: e.tokens := by
      rw [← Set.mem_ofPred_eq (p := fun w => w = [] ∨ ∃ e ∈ L, w <+: e.tokens),
        ← hwf.nodes_bijOn.image_eq]
      simp only [hocc, Set.mem_image, Set.mem_ofPred_eq]
    rw [hmem]
    by_cases hw : w = [] <;> simp [hw]
  rw [← hcard, ← Finset.card_image_of_injOn hinj, himage, Finset.card_insert_of_notMem]
  simp [mem_prefixes]

/-- The prefixes of the new prompt that have no node are the ones beyond the node reached. -/
theorem take_mem_prefixes_iff (h : Inv ix path kids S []) {p d : ℕ}
    (hreach : ix.existingPrefix tokens = .ok (p, d)) {k : ℕ} (hpos : 0 < k)
    (hk : k ≤ tokens.length) :
    tokens.take k ∈ prefixes (S.map fun s => path s.endpoint) ↔ k ≤ d := by
  obtain ⟨m, rest, hp, hrest, hd, hfresh⟩ :=
    (existingPrefix_ensures h.shape h.nodes_lt).of_ok hreach
  dsimp only at hp hrest hd hfresh
  rw [mem_prefixes]
  constructor
  · rintro ⟨-, w, hw, hpre⟩
    obtain ⟨s, hs, rfl⟩ := List.mem_map.mp hw
    by_contra hlt
    -- the node after the one reached would be there
    cases rest with
    | nil =>
      rw [List.append_nil] at hrest
      rw [← hrest] at hk
      omega
    | cons t rest =>
      have hnext : path p ++ [t] <+: tokens.take k := by
        rw [← hrest, List.prefix_take_iff]
        refine ⟨⟨rest, by simp⟩, ?_⟩
        rw [List.length_append, List.length_singleton]
        omega
      obtain ⟨n, hn⟩ := h.records.endpoint s hs
      obtain ⟨j, c, hj, hpath⟩ := h.shape.exists_of_isPrefix hn (hnext.trans hpre)
      exact hfresh t rfl j c hj hpath
  · intro hle
    have hlen : (tokens.take k).length = k := by rw [List.length_take, min_eq_left hk]
    have htake : tokens.take k <+: path p := by
      rw [← hrest, List.take_append_of_le_length (by omega)]
      exact List.take_prefix _ _
    have hroot : p ≠ rootNode := by
      rintro rfl
      rw [(h.shape.path_eq_nil_iff hp).mpr rfl] at hd
      rw [hd, List.length_nil] at hle
      omega
    obtain ⟨s, hs, hbelow⟩ := h.exists_below hp hroot
    refine ⟨fun hnil => ?_, _, List.mem_map_of_mem hs, htake.trans hbelow⟩
    rw [hnil, List.length_nil] at hlen
    omega

/-- The check on the counters is the check on the list. -/
theorem fits_iff_admissible (h : Inv ix path kids S []) :
    Fits ix path S source tokens ↔ Admissible ix (S.map (registration path)) source tokens := by
  have hretained : Registry.retained (S.map (registration path)) source tokens =
      (S.filter (Survives path source tokens)).map (registration path) := by
    rw [Registry.retained, List.filter_map]
    rfl
  have hlength : (Registry.retained (S.map (registration path)) source tokens).length =
      (S.filter (Survives path source tokens)).length := by
    rw [hretained, List.length_map]
  have hsum : ((Registry.retained (S.map (registration path)) source tokens).map
      (·.tokens.length)).sum =
        ((S.filter (Survives path source tokens)).map (·.tokenCount)).sum := by
    rw [hretained, List.map_map]
    congr 1
    exact List.map_congr_left fun s hs => h.records.tokens s (List.mem_filter.mp hs).1
  have hprompts : (S.map (registration path)).map (·.tokens) = S.map fun s => path s.endpoint := by
    rw [List.map_map]
    rfl
  have hcount := nodeCount_eq_card ⟨path, kids, S, h, rfl⟩
  rw [hprompts] at hcount
  have hwalk : Ensures (ix.existingPrefix tokens) _ _ := existingPrefix_ensures h.shape h.nodes_lt
  obtain ⟨⟨p, d⟩, hreach, -⟩ := hwalk.exists_ok
  have hcard := card_prefixes_cons fun k => take_mem_prefixes_iff h hreach
  constructor
  · rintro ⟨hne, hgen, hlen, hticket, hsources, hstored, hnodes⟩
    refine ⟨hne, hlen, hgen, by omega, by rw [hlength]; exact hsources, by rw [hsum]; exact hstored,
      ?_⟩
    have := hnodes p d hreach
    rw [hprompts, hcard]
    omega
  · rintro ⟨hne, hlen, hgen, hticket, hsources, hstored, hnodes⟩
    rw [hlength] at hsources
    rw [hsum] at hstored
    rw [hprompts, hcard] at hnodes
    refine ⟨hne, hgen, hlen, by omega, hsources, hstored, fun p' d' hreach' => ?_⟩
    obtain ⟨-, rfl⟩ := Prod.mk.inj (Except.ok.inj (hreach.symm.trans hreach'))
    have := h.limits.two_le_nodes
    omega

/-! ### Assignment by assignment -/

/-- `self.sources[slot].take()` for one victim. -/
def takeVictimInPlace (endpoints : List ℕ) (slot : ℕ) : Action Index IndexError (List ℕ) := do
  let entry ← Action.query fun ix => orPanic (cell ix.sources slot)
  modify fun ix => { ix with sources := ix.sources.set slot none }
  return endpoints ++ [entry.endpoint]

/-- Link in one missing node. -/
def insertInPlace (endpoint : ℕ) (token : Token) : Action Index IndexError ℕ := do
  let (endpoint, ix) ← Action.query fun ix => expect (ix.insertChild endpoint token)
  modify fun _ => ix
  return endpoint

/-- `register_authenticated_source` as it is written. -/
def registerInPlace (source : RequestId) (tokens : List Token) : Action Index IndexError Unit := do
  let plan ← Action.query fun ix => ix.preflight source tokens
  let victimEndpoints ← plan.victims.foldlM takeVictimInPlace []
  modify fun ix => { ix with sourceCount := plan.retainedSources }
  modify fun ix => { ix with storedTokens := plan.retainedTokens }
  let endpoint ← (tokens.drop plan.existingDepth).foldlM insertInPlace plan.existingParent
  let sourceSlot ← Action.query fun ix => orPanic (ix.sources.findIdx? (·.isNone))
  modify fun ix => { ix with sources := ix.sources.set sourceSlot (some
    { request := source, endpoint, tokenCount := tokens.length, ticket := ix.nextTicket }) }
  let sourceCount ← Action.query fun _ => orPanic (checkedAdd 64 plan.retainedSources 1)
  modify fun ix => { ix with sourceCount }
  modify fun ix => { ix with storedTokens := plan.requestedTokens }
  modify fun ix => { ix with nextTicket := plan.nextTicket }
  victimEndpoints.foldlM (fun _ endpoint => Action.call fun ix => expect (ix.pruneFrom endpoint)) ()

theorem exec_takeVictims {slots : List ℕ} {sources : List (Option Source)} {endpoints : List ℕ}
    (h : takeVictims ix.sources slots = .ok (sources, endpoints)) :
    (slots.foldlM takeVictimInPlace []).exec ix = (.ok endpoints, { ix with sources }) := by
  refine @exec_foldlM _ _ _ _ _ takeVictim _ Prod.snd
    (fun c : List (Option Source) × List ℕ => { ix with sources := c.1 }) ?_ _ _ _ h
  rintro ⟨sources, es⟩ slot c' hstep
  obtain ⟨entry, hentry, hc⟩ := bind_eq_ok.mp hstep
  obtain rfl := Except.ok.inj hc
  simp only [takeVictimInPlace, exec_bind, exec_query, hentry, exec_modify, exec_pure]

theorem exec_insertPath {e e' : ℕ} {ix' : Index} (h : ix.insertPath e tokens = .ok (e', ix')) :
    (tokens.foldlM insertInPlace e).exec ix = (.ok e', ix') := by
  refine @exec_foldlM _ _ _ _ _
    (fun (c : ℕ × Index) token => expect (c.2.insertChild c.1 token)) _ Prod.fst Prod.snd ?_ _ _ _ h
  rintro ⟨e, ix⟩ token c' hstep
  simp only [insertInPlace, exec_bind, exec_query, hstep, exec_modify, exec_pure]

theorem exec_prunePaths {es : List ℕ} {ix' : Index} (h : ix.prunePaths es = .ok ix') :
    (es.foldlM (fun _ e => Action.call fun ix => expect (ix.pruneFrom e)) () :
      Action Index IndexError Unit).exec ix = (.ok (), ix') :=
  @exec_foldlM _ _ _ _ _ (fun (ix : Index) e => expect (ix.pruneFrom e)) _ (fun _ => ()) id
    (fun _ _ _ hstep => exec_call hstep) _ _ _ h

/-- The assignments make the registration. -/
theorem registerInPlace_exec (h : Inv ix path kids S []) :
    (registerInPlace source tokens).exec ix =
      match ix.registerAuthenticatedSource source tokens with
      | .ok ix' => (.ok (), ix')
      | .error f => (.error f, ix) := by
  rw [registerInPlace, exec_bind, exec_query, registerAuthenticatedSource_eq]
  cases hpre : ix.preflight source tokens with
  | error f => rfl
  | ok plan =>
    obtain ⟨hfits, hplan⟩ := (preflight_ensures h).of_ok hpre
    obtain ⟨ix', hix', -⟩ := (replaceVictims_ensures h hfits hplan).exists_ok
    rw [ok_bind, hix']
    rw [replaceVictims] at hix'
    obtain ⟨⟨sources, endpoints⟩, htake, hix'⟩ := bind_eq_ok.mp hix'
    obtain ⟨⟨endpoint, ix₂⟩, hinsert, hix'⟩ := bind_eq_ok.mp hix'
    obtain ⟨slot, hslot, hix'⟩ := bind_eq_ok.mp hix'
    obtain ⟨count, hcount, hprune⟩ := bind_eq_ok.mp hix'
    dsimp only at hslot hprune
    simp only [exec_bind, exec_takeVictims htake, exec_modify, exec_insertPath hinsert, exec_query,
      hslot, hcount, exec_prunePaths hprune]

/-- **Registrations.** Whatever was called before, a registration is made if and only if it is
admissible, no more than two others are given up for it, and a registration that is not made leaves
the index as it was. -/
theorem registration_exact (h : calls.Reachable (ix, L)) (source : RequestId)
    (tokens : List Token) :
    ((∃ ix', ix.registerAuthenticatedSource source tokens = .ok ix') ↔
      Admissible ix L source tokens) ∧
    L.length ≤ (L.retained source tokens).length + 2 ∧
    Total (ix.registerAuthenticatedSource source tokens) ∧
    (registerInPlace source tokens).exec ix =
      (match ix.registerAuthenticatedSource source tokens with
        | .ok ix' => (.ok (), ix')
        | .error f => (.error f, ix)) := by
  have hrep : Represents ix L := represents_of_reachable h
  refine ⟨?_, Registry.length_le_retained hrep.pairwise,
    hrep.register.mono (fun _ _ => trivial) fun _ _ _ => trivial, ?_⟩
  · obtain ⟨path, kids, S, hinv, rfl⟩ := hrep
    rw [← fits_iff_admissible hinv]
    constructor
    · rintro ⟨ix', hok⟩
      exact ((registerAuthenticatedSource_ensures hinv).of_ok hok).1
    · intro hfits
      have hcall : Ensures (ix.registerAuthenticatedSource source tokens) _ _ :=
        registerAuthenticatedSource_ensures hinv
      rcases hcall.cases with ⟨ix', hok, -⟩ | ⟨e, -, -, hnot⟩
      · exact ⟨ix', hok⟩
      · exact absurd hfits hnot
  · obtain ⟨path, kids, S, hinv, rfl⟩ := hrep
    exact registerInPlace_exec hinv

/-- A third prompt replaces one of the two: there is a node for its one new prefix, but not for
two. -/
theorem registration_exact_twoPrompts :
    calls.Reachable (twoPrompts, [⟨⟨7, 1⟩, [1, 2, 3]⟩, ⟨⟨5, 1⟩, [1, 2, 4]⟩]) ∧
      (∃ ix', twoPrompts.registerAuthenticatedSource ⟨7, 2⟩ [1, 2, 4, 8] = .ok ix') ∧
      ¬ ∃ ix', twoPrompts.registerAuthenticatedSource ⟨7, 2⟩ [1, 2, 8, 8] = .ok ix' := by
  refine ⟨reachable_twoPrompts,
    (registration_exact reachable_twoPrompts ⟨7, 2⟩ [1, 2, 4, 8]).1.mpr ?_, fun hok => ?_⟩
  · refine ⟨by decide, by decide, by decide, by decide, by decide, by decide, by decide +kernel⟩
  · have := ((registration_exact reachable_twoPrompts ⟨7, 2⟩ [1, 2, 8, 8]).1.mp hok).nodes_le
    exact absurd this (by decide +kernel)

end Index

end RadixPrefix

end Ferric
