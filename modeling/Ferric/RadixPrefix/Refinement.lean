import Ferric.Lib.System
import Ferric.RadixPrefix.Lookup
import Mathlib.Data.Set.Function

/-!
# The index refines the registry

Any sequence of registrations, invalidations and evictions is run twice: on the index, and on the
list of registrations that it stands for. `Represents` relates the two, every call preserves it,
and what an index that represents a list looks like and answers is then read off.

## Main results

* `Index.refines_of_reachable` — the index holds the list, and its replies are the list's
* `Index.wellFormed_of_reachable` — nodes are the prefixes of the registered prompts, one by one,
  and no call can fail because of the index itself
-/

namespace Ferric

namespace RadixPrefix

open Spec

/-- The calls of the index. -/
inductive Call where
  | register (source : RequestId) (tokens : List Token)
  | invalidate (source : RequestId)
  | evict

/-- An index and the registry it stands for, from `Limits.new` and `Index.new` on. A rejected
registration changes nothing. -/
def calls : System (Index × Registry) Call where
  init s := s.2 = [] ∧ ∃ nodes tokensPerSource sources storedTokens limits,
    Limits.new nodes tokensPerSource sources storedTokens = .ok limits ∧ s.1 = .new limits
  step s call s' :=
    match call with
    | .register source tokens =>
      (s.1.registerAuthenticatedSource source tokens = .ok s'.1 ∧
        s'.2 = s.2.register source tokens) ∨
      ((∃ e, s.1.registerAuthenticatedSource source tokens = .error (.err e)) ∧ s' = s)
    | .invalidate source =>
      (∃ found, s.1.invalidateSource source = .ok (found, s'.1)) ∧ s'.2 = s.2.invalidate source
    | .evict => (∃ evicted, s.1.evictOldest = .ok (evicted, s'.1)) ∧ s'.2 = s.2.tail

variable {path : ℕ → List Token} {kids : ℕ → List ℕ} {S : List Source} {ix ix' : Index}
  {L : Registry} {source : RequestId} {tokens : List Token}

/-- The index holds the trie of the list. -/
def Represents (ix : Index) (L : Registry) : Prop :=
  ∃ path kids S, Inv ix path kids S [] ∧ L = S.map (registration path)

/-! ### The calls -/

theorem Represents.register (h : Represents ix L) :
    Ensures (ix.registerAuthenticatedSource source tokens) (· ≠ .invariantViolation) fun ix' =>
      Represents ix' (L.register source tokens) := by
  obtain ⟨path, kids, S, hinv, rfl⟩ := h
  refine (Index.registerAuthenticatedSource_ensures hinv).mono (fun _ he => he.1) ?_
  rintro ix' - ⟨-, path', kids', s, hinv', rfl, rfl, hsame⟩
  refine ⟨path', kids', _, hinv', ?_⟩
  rw [Registry.register, List.filter_map, List.map_append]
  congr 1
  refine List.map_congr_left fun a ha => ?_
  obtain ⟨ha, hsurv⟩ := List.mem_filter.mp ha
  rw [registration, registration, hsame a ha hsurv]

theorem Represents.invalidate (h : Represents ix L) (source : RequestId) :
    Ensures (ix.invalidateSource source) (fun _ => False) fun r =>
      (r.1 ↔ ∃ e ∈ L, e.request = source) ∧ Represents r.2 (L.invalidate source) := by
  obtain ⟨path, kids, S, hinv, rfl⟩ := h
  cases hfind : ix.sources.findIdx? (·.any (·.request = source)) with
  | none =>
    have hno : ∀ s ∈ S, s.request ≠ source := fun s hs => by
      simpa using forall_of_findIdx?_eq_none hfind s (hinv.live_perm.mem_iff.mpr hs)
    rw [Index.invalidateSource, hfind]
    refine ⟨by simpa [registration] using hno, path, kids, S, hinv, ?_⟩
    rw [Registry.invalidate, List.filter_map, List.filter_eq_self.mpr]
    exact fun s hs => decide_eq_true (hno s hs)
  | some slot =>
    obtain ⟨s, hs, hreq⟩ := exists_of_findIdx?_eq_some hfind
    replace hreq : s.request = source := by simpa using hreq
    have hmem : s ∈ S := hinv.mem_iff.mpr ⟨slot, hs⟩
    rw [Index.invalidateSource, hfind]
    refine (Index.removeSourceSlot_ensures hinv hs).bind ?_
    rintro ix' - ⟨kids', hinv'⟩
    refine ensures_pure.mpr ⟨by simpa [registration] using ⟨s, hmem, hreq⟩, path, kids', _,
      hinv', ?_⟩
    -- no other record has the request
    rw [Registry.invalidate, List.filter_map, hinv.records.nodup.erase_eq_filter]
    congr 1
    refine List.filter_congr fun a ha => ?_
    have : a.request = source ↔ a = s := by
      refine ⟨fun har => ?_, fun has => has ▸ hreq⟩
      exact hinv.eq_of_slot ha hmem (by rw [har, hreq])
    rw [Bool.eq_iff_iff]
    simp [registration, this]

theorem Represents.evict (h : Represents ix L) :
    Ensures ix.evictOldest (fun _ => False) fun r =>
      r.1 = L.head?.map (·.request) ∧ Represents r.2 L.tail := by
  obtain ⟨path, kids, S, hinv, rfl⟩ := h
  rw [Index.evictOldest]
  obtain ⟨hnone, hnil⟩ | ⟨⟨slot, s⟩, hmem, hsome, hleast⟩ :=
    minBy?_spec (fun e : ℕ × Source => toLex (e.2.ticket, e.2.request)) (slots ix.sources)
  · obtain rfl : S = [] := by
      refine List.eq_nil_iff_forall_not_mem.mpr fun s hs => ?_
      obtain ⟨slot, hs⟩ := hinv.mem_iff.mp hs
      have := mem_slots.mpr hs
      simp [hnil] at this
    rw [Index.oldest, hnone]
    simp only [hinv.sourceCount, List.length_nil, ne_eq, not_true_eq_false, if_false]
    exact ⟨rfl, path, kids, [], hinv, rfl⟩
  · have hcell := mem_slots.mp hmem
    have hs : s ∈ S := hinv.mem_iff.mpr ⟨slot, hcell⟩
    have hticket : ∀ a ∈ S, s.ticket ≤ a.ticket := by
      intro a ha
      obtain ⟨k, hk⟩ := hinv.mem_iff.mp ha
      rcases Prod.Lex.le_iff.mp (hleast (k, a) (mem_slots.mpr hk)) with hlt | ⟨heq, -⟩
      · exact le_of_lt hlt
      · exact le_of_eq heq
    obtain ⟨a, S, rfl⟩ := List.exists_cons_of_ne_nil (List.ne_nil_of_mem hs)
    -- the record with the least ticket is the first one
    obtain rfl : s = a := by
      rcases List.mem_cons.mp hs with hsa | hs
      · exact hsa
      · have hlt := (List.pairwise_cons.mp hinv.records.ordered).1 s hs
        exact absurd (hticket a List.mem_cons_self) (by omega)
    rw [Index.oldest, hsome]
    refine (Index.removeSourceSlot_ensures hinv hcell).bind ?_
    rintro ix' - ⟨kids', hinv'⟩
    rw [List.erase_cons_head] at hinv'
    exact ensures_pure.mpr ⟨rfl, path, kids', S, hinv', rfl⟩

theorem represents_of_reachable {s : Index × Registry} (h : calls.Reachable s) :
    Represents s.1 s.2 := by
  refine System.Reachable.induction (I := fun s => Represents s.1 s.2) ?_ ?_ h
  · rintro ⟨ix, L⟩ ⟨rfl, nodes, tokensPerSource, sources, storedTokens, limits, hnew, rfl⟩
    exact ⟨_, _, [], inv_new (Limits.new_ensures.of_ok hnew), rfl⟩
  · rintro ⟨ix, L⟩ call ⟨ix', L'⟩ - hrep hstep
    cases call with
    | register source tokens =>
      rcases hstep with ⟨hok, rfl⟩ | ⟨-, hsame⟩
      · exact hrep.register.of_ok hok
      · rwa [hsame]
    | invalidate source =>
      obtain ⟨⟨found, hok⟩, rfl⟩ := hstep
      exact ((hrep.invalidate source).of_ok hok).2
    | evict =>
      obtain ⟨⟨evicted, hok⟩, rfl⟩ := hstep
      exact (hrep.evict.of_ok hok).2

theorem Represents.registrations_eq (h : Represents ix L) : ix.registrations = L := by
  obtain ⟨path, kids, S, hinv, rfl⟩ := h
  exact hinv.registrations_eq

theorem Represents.pairwise (h : Represents ix L) :
    L.Pairwise fun a b => a.request.slot ≠ b.request.slot ∧ a.tokens ≠ b.tokens := by
  obtain ⟨path, kids, S, hinv, rfl⟩ := h
  rw [List.pairwise_map]
  refine (hinv.records.slots_ne.and hinv.records.endpoints_ne).imp_of_mem ?_
  rintro a b ha hb ⟨hslot, hend⟩
  obtain ⟨n, hn⟩ := hinv.records.endpoint a ha
  obtain ⟨m, hm⟩ := hinv.records.endpoint b hb
  exact ⟨hslot, fun hpath => hend (hinv.shape.path_inj hn hm hpath)⟩

theorem Represents.lookup (h : Represents ix L) (query : List Token) {p : ℕ} (hp : p ≠ 0) :
    ∃ r, ix.longestPageAlignedMatch query p = .ok r ∧
      (r = none ↔ ∀ e ∈ L, ¬ Agrees e query p) ∧
      ∀ m, r = some m → IsLongestMatch L query p m := by
  obtain ⟨path, kids, S, hinv, rfl⟩ := h
  exact Index.longestPageAlignedMatch_spec hinv hp

/-! ### The representation -/

/-- The index is exactly the trie of the list. -/
structure WellFormed (ix : Index) (L : Registry) : Prop where
  /-- Nodes are the distinct prefixes of the registered prompts, one by one. -/
  nodes_bijOn : Set.BijOn ix.pathTo {i | ∃ n, ix.node i = some n}
    {w | w = [] ∨ ∃ e ∈ L, w <+: e.tokens}
  nodeCount_eq : ix.nodeCount = ix.nodes.countP Option.isSome
  sourceCount_eq : ix.sourceCount = ix.sources.countP Option.isSome ∧ ix.sourceCount = L.length
  storedTokens_eq : ix.storedTokens = (L.map (·.tokens.length)).sum
  depth_eq : ∀ i n, ix.node i = some n → n.depth = (ix.pathTo i).length
  /-- A node's chain of siblings ends, and visits its children, which have different tokens. -/
  siblings : ∀ i n, ix.node i = some n → ∃ children,
    Chain (sibling ix.nodes) n.firstChild children ∧ children.Nodup ∧
    (children.Pairwise fun j k => (ix.node j).map (·.token) ≠ (ix.node k).map (·.token)) ∧
    ∀ j, j ∈ children ↔ ∃ m, ix.node j = some m ∧ j ≠ rootNode ∧ m.parent = i
  /-- Without registrations only the root is left. -/
  nodeCount_of_nil : L = [] → ix.nodeCount = 1

theorem Represents.wellFormed (h : Represents ix L) : WellFormed ix L := by
  obtain ⟨path, kids, S, hinv, rfl⟩ := h
  have hpath : ∀ {i n}, ix.node i = some n → ix.pathTo i = path i := fun hi => hinv.pathTo_eq hi
  have hbij : Set.BijOn ix.pathTo {i | ∃ n, ix.node i = some n}
      {w | w = [] ∨ ∃ e ∈ S.map (registration path), w <+: e.tokens} := by
    refine ⟨?_, ?_, ?_⟩
    · rintro i ⟨n, hi⟩
      rw [hpath hi]
      by_cases hroot : i = rootNode
      · exact .inl ((hinv.shape.path_eq_nil_iff hi).mpr hroot)
      · obtain ⟨s, hs, hpre⟩ := hinv.exists_below hi hroot
        exact .inr ⟨_, List.mem_map_of_mem hs, hpre⟩
    · rintro i ⟨n, hi⟩ j ⟨m, hj⟩ hij
      rw [hpath hi, hpath hj] at hij
      exact hinv.shape.path_inj hi hj hij
    · rintro w (rfl | ⟨e, he, hpre⟩)
      · obtain ⟨n, hn⟩ := hinv.shape.root
        exact ⟨rootNode, ⟨n, hn⟩, by rw [hpath hn, hinv.shape.tree.path_root]⟩
      · obtain ⟨s, hs, rfl⟩ := List.mem_map.mp he
        obtain ⟨m, hm⟩ := hinv.records.endpoint s hs
        obtain ⟨j, c, hj, rfl⟩ := hinv.shape.exists_of_isPrefix hm hpre
        exact ⟨j, ⟨c, hj⟩, hpath hj⟩
  refine ⟨hbij, ?_, ⟨?_, ?_⟩, ?_, ?_, ?_, ?_⟩
  · rw [hinv.nodeCount, length_live]
  · rw [hinv.sourceCount, ← hinv.live_perm.length_eq, length_live]
  · rw [hinv.sourceCount, List.length_map]
  · rw [hinv.storedTokens, List.map_map]
    congr 1
    exact List.map_congr_left fun s hs => (hinv.records.tokens s hs).symm
  · intro i n hi
    rw [hpath hi, hinv.shape.depth hi]
  · intro i n hi
    refine ⟨kids i, hinv.shape.chain hi, hinv.shape.nodup hi, ?_, fun j => hinv.shape.mem_kids hi⟩
    -- children with the same token would have the same path
    refine (hinv.shape.nodup hi).imp_of_mem ?_
    intro j k hj hk hne htoken
    obtain ⟨m, hm, -⟩ := hinv.shape.exists_of_mem_kids hi hj
    obtain ⟨c, hc, -⟩ := hinv.shape.exists_of_mem_kids hi hk
    simp only [Index.node, hm, hc, Option.map_some, Option.some.injEq] at htoken
    have hmpath := (hinv.shape.kid_iff_path hi hm).mp ⟨hj, rfl⟩
    have hcpath := (hinv.shape.kid_iff_path hi hc).mp ⟨hk, rfl⟩
    exact hne (hinv.shape.path_inj hm hc (by rw [hmpath, hcpath, htoken]))
  · intro hnil
    obtain rfl := List.map_eq_nil_iff.mp hnil
    -- a node other than the root would lie above a record
    have hroot : ∀ i n, ix.node i = some n → i = rootNode := by
      intro i n hi
      by_contra hne
      obtain ⟨s, hs, -⟩ := hinv.exists_below hi hne
      simp at hs
    obtain ⟨n, hn⟩ := hinv.shape.root
    have hrest : live (ix.nodes.set rootNode none) = [] := by
      refine List.eq_nil_iff_forall_not_mem.mpr fun m hm => ?_
      obtain ⟨i, hi⟩ := mem_live.mp hm
      by_cases hir : i = rootNode
      · rw [hir, cell_set_self (lt_length_of_cell hn)] at hi
        simp at hi
      · rw [cell_set_of_ne hir] at hi
        exact hir (hroot i m hi)
    rw [hinv.nodeCount, (live_perm_of_cell hn).length_eq, hrest]
    rfl

/-! ### Runs -/

namespace Index

/-- After any sequence of calls the index is the list of registrations: reading it back gives the
list, each call changes it as it changes the list and replies what the list replies, and a lookup
finds the longest match of the list. -/
theorem refines_of_reachable (h : calls.Reachable (ix, L)) :
    ix.registrations = L ∧
    (L.Pairwise fun a b => a.request.slot ≠ b.request.slot ∧ a.tokens ≠ b.tokens) ∧
    (∀ source tokens ix', ix.registerAuthenticatedSource source tokens = .ok ix' →
      ix'.registrations = L.register source tokens) ∧
    (∀ source, ∃ found ix', ix.invalidateSource source = .ok (found, ix') ∧
      (found ↔ ∃ e ∈ L, e.request = source) ∧ ix'.registrations = L.invalidate source) ∧
    (∃ ix', ix.evictOldest = .ok (L.head?.map (·.request), ix') ∧ ix'.registrations = L.tail) ∧
    ∀ query p, p ≠ 0 → ∃ r, ix.longestPageAlignedMatch query p = .ok r ∧
      (r = none ↔ ∀ e ∈ L, ¬ Agrees e query p) ∧
      ∀ m, r = some m → IsLongestMatch L query p m := by
  have hrep : Represents ix L := represents_of_reachable h
  refine ⟨hrep.registrations_eq, hrep.pairwise, ?_, ?_, ?_, fun query p hp => hrep.lookup query hp⟩
  · intro source tokens ix' hok
    exact (hrep.register.of_ok hok).registrations_eq
  · intro source
    obtain ⟨⟨found, ix'⟩, hok, hfound, hrep'⟩ :=
      (hrep.invalidate source).exists_ok
    exact ⟨found, ix', hok, hfound, hrep'.registrations_eq⟩
  · obtain ⟨⟨evicted, ix'⟩, hok, rfl, hrep'⟩ := hrep.evict.exists_ok
    exact ⟨ix', hok, hrep'.registrations_eq⟩

/-- Two prompts that share their first two tokens. -/
def twoPrompts : Index where
  limits := { nodes := 6, tokensPerSource := 4, sources := 2, storedTokens := 8 }
  nodes := [
    some { token := 0, parent := noParent, firstChild := some 1, nextSibling := none, depth := 0 },
    some { token := 1, parent := 0, firstChild := some 2, nextSibling := none, depth := 1 },
    some { token := 2, parent := 1, firstChild := some 4, nextSibling := none, depth := 2 },
    some { token := 3, parent := 2, firstChild := none, nextSibling := none, depth := 3 },
    some { token := 4, parent := 2, firstChild := none, nextSibling := some 3, depth := 3 },
    none]
  sources := [
    some { request := ⟨7, 1⟩, endpoint := 3, tokenCount := 3, ticket := 1 },
    some { request := ⟨5, 1⟩, endpoint := 4, tokenCount := 3, ticket := 2 }]
  nodeCount := 5
  sourceCount := 2
  storedTokens := 6
  nextTicket := 3

theorem reachable_twoPrompts :
    calls.Reachable (twoPrompts, [⟨⟨7, 1⟩, [1, 2, 3]⟩, ⟨⟨5, 1⟩, [1, 2, 4]⟩]) := by
  have hinit : calls.Reachable (Index.new ⟨6, 4, 2, 8⟩, []) :=
    .init ⟨rfl, 6, 4, 2, 8, _, by decide +kernel, rfl⟩
  obtain ⟨ix₁, h₁⟩ : ∃ ix₁, (Index.new ⟨6, 4, 2, 8⟩).registerAuthenticatedSource ⟨7, 1⟩ [1, 2, 3] =
      .ok ix₁ := ⟨_, rfl⟩
  have hfirst : calls.Reachable (ix₁, [⟨⟨7, 1⟩, [1, 2, 3]⟩]) :=
    .step (a := .register ⟨7, 1⟩ [1, 2, 3]) hinit (.inl ⟨h₁, rfl⟩)
  refine .step (a := .register ⟨5, 1⟩ [1, 2, 4]) hfirst (.inl ⟨?_, rfl⟩)
  have hboth : ((Index.new ⟨6, 4, 2, 8⟩).registerAuthenticatedSource ⟨7, 1⟩ [1, 2, 3]).bind
      (·.registerAuthenticatedSource ⟨5, 1⟩ [1, 2, 4]) = .ok twoPrompts := by decide +kernel
  rw [h₁] at hboth
  exact hboth

theorem refines_of_reachable_twoPrompts :
    calls.Reachable (twoPrompts, [⟨⟨7, 1⟩, [1, 2, 3]⟩, ⟨⟨5, 1⟩, [1, 2, 4]⟩]) ∧
      twoPrompts.registrations = [⟨⟨7, 1⟩, [1, 2, 3]⟩, ⟨⟨5, 1⟩, [1, 2, 4]⟩] :=
  ⟨reachable_twoPrompts, (refines_of_reachable reachable_twoPrompts).1⟩

/-- After any sequence of calls the index is well formed, and every further call returns or is
rejected for a reason other than the index itself. -/
theorem wellFormed_of_reachable (h : calls.Reachable (ix, L)) :
    WellFormed ix L ∧
    (∀ source tokens, Ensures (ix.registerAuthenticatedSource source tokens)
      (· ≠ .invariantViolation) fun _ => True) ∧
    (∀ source, Ensures (ix.invalidateSource source) (fun _ => False) fun _ => True) ∧
    Ensures ix.evictOldest (fun _ => False) (fun _ => True) ∧
    ∀ query p, Ensures (ix.longestPageAlignedMatch query p) (fun _ => False) fun _ => True := by
  have hrep : Represents ix L := represents_of_reachable h
  refine ⟨hrep.wellFormed, ?_, ?_, ?_, ?_⟩
  · exact fun source tokens => hrep.register.mono (fun _ he => he) fun _ _ _ => trivial
  · exact fun source => (hrep.invalidate source).mono (fun _ he => he) fun _ _ _ => trivial
  · exact hrep.evict.mono (fun _ he => he) fun _ _ _ => trivial
  · intro query p
    by_cases hp : p = 0
    · rw [longestPageAlignedMatch, if_pos hp]
      exact trivial
    · obtain ⟨r, hr, -⟩ := hrep.lookup query hp
      rw [hr]
      exact trivial

theorem wellFormed_of_reachable_twoPrompts :
    calls.Reachable (twoPrompts, [⟨⟨7, 1⟩, [1, 2, 3]⟩, ⟨⟨5, 1⟩, [1, 2, 4]⟩]) ∧
      WellFormed twoPrompts [⟨⟨7, 1⟩, [1, 2, 3]⟩, ⟨⟨5, 1⟩, [1, 2, 4]⟩] :=
  ⟨reachable_twoPrompts, (wellFormed_of_reachable reachable_twoPrompts).1⟩

end Index

end RadixPrefix

end Ferric
