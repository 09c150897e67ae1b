import Ferric.RadixPrefix.Links
import Mathlib.Algebra.Order.BigOperators.Group.List
import Mathlib.Algebra.Order.Group.Nat

/-!
# The invariant of the index

`Inv` describes an index by its paths, its lists of children, and its records in the order of their
tickets. The last clause is what makes the index free of leaks: a node without children is where
some record ends. While a replacement is under way this fails for the nodes where a removed record
ended, or where the new path ends; those are listed as *pending*, and a call of `pruneFrom` takes
one node off that list.

## Main results

* `Index.insertPath_ensures` — the missing nodes of a path are linked in
* `Index.pruneFrom_ensures` — pruning settles one pending node
* `Index.removeSourceSlot_ensures` — a record and what only it needed are removed
-/

namespace Ferric

namespace RadixPrefix

open Spec

/-- What `Limits.new` establishes of the arguments it accepts. -/
structure Limits.Valid (limits : Limits) : Prop where
  two_le_nodes : 2 ≤ limits.nodes
  nodes_lt : limits.nodes < 2 ^ 64
  sources_lt : limits.sources < 2 ^ 64
  storedTokens_lt : limits.storedTokens < 2 ^ 64
  tokens_le : limits.tokensPerSource ≤ maxContextTokens

theorem Limits.new_ensures {nodes tokensPerSource sources storedTokens : UInt64} :
    Ensures (Limits.new nodes tokensPerSource sources storedTokens) (fun _ => True)
      Limits.Valid := by
  have skip : ∀ {c : Prop} [Decidable c] {e : LimitsError},
      Ensures (failIf c e) (fun _ => True) fun _ => ¬ c :=
    ensures_failIf (fun _ => trivial) id
  rw [Limits.new]
  refine skip.bind fun _ _ _ => skip.bind fun _ _ _ => skip.bind fun _ _ _ =>
    skip.bind fun _ _ _ => skip.bind fun _ _ htwo => skip.bind fun _ _ htokens =>
    skip.bind fun _ _ _ => ensures_pure.mpr ?_
  refine ⟨?_, nodes.toNat_lt, sources.toNat_lt, storedTokens.toNat_lt, not_lt.mp htokens⟩
  exact Nat.not_lt.mp fun hlt => htwo (UInt64.lt_iff_toNat_lt.mpr hlt)

variable {limits : Limits} {nodes nodes' : List (Option Node)} {path path' : ℕ → List Token}
  {kids : ℕ → List ℕ} {S S' : List Source} {pending : List ℕ} {ix : Index} {i : ℕ} {n : Node}

/-- The records of the index, oldest first. -/
structure Records (limits : Limits) (nodes : List (Option Node)) (path : ℕ → List Token)
    (nextTicket : ℕ) (S : List Source) : Prop where
  ordered : S.Pairwise fun a b => a.ticket < b.ticket
  ticket_lt : ∀ s ∈ S, s.ticket < nextTicket
  endpoint : ∀ s ∈ S, ∃ n, cell nodes s.endpoint = some n
  tokens : ∀ s ∈ S, (path s.endpoint).length = s.tokenCount
  bounded : ∀ s ∈ S, s.tokenCount ≤ limits.tokensPerSource
  slots_ne : S.Pairwise fun a b => a.request.slot ≠ b.request.slot
  endpoints_ne : S.Pairwise fun a b => a.endpoint ≠ b.endpoint

namespace Records

variable {nextTicket : ℕ}

theorem sublist (h : Records limits nodes path nextTicket S) (hs : S'.Sublist S) :
    Records limits nodes path nextTicket S' where
  ordered := h.ordered.sublist hs
  ticket_lt s hmem := h.ticket_lt s (hs.subset hmem)
  endpoint s hmem := h.endpoint s (hs.subset hmem)
  tokens s hmem := h.tokens s (hs.subset hmem)
  bounded s hmem := h.bounded s (hs.subset hmem)
  slots_ne := h.slots_ne.sublist hs
  endpoints_ne := h.endpoints_ne.sublist hs

/-- Only the endpoints are looked at in the node array. -/
theorem moveTo (h : Records limits nodes path nextTicket S)
    (hend : ∀ s ∈ S, ∃ n, cell nodes' s.endpoint = some n)
    (hpath : ∀ s ∈ S, path' s.endpoint = path s.endpoint) :
    Records limits nodes' path' nextTicket S where
  ordered := h.ordered
  ticket_lt := h.ticket_lt
  endpoint := hend
  tokens s hmem := by rw [hpath s hmem, h.tokens s hmem]
  bounded := h.bounded
  slots_ne := h.slots_ne
  endpoints_ne := h.endpoints_ne

theorem nodup (h : Records limits nodes path nextTicket S) : S.Nodup :=
  h.ordered.imp fun hlt hab => absurd (hab ▸ hlt) (lt_irrefl _)

end Records

/-- The index holds the trie of the records `S`. The pending nodes may lack a reason to exist. -/
structure Inv (ix : Index) (path : ℕ → List Token) (kids : ℕ → List ℕ) (S : List Source)
    (pending : List ℕ) : Prop where
  limits : ix.limits.Valid
  shape : Shape ix.nodes path kids
  nodeSlots : ix.nodes.length = ix.limits.nodes
  sourceSlots : ix.sources.length = ix.limits.sources
  nodeCount : ix.nodeCount = (live ix.nodes).length
  live_perm : (live ix.sources).Perm S
  sourceCount : ix.sourceCount = S.length
  storedTokens : ix.storedTokens = (S.map (·.tokenCount)).sum
  records : Records ix.limits ix.nodes path ix.nextTicket S
  leaves : ∀ {i n}, ix.node i = some n → i ≠ rootNode → kids i = [] →
    (∃ s ∈ S, s.endpoint = i) ∨ i ∈ pending

namespace Inv

theorem nodes_lt (h : Inv ix path kids S pending) : ix.nodes.length < 2 ^ 64 := by
  rw [h.nodeSlots]
  exact h.limits.nodes_lt

theorem weaken (h : Inv ix path kids S pending) (pending' : List ℕ)
    (hsub : ∀ i ∈ pending, (∃ s ∈ S, s.endpoint = i) ∨ i ∈ pending') :
    Inv ix path kids S pending' :=
  { h with leaves := fun hi hne hk => (h.leaves hi hne hk).elim .inl (hsub _) }

/-- A pending node that has a reason to exist is no longer pending. -/
theorem settle {node : ℕ} (h : Inv ix path kids S (node :: pending))
    (hs : node ≠ rootNode → kids node = [] → ∃ s ∈ S, s.endpoint = node) :
    Inv ix path kids S pending :=
  { h with
    leaves := by
      intro i n hi hne hk
      rcases h.leaves hi hne hk with hmem | hmem
      · exact .inl hmem
      · rcases List.mem_cons.mp hmem with rfl | hmem
        · exact .inl (hs hne hk)
        · exact .inr hmem }

theorem mem_iff (h : Inv ix path kids S pending) {s : Source} :
    s ∈ S ↔ ∃ slot, cell ix.sources slot = some s := by
  rw [← h.live_perm.mem_iff, mem_live]

/-- Every node lies on the way to a record, once nothing is pending. -/
theorem exists_below (h : Inv ix path kids S []) (hi : ix.node i = some n) (hne : i ≠ rootNode) :
    ∃ s ∈ S, path i <+: path s.endpoint := by
  obtain ⟨j, m, hj, hpre, hleaf⟩ := h.shape.exists_leaf hi
  have hjr : j ≠ rootNode := by
    rintro rfl
    rw [(h.shape.path_eq_nil_iff hj).mpr rfl, List.prefix_nil] at hpre
    exact hne ((h.shape.path_eq_nil_iff hi).mp hpre)
  obtain ⟨s, hs, rfl⟩ := (h.leaves hj hjr hleaf).resolve_right List.not_mem_nil
  exact ⟨s, hs, hpre⟩

end Inv

/-- A new index. -/
theorem inv_new (h : limits.Valid) : Inv (.new limits) (fun _ => []) (fun _ => []) [] [] := by
  have hlen : rootNode < (List.replicate limits.nodes (none : Option Node)).length := by
    rw [List.length_replicate, rootNode]
    have := h.two_le_nodes
    omega
  have hcell : ∀ i,
      cell (Index.new limits).nodes i = if i = rootNode then some .root else none := by
    intro i
    by_cases hi : i = rootNode
    · subst hi
      rw [if_pos rfl, Index.new, cell_set_self hlen]
    · rw [if_neg hi, Index.new, cell_set_of_ne hi, cell_replicate]
  have hroot : ∀ {i n}, cell (Index.new limits).nodes i = some n → i = rootNode ∧ n = .root := by
    intro i n hi
    rw [hcell] at hi
    by_cases hr : i = rootNode
    · rw [if_pos hr] at hi
      exact ⟨hr, (Option.some.inj hi).symm⟩
    · simp [hr] at hi
  have hroot' : ∀ {i}, (upLink (Index.new limits).nodes i).isSome → i = rootNode := by
    intro i hi
    obtain ⟨n, hn⟩ := upLink_isSome.mp hi
    exact (hroot hn).1
  have hlive : live (List.replicate limits.nodes (none : Option Node)) = [] := by
    simp [live]
  have hshape : Shape (Index.new limits).nodes (fun _ => []) fun _ => [] := by
    refine ⟨⟨?_, rfl, ?_, ?_⟩, ?_, ?_, fun _ => List.nodup_nil, ?_⟩
    · exact upLink_isSome.mpr ⟨.root, by rw [hcell, if_pos rfl]⟩
    · intro i p t hi hne
      exact absurd (hroot' (by simp [hi])) hne
    · intro i j hi hj _
      rw [hroot' hi, hroot' hj]
    · intro i n hi
      rw [(hroot hi).2]
      rfl
    · intro i n hi
      rw [(hroot hi).2]
      rfl
    · intro i n j _
      refine iff_of_false (by simp) ?_
      rintro ⟨m, hm, hne, -⟩
      exact hne (hroot hm).1
  have hcount : (live (Index.new limits).nodes).length = 1 := by
    have hfree : (List.replicate limits.nodes (none : Option Node))[rootNode]? = some none := by
      rw [List.getElem?_eq_some_iff]
      exact ⟨hlen, List.getElem_replicate hlen⟩
    rw [Index.new, (live_set_perm hfree).length_eq, hlive]
    rfl
  exact
    { limits := h
      shape := hshape
      nodeSlots := by simp [Index.new]
      sourceSlots := by simp [Index.new]
      nodeCount := hcount.symm
      live_perm := by simp [Index.new, live]
      sourceCount := rfl
      storedTokens := rfl
      records := by constructor <;> simp
      leaves := fun hi hne => absurd (hroot hi).1 hne }

namespace Index

/-! ### Inserting a path -/

/-- The index with one node linked in. -/
theorem inv_linkIn {slot p : ℕ} {t : Token} (h : Inv ix path kids S (p :: pending))
    (hslot : ix.nodes[slot]? = some none) (hp : ix.node p = some n)
    (hfresh : ∀ j m, ix.node j = some m → path j ≠ path p ++ [t]) :
    Inv { ix with nodes := linkIn ix.nodes slot p n t, nodeCount := ix.nodeCount + 1 }
      (Function.update path slot (path p ++ [t]))
      (Function.update (Function.update kids slot []) p (slot :: kids p)) S (slot :: pending) := by
  have hne : ∀ j m, ix.node j = some m → j ≠ slot := by
    rintro j m hj rfl
    rw [cell_eq_some, hslot] at hj
    simp at hj
  exact
    { limits := h.limits
      shape := h.shape.linkIn hslot hp hfresh
      nodeSlots := by
        show (linkIn ix.nodes slot p n t).length = _
        rw [linkIn, List.length_set, List.length_set]
        exact h.nodeSlots
      sourceSlots := h.sourceSlots
      nodeCount := by rw [length_live_linkIn hslot hp, h.nodeCount]
      live_perm := h.live_perm
      sourceCount := h.sourceCount
      storedTokens := h.storedTokens
      records := by
        refine h.records.moveTo (fun s hs => ?_) fun s hs => ?_
        · exact (exists_cell_linkIn hslot hp).mpr (.inr (h.records.endpoint s hs))
        · obtain ⟨m, hm⟩ := h.records.endpoint s hs
          exact Function.update_of_ne (hne _ m hm) _ _
      leaves := by
        intro i m hi hroot hk
        by_cases hs : i = slot
        · exact .inr (by simp [hs])
        by_cases hip : i = p
        · subst hip
          simp at hk
        rw [Function.update_of_ne hip, Function.update_of_ne hs] at hk
        have hi' : ix.node i = some m := by
          rw [← hi]
          exact (cell_linkIn_of_ne hs hip).symm
        refine (h.leaves hi' hroot hk).imp_right fun hmem => ?_
        exact List.mem_cons_of_mem _ ((List.mem_cons.mp hmem).resolve_left hip) }

/-- The missing nodes of a path are linked in one below the other; nothing that was there
changes. -/
theorem insertPath_ensures {e : ℕ} {tokens : List Token} (h : Inv ix path kids S (e :: pending))
    (he : ix.node e = some n)
    (hfresh : ∀ t, tokens.head? = some t → ∀ j m, ix.node j = some m → path j ≠ path e ++ [t])
    (hroom : (live ix.nodes).length + tokens.length ≤ ix.nodes.length) :
    Ensures (ix.insertPath e tokens) (fun _ => False) fun r =>
      ∃ path' kids', Inv r.2 path' kids' S (r.1 :: pending) ∧
        (∃ m, r.2.node r.1 = some m) ∧ path' r.1 = path e ++ tokens ∧
        (∀ i n, ix.node i = some n → path' i = path i ∧ ∃ m, r.2.node i = some m) ∧
        r.2.limits = ix.limits ∧ r.2.sources = ix.sources ∧ r.2.nextTicket = ix.nextTicket := by
  induction tokens generalizing ix e n path kids with
  | nil =>
    exact ⟨path, kids, h, ⟨n, he⟩, by simp, fun i m hi => ⟨rfl, m, hi⟩, rfl, rfl, rfl⟩
  | cons t tokens ih =>
    rw [insertPath, List.foldlM_cons]
    rw [List.length_cons] at hroom
    refine (ensures_expect (insertChild_ensures (t := t) h.shape he (by omega) h.nodes_lt
      h.nodeCount)).bind ?_
    rintro ⟨slot, ix₁⟩ - ⟨hslot, hix⟩
    simp only at hslot hix
    subst hix
    have hfresh₀ := hfresh t rfl
    have hinv := inv_linkIn h hslot he hfresh₀
    have hne : ∀ j m, ix.node j = some m → j ≠ slot := by
      rintro j m hj rfl
      rw [cell_eq_some, hslot] at hj
      simp at hj
    have hcells := fun j => exists_cell_linkIn (i := j) (t := t) hslot he
    obtain ⟨m, hm⟩ := (hcells slot).mpr (.inl rfl)
    have hnext : ∀ t', tokens.head? = some t' → ∀ j m,
        cell (linkIn ix.nodes slot e n t) j = some m →
        Function.update path slot (path e ++ [t]) j ≠
          Function.update path slot (path e ++ [t]) slot ++ [t'] := by
      -- a longer path would have needed the new node before it was there
      intro t' _ j m hj hpath
      rw [Function.update_self] at hpath
      by_cases hjs : j = slot
      · subst hjs
        rw [Function.update_self] at hpath
        simpa using congrArg List.length hpath
      rw [Function.update_of_ne hjs] at hpath
      obtain ⟨m', hm'⟩ := ((hcells j).mp ⟨m, hj⟩).resolve_left hjs
      obtain ⟨k, c, hk, hkpath⟩ := h.shape.exists_of_isPrefix (w := path e ++ [t]) hm'
        (hpath ▸ List.prefix_append _ _)
      exact hfresh₀ k c hk hkpath
    have hroom' : (live (linkIn ix.nodes slot e n t)).length + tokens.length ≤
        (linkIn ix.nodes slot e n t).length := by
      rw [length_live_linkIn hslot he, linkIn, List.length_set, List.length_set]
      omega
    refine (ih hinv hm hnext hroom').mono (fun _ hf => hf) ?_
    rintro ⟨e', ix'⟩ - ⟨path', kids', hinv', hocc, hpath', hframe, hlimits, hsources, hticket⟩
    refine ⟨path', kids', hinv', hocc, ?_, fun i m hi => ?_, hlimits, hsources, hticket⟩
    · rw [hpath', Function.update_self, List.append_assoc, List.singleton_append]
    · obtain ⟨m', hm'⟩ := (hcells i).mpr (.inr ⟨m, hi⟩)
      obtain ⟨hp, hocc'⟩ := hframe i m' hm'
      exact ⟨by rw [hp, Function.update_of_ne (hne i m hi)], hocc'⟩

/-! ### Pruning -/

/-- The index with one childless node taken out. -/
theorem inv_takenOut {c : ℕ} {e : Node} (h : Inv ix path kids S (c :: pending))
    (hend : ∀ s ∈ S, s.endpoint ≠ c) (ht : TakenOut ix.nodes nodes' path kids c e.parent) :
    Inv { ix with nodes := nodes', nodeCount := ix.nodeCount - 1 } path
      (Function.update kids e.parent ((kids e.parent).erase c)) S (e.parent :: pending) where
  limits := h.limits
  shape := ht.shape
  nodeSlots := ht.length_eq.trans h.nodeSlots
  sourceSlots := h.sourceSlots
  nodeCount := by
    show ix.nodeCount - 1 = (live nodes').length
    rw [h.nodeCount, ← ht.length_live, Nat.add_sub_cancel]
  live_perm := h.live_perm
  sourceCount := h.sourceCount
  storedTokens := h.storedTokens
  records := h.records.moveTo
    (fun s hs => (ht.cells _).mpr ⟨hend s hs, h.records.endpoint s hs⟩) fun _ _ => rfl
  leaves := by
    intro i n hi hroot hk
    by_cases hip : i = e.parent
    · exact .inr (by simp [hip])
    rw [Function.update_of_ne hip] at hk
    obtain ⟨hic, m, hm⟩ := (ht.cells i).mp ⟨n, hi⟩
    refine (h.leaves hm hroot hk).imp_right fun hmem => ?_
    exact List.mem_cons_of_mem _ ((List.mem_cons.mp hmem).resolve_left hic)

theorem pruneLoop_ensures {node fuel : ℕ} (h : Inv ix path kids S (node :: pending))
    (hnode : ix.node node = some n) (hf : (path node).length ≤ fuel) :
    Ensures (pruneLoop fuel ix node) (fun _ => False) fun ix' =>
      ∃ kids', Inv ix' path kids' S pending := by
  induction fuel generalizing ix kids node n with
  | zero =>
    have hroot : node = rootNode :=
      (h.shape.path_eq_nil_iff hnode).mp (List.eq_nil_of_length_eq_zero (by omega))
    rw [pruneLoop, if_pos hroot]
    exact ⟨kids, h.settle fun hne => absurd hroot hne⟩
  | succ fuel ih =>
    by_cases hroot : node = rootNode
    · rw [pruneLoop, if_pos hroot]
      exact ⟨kids, h.settle fun hne => absurd hroot hne⟩
    rw [pruneLoop, if_neg hroot, hnode, orErr, ok_bind]
    by_cases hkeep : n.firstChild.isSome ∨ ∃ source ∈ live ix.sources, source.endpoint = node
    · rw [if_pos hkeep]
      refine ensures_pure.mpr ⟨kids, h.settle fun _ hk => ?_⟩
      rcases hkeep with hchild | ⟨s, hs, hse⟩
      · rw [(h.shape.kids_eq_nil_iff hnode).mp hk] at hchild
        simp at hchild
      · exact ⟨s, h.live_perm.mem_iff.mp hs, hse⟩
    rw [if_neg hkeep]
    push Not at hkeep
    have hleaf : kids node = [] :=
      (h.shape.kids_eq_nil_iff hnode).mpr (by simpa using hkeep.1)
    have hend : ∀ s ∈ S, s.endpoint ≠ node := fun s hs => hkeep.2 s (h.live_perm.mem_iff.mpr hs)
    obtain ⟨nodes₁, hunlink, htaken⟩ := unlinkChild_spec h.shape hnode hroot hleaf
    have hinv := inv_takenOut h hend htaken
    have hcount : checkedSub ix.nodeCount 1 = some (ix.nodeCount - 1) := by
      refine checkedSub_of_le ?_
      have := htaken.length_live
      rw [h.nodeCount]
      omega
    rw [hunlink, ok_bind]
    simp only [hcount, orErr, ok_bind]
    -- the parent is one token closer to the root
    obtain ⟨hp, hstep⟩ := h.shape.path_step hnode hroot
    have hne : n.parent ≠ node := by
      intro he
      rw [he] at hstep
      simpa using congrArg List.length hstep
    obtain ⟨m, hm⟩ := (htaken.cells n.parent).mpr ⟨hne, hp⟩
    refine ih hinv hm ?_
    rw [hstep, List.length_append, List.length_singleton] at hf
    omega

/-- Pruning settles a pending node. -/
theorem pruneFrom_ensures {node : ℕ} (h : Inv ix path kids S (node :: pending))
    (hnode : ix.node node = some n) :
    Ensures (ix.pruneFrom node) (fun _ => False) fun ix' =>
      ∃ kids', Inv ix' path kids' S pending :=
  pruneLoop_ensures h hnode (h.shape.length_lt hnode).le

/-! ### Removing a record -/

/-- The index without one record; its endpoint is pending. -/
theorem inv_dropSource {slot : ℕ} {s : Source} (h : Inv ix path kids S pending)
    (hs : cell ix.sources slot = some s) :
    Inv { ix with
        sources := ix.sources.set slot none
        sourceCount := ix.sourceCount - 1
        storedTokens := ix.storedTokens - s.tokenCount } path kids (S.erase s)
      (s.endpoint :: pending) := by
  have hmem : s ∈ S := h.mem_iff.mpr ⟨slot, hs⟩
  have hperm := List.perm_cons_erase hmem
  exact
    { limits := h.limits
      shape := h.shape
      nodeSlots := h.nodeSlots
      sourceSlots := by
        rw [List.length_set]
        exact h.sourceSlots
      nodeCount := h.nodeCount
      live_perm := by
        refine List.Perm.cons_inv (a := s) ?_
        exact (live_perm_of_cell hs).symm.trans (h.live_perm.trans hperm)
      sourceCount := by rw [h.sourceCount, List.length_erase_of_mem hmem]
      storedTokens := by
        have := (hperm.map (·.tokenCount)).sum_eq
        rw [List.map_cons, List.sum_cons] at this
        rw [h.storedTokens, this, Nat.add_sub_cancel_left]
      records := h.records.sublist List.erase_sublist
      leaves := by
        intro i n hi hne hk
        rcases h.leaves hi hne hk with ⟨s', hs', rfl⟩ | hpend
        · by_cases heq : s' = s
          · exact .inr (by simp [heq])
          · exact .inl ⟨s', (List.mem_erase_of_ne heq).mpr hs', rfl⟩
        · exact .inr (List.mem_cons_of_mem _ hpend) }

/-- A record and what only it needed are removed. -/
theorem removeSourceSlot_ensures {slot : ℕ} {s : Source} (h : Inv ix path kids S [])
    (hs : cell ix.sources slot = some s) :
    Ensures (ix.removeSourceSlot slot) (fun _ => False) fun ix' =>
      ∃ kids', Inv ix' path kids' (S.erase s) [] := by
  have hmem : s ∈ S := h.mem_iff.mpr ⟨slot, hs⟩
  have hcount : checkedSub ix.sourceCount 1 = some (ix.sourceCount - 1) := by
    refine checkedSub_of_le ?_
    rw [h.sourceCount]
    exact List.length_pos_of_mem hmem
  have hstored : checkedSub ix.storedTokens s.tokenCount =
      some (ix.storedTokens - s.tokenCount) := by
    refine checkedSub_of_le ?_
    rw [h.storedTokens]
    exact List.le_sum_of_mem (List.mem_map_of_mem hmem)
  obtain ⟨n, hn⟩ := h.records.endpoint s hmem
  rw [removeSourceSlot, hs]
  simp only [orErr, ok_bind, hcount, hstored]
  exact pruneFrom_ensures (inv_dropSource h hs) hn

end Index

end RadixPrefix

end Ferric
