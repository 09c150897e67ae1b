import Ferric.TpPaged.Times

/-!
# Expiry

`expire_nodes` removes one expired leaf after the other until no leaf is expired. Since a node does
not expire before the nodes below it, no node at all is expired then, and no node was removed
before its time: what is left is `survivors`. The walk of an admission runs on that tree, finds no
expired node in it, and stops at the end of the longest cached prefix.

## Main definitions

* `survivors` — the nodes that have not expired
* `PagedPool.Swept` — a call that removed the expired nodes and no others
* `PagedPool.hitLoopUnexpired` — the walk of an admission without its break for expired nodes

## Main results

* `expireNodes_exact`
* `PagedPool.hitLoop_longest`
* `PagedPool.expiry_exact`
-/

namespace Ferric

namespace TpPaged

variable {nodes : List (Option RadixNode)} {n m : RadixNode} {i j : ℕ} {ttl now : ℕ}
  {ctx clock : ℕ} {lab : ℕ → List Token} {s : State} {seqs : List Sequence}

/-- The nodes that have not expired, each in its slot. -/
def survivors (now : ℕ) (nodes : List (Option RadixNode)) : List (Option RadixNode) :=
  nodes.map fun o => o.filter fun n => decide (now < n.expires)

/-- How many nodes have expired. -/
def expiredCount (now : ℕ) (nodes : List (Option RadixNode)) : ℕ :=
  nodes.countP fun o => o.any fun n => decide (n.expires ≤ now)

theorem nodeAt_survivors :
    NodeAt (survivors now nodes) i n ↔ NodeAt nodes i n ∧ now < n.expires := by
  rw [NodeAt, NodeAt, survivors, List.getElem?_map]
  constructor
  · intro h
    obtain ⟨o, ho, hfilter⟩ := Option.map_eq_some_iff.mp h
    obtain ⟨rfl, hlt⟩ := Option.filter_eq_some_iff.mp hfilter
    exact ⟨ho, by simpa using hlt⟩
  · rintro ⟨h, hlt⟩
    rw [h, Option.map_some, Option.filter_some, if_pos (by simpa using hlt)]

theorem survivors_set_none (hi : NodeAt nodes i n) (hn : n.expires ≤ now) :
    survivors now (nodes.set i none) = survivors now nodes := by
  rw [survivors, List.map_set, Option.filter_none]
  refine List.ext_getElem? fun j => ?_
  by_cases hij : i = j
  · subst hij
    have hget : nodes[i]? = some (some n) := hi
    rw [List.getElem?_set_self (by simpa using hi.lt), survivors, List.getElem?_map, hget,
      Option.map_some, Option.filter_some, if_neg (by simpa using hn)]
  · rw [List.getElem?_set_ne hij, survivors]

theorem Aged.survivors (h : Aged ttl nodes) : Aged ttl (survivors now nodes) where
  lifetime i n hi := h.lifetime i n (nodeAt_survivors.mp hi).1
  touched_le i n j m hi hp hj :=
    h.touched_le i n j m (nodeAt_survivors.mp hi).1 hp (nodeAt_survivors.mp hj).1

theorem expiredCount_set_none (hi : NodeAt nodes i n) (hn : n.expires ≤ now) :
    expiredCount now (nodes.set i none) + 1 = expiredCount now nodes := by
  have := countP_set_add (f := fun o => o.any fun n : RadixNode => decide (n.expires ≤ now))
    (b := none) hi
  simpa [expiredCount, hn] using this

/-- Without expired nodes nothing changes. -/
theorem survivors_eq_self (h : ∀ i n, NodeAt nodes i n → now < n.expires) :
    survivors now nodes = nodes := by
  rw [survivors]
  refine (List.map_congr_left (g := id) fun o ho => ?_).trans (List.map_id nodes)
  cases o with
  | none => rfl
  | some n =>
    obtain ⟨i, hi⟩ := List.mem_iff_getElem?.mp ho
    rw [Option.filter_some, if_pos (by simpa using h i n hi)]
    rfl

theorem expiredCount_eq_zero (h : ∀ i n, NodeAt nodes i n → now < n.expires) :
    expiredCount now nodes = 0 := by
  rw [expiredCount, List.countP_eq_zero]
  intro o ho
  cases o with
  | none => simp
  | some n =>
    obtain ⟨i, hi⟩ := List.mem_iff_getElem?.mp ho
    simpa using h i n hi

/-- Without expired leaves there are no expired nodes. -/
theorem unexpired_of_candidate_eq_none (hc : Coherent ctx s.pages s.nodes seqs lab)
    (hage : Aged ttl s.nodes) (h : expireCandidate s now = none) (hi : NodeAt s.nodes i n) :
    now < n.expires := by
  by_contra hexp
  obtain ⟨j, m, hj, hm, hleaf⟩ := exists_leaf_below hc (P := fun _ n => n.expires ≤ now)
    (fun i n j m hi hn hj hp => (hage.expires_le hj hp hi).trans hn) hi (not_lt.mp hexp)
  have hno := List.find?_eq_none.mp h j (List.mem_range.mpr hj.lt)
  have hget : s.nodes[j]? = some (some m) := hj
  simp [hget, hm, isLeaf_iff.mpr hleaf] at hno

/-- **Expiry removes the expired nodes and no others.** It fails only when the eviction counter has
no room for them. -/
theorem expireNodesLoop_exact {fuel : ℕ} (hc : Coherent ctx s.pages s.nodes seqs lab)
    (ht : Timed s.nodes clock) (hage : Aged ttl s.nodes)
    (hfuel : s.nodes.countP Option.isSome < fuel) :
    Ensures (expireNodesLoop now fuel s)
      (fun e => e = .exhausted ∧ expiredCount now s.nodes ≠ 0 ∧
        2 ^ 64 ≤ s.evictedPages + expiredCount now s.nodes) fun r =>
      Evolve ctx clock lab s seqs r seqs ∧ Aged ttl r.nodes ∧ r.nodes = survivors now s.nodes ∧
        (expiredCount now s.nodes = 0 ∨ s.evictedPages + expiredCount now s.nodes < 2 ^ 64) := by
  induction fuel generalizing s with
  | zero => omega
  | succ fuel ih =>
    rw [expireNodesLoop]
    cases hcand : expireCandidate s now with
    | none =>
      have hlive := fun i n => unexpired_of_candidate_eq_none (i := i) (n := n) hc hage hcand
      exact ensures_ok.mpr ⟨.refl hc ht, hage, (survivors_eq_self hlive).symm,
        .inl (expiredCount_eq_zero hlive)⟩
    | some index =>
      obtain ⟨n, hn, hexp, hl⟩ := expireCandidate_eq_some hcand
      have hone := expiredCount_set_none hn hexp
      refine ((removeNode_ensures hc ht hn hl).mono (fun e he => ⟨he.1, by omega, by omega⟩)
        fun _ _ hr => hr).bind fun r _ hremoval => ?_
      obtain ⟨hr, hremoved⟩ := hremoval
      have hcount := countP_set_none_lt hn
      have hage' : Aged ttl r.nodes := hremoved.nodes ▸ hage.set_none
      have hlt := hremoved.evictedPages_lt
      rw [hremoved.evictedPages] at hlt
      refine (ih hr.coherent hr.timed hage' (by rw [hremoved.nodes]; omega)).mono
        (fun e he => ?_) fun t _ hswept => ?_
      · rw [hremoved.nodes, hremoved.evictedPages] at he
        exact ⟨he.1, by omega, by omega⟩
      · obtain ⟨ht', htage, hnodes, hroom⟩ := hswept
        rw [hremoved.nodes, hremoved.evictedPages] at hroom
        refine ⟨ht'.after hr, htage, ?_, .inr (by omega)⟩
        rw [hnodes, hremoved.nodes, survivors_set_none hn hexp]

theorem expireNodes_exact (hc : Coherent ctx s.pages s.nodes seqs lab) (ht : Timed s.nodes clock)
    (hage : Aged ttl s.nodes) :
    Ensures (expireNodes s now)
      (fun e => e = .exhausted ∧ expiredCount now s.nodes ≠ 0 ∧
        2 ^ 64 ≤ s.evictedPages + expiredCount now s.nodes) fun r =>
      Evolve ctx clock lab s seqs r seqs ∧ Aged ttl r.nodes ∧ r.nodes = survivors now s.nodes ∧
        (expiredCount now s.nodes = 0 ∨ s.evictedPages + expiredCount now s.nodes < 2 ^ 64) :=
  expireNodesLoop_exact hc ht hage (Nat.lt_succ_of_le List.countP_le_length)

theorem UniqueEdges.congr {nodes' : List (Option RadixNode)} (h : UniqueEdges nodes)
    (hp : places nodes' = places nodes) : UniqueEdges nodes' := by
  intro i j n m hn hm hparent hedge
  obtain ⟨n', hn', hplace⟩ := hn.of_places hp
  obtain ⟨m', hm', hplace'⟩ := hm.of_places hp
  simp only [RadixNode.place, Prod.mk.injEq] at hplace hplace'
  exact h hn' hm' (by rw [hplace.1, hplace'.1, hparent]) (by rw [hplace.2.1, hplace'.2.1, hedge])

namespace PagedPool

variable {expires : ℕ} {limits : PagedLimits} {p : PagedPool}

/-! ### The walk of an admission -/

/-- The walk of an admission, where an expired node is not expected. -/
def hitLoopUnexpired (now expires : ℕ) :
    List (List Token) → State → Option ℕ → List ℕ → Outcome PagedError (State × List ℕ)
  | [], s, _, pages => .ok (s, pages)
  | chunk :: rest, s, parent, pages => do
    let edge ← orErr .invariant (toEdge chunk)
    match findChild s parent edge with
    | none => return (s, pages)
    | some index =>
      let slot ← orPanic s.nodes[index]?
      let node ← orErr .invariant slot
      if node.expires ≤ now then
        .error .panic
      else
        let physical ← orPanic s.pages[node.page]?
        let refs ← orErr .exhausted (checkedAdd 32 physical.refs 1)
        hitLoopUnexpired now expires rest
          { s with
            nodes := s.nodes.set index (some { node with touched := now, expires })
            pages := s.pages.set node.page { physical with refs } }
          (some index) (pages ++ [node.page])

/-- The break for an expired node is not reached in a tree without expired nodes. -/
theorem hitLoop_eq_unexpired (hlife : now < expires) {chunks : List (List Token)}
    {parent : Option ℕ} {pages : List ℕ}
    (hlive : ∀ i n, NodeAt s.nodes i n → now < n.expires) :
    hitLoop now expires chunks s parent pages =
      hitLoopUnexpired now expires chunks s parent pages := by
  induction chunks generalizing s parent pages with
  | nil => rfl
  | cons chunk rest ih =>
    rw [hitLoop, hitLoopUnexpired]
    refine congrArg (_ >>= ·) (funext fun edge => ?_)
    cases hfind : findChild s parent edge with
    | none => rfl
    | some index =>
      obtain ⟨n, hn, -, -⟩ := findChild_eq_some hfind
      have hnode : s.nodes[index]? = some (some n) := hn
      have hexp := not_le.mpr (hlive index n hn)
      simp only [hnode, orPanic, orErr, ok_bind, if_neg hexp]
      refine congrArg (_ >>= ·) (funext fun pg => congrArg (_ >>= ·) (funext fun refs => ih ?_))
      intro j m hj
      rcases nodeAt_set.mp hj with ⟨-, -, ho⟩ | ⟨-, hj⟩
      · exact Option.some.inj ho ▸ hlife
      · exact hlive j m hj

/-- A hit: whole pages of `body`, each held by the node that spells the prompt up to its end, and no
longer prefix is in the tree. -/
structure LongestHit (nodes : List (Option RadixNode)) (body : List Token) (pages : List ℕ) :
    Prop where
  length_le : pages.length ≤ body.length / 16
  held : ∀ k p, pages[k]? = some p → ∃ i n, NodeAt nodes i n ∧ n.page = p ∧
    PathTo nodes (some i) (body.take (16 * (k + 1)))
  longest : ∀ k ≤ body.length / 16, (∃ o, PathTo nodes o (body.take (16 * k))) → k ≤ pages.length

/-- The walk ends at the longest prefix. -/
theorem hitLoop_longest {body : List Token} (hlife : now < expires) {chunks : List (List Token)}
    {parent : Option ℕ} {pages : List ℕ} {r : State × List ℕ} (hu : UniqueEdges s.nodes)
    (hlive : ∀ i n, NodeAt s.nodes i n → now < n.expires)
    (hchunks : (chunksExact 16 body).drop pages.length = chunks)
    (hk : pages.length ≤ body.length / 16)
    (hpath : PathTo s.nodes parent (body.take (16 * pages.length)))
    (hheld : ∀ k p, pages[k]? = some p → ∃ i n, NodeAt s.nodes i n ∧ n.page = p ∧
      PathTo s.nodes (some i) (body.take (16 * (k + 1))))
    (h : hitLoop now expires chunks s parent pages = .ok r) :
    LongestHit s.nodes body r.2 := by
  induction chunks generalizing s parent pages with
  | nil =>
    obtain rfl := Except.ok.inj h
    refine ⟨hk, hheld, fun k hkb _ => ?_⟩
    have hlen := List.drop_eq_nil_iff.mp hchunks
    rw [length_chunksExact] at hlen
    exact hkb.trans hlen
  | cons chunk rest ih =>
    obtain ⟨hlt, rfl, hrest⟩ := chunksExact_drop_cons hchunks
    obtain ⟨edge, hedge, ⟨rfl, hstop⟩ | ⟨index, n, pg, refs, hfind, hn, -, h⟩⟩ := hitLoop_cons h
    all_goals
      have hclen : ((body.drop (16 * pages.length)).take 16).length = 16 := length_chunk (by omega)
      rw [toEdge_eq_some hclen] at hedge
      obtain rfl := Option.some.inj hedge
    · refine ⟨hk, hheld, fun k hkb ⟨o, ho⟩ => ?_⟩
      rcases hstop with hnone | ⟨index, n, hn, hexp⟩
      · by_contra hlonger
        simp only [not_le] at hlonger
        -- a longer prefix passes through the child that is missing
        obtain ⟨o', ho'⟩ := ho.take (pages.length + 1)
        rw [List.take_take, min_eq_left (by omega), ← take_append_chunk] at ho'
        cases o' with
        | none =>
          generalize hnil : body.take (16 * pages.length) ++
            (body.drop (16 * pages.length)).take 16 = t at ho'
          cases ho'
          have hlen := congrArg List.length hnil
          rw [List.length_append, hclen] at hlen
          simp at hlen
        | some j =>
          obtain ⟨m, t, hm, ht, heq⟩ := ho'.inv
          obtain ⟨rfl, hedge⟩ := append_edge_inj (e := ⟨_, hclen⟩) heq
          exact findChild_eq_none hnone j m hm (ht.injective hu hpath) hedge.symm
      · exact absurd (hlive index n hn) (not_lt.mpr hexp)
    · obtain ⟨n', hn', hpar, hnedge⟩ := findChild_eq_some hfind
      obtain rfl := hn'.inj hn
      set touched : RadixNode := { n' with touched := now, expires } with htouched
      have hplaces : places (s.nodes.set index (some touched)) = places s.nodes :=
        places_set hn rfl
      have hspell : PathTo s.nodes (some index) (body.take (16 * (pages.length + 1))) := by
        have hstep := PathTo.node hn (hpar ▸ hpath)
        rwa [hnedge, take_append_chunk] at hstep
      have hlive' : ∀ j m, NodeAt (s.nodes.set index (some touched)) j m → now < m.expires := by
        intro j m hj
        rcases nodeAt_set.mp hj with ⟨-, -, ho⟩ | ⟨-, hj⟩
        · exact Option.some.inj ho ▸ hlife
        · exact hlive j m hj
      have hlonger : (pages ++ [n'.page]).length = pages.length + 1 := by simp
      have hheld' : ∀ k p, (pages ++ [n'.page])[k]? = some p →
          ∃ i n, NodeAt (s.nodes.set index (some touched)) i n ∧ n.page = p ∧
            PathTo (s.nodes.set index (some touched)) (some i) (body.take (16 * (k + 1))) := by
        intro k p hp
        have hold : ∃ i n, NodeAt s.nodes i n ∧ n.page = p ∧
            PathTo s.nodes (some i) (body.take (16 * (k + 1))) := by
          rw [List.getElem?_append] at hp
          split at hp
          · exact hheld k p hp
          · obtain ⟨hk0, rfl⟩ : k - pages.length = 0 ∧ n'.page = p := by
              simpa [List.getElem?_singleton] using hp
            obtain rfl : k = pages.length := by omega
            exact ⟨index, n', hn, rfl, hspell⟩
        obtain ⟨i, m, hm, hpage, hpath⟩ := hold
        obtain ⟨m', hm', hplace⟩ := hm.of_places hplaces.symm
        exact ⟨i, m', hm', (congrArg (fun p => p.2.2) hplace).trans hpage, hpath.congr hplaces.symm⟩
      have hr := ih (hu.congr hplaces) hlive' (by rw [hlonger]; exact hrest)
        (by rw [hlonger]; omega) (by rw [hlonger]; exact hspell.congr hplaces.symm) hheld' h
      refine ⟨hr.length_le, fun k p hp => ?_, fun k hkb ⟨o, ho⟩ => ?_⟩
      · obtain ⟨i, m, hm, hpage, hpath⟩ := hr.held k p hp
        obtain ⟨m', hm', hplace⟩ := hm.of_places hplaces
        exact ⟨i, m', hm', (congrArg (fun p => p.2.2) hplace).trans hpage, hpath.congr hplaces⟩
      · exact hr.longest k hkb ⟨o, ho.congr hplaces.symm⟩

/-! ### The transactions, step by step -/

/-- The steps of an admission. -/
theorem openState_eq_ok {identity : ℕ} {prompt : List Token} {r : PrefixHit × State}
    (h : openState identity limits prompt now s = .ok r) :
    ∃ s₁ hit, s.clock ≤ now ∧ expireNodes { s with clock := now } now = .ok s₁ ∧
      hitLoop now (now + limits.cacheTtl)
        (chunksExact 16 (prompt.take ((prompt.length - 1) / 16 * 16)))
        { s₁ with nextSequence := s₁.nextSequence + 1 } none [] = .ok hit ∧
      r.1.pages = hit.2 ∧ r.1.hitTokens = hit.2.length * 16 ∧ r.2.nodes = hit.1.nodes := by
  rw [openState] at h
  obtain ⟨-, -, h⟩ := bind_eq_ok.mp h
  obtain ⟨s₀, hs₀, h⟩ := bind_eq_ok.mp h
  obtain ⟨hclock, rfl⟩ := advanceClock_ensures.of_ok hs₀
  obtain ⟨expires, hexpires, h⟩ := bind_eq_ok.mp h
  obtain rfl := (checkedAdd_eq_some.mp (orErr_eq_ok.mp hexpires)).2
  obtain ⟨s₁, hs₁, h⟩ := bind_eq_ok.mp h
  obtain ⟨next, hnext, h⟩ := bind_eq_ok.mp h
  obtain rfl := (checkedAdd_eq_some.mp (orErr_eq_ok.mp hnext)).2
  obtain ⟨hit, hhit, h⟩ := bind_eq_ok.mp h
  obtain ⟨hitPages, hcount, h⟩ := bind_eq_ok.mp h
  obtain ⟨s₃, hs₃, h⟩ := bind_eq_ok.mp h
  obtain rfl := Except.ok.inj h
  have hpages : hit.2.length = hitPages := by
    rw [count, orPanic_eq_ok] at hcount
    split at hcount
    · exact Option.some.inj hcount
    · cases hcount
  subst hpages
  exact ⟨s₁, hit, hclock, hs₁, hhit, rfl, rfl, (countHit_ensures.of_ok hs₃).2.1⟩

/-- The steps of a retirement. -/
theorem retireState_eq_ok {serial : ℕ} {publishPrefix : Bool} {r : Unit × State}
    (h : retireState limits serial publishPrefix now s = .ok r) :
    ∃ s₁ q s₂, s.clock ≤ now ∧ expireNodes { s with clock := now } now = .ok s₁ ∧
      s₁.sequences.get? serial = some q ∧
      (if publishPrefix then publishLoop now (now + limits.cacheTtl) q
          (chunksExact 16 q.tokens).zipIdx
          { s₁ with sequences := s₁.sequences.erase serial } none
        else .ok { s₁ with sequences := s₁.sequences.erase serial }) = .ok s₂ ∧
      r.2.nodes = s₂.nodes := by
  rw [retireState] at h
  obtain ⟨s₀, hs₀, h⟩ := bind_eq_ok.mp h
  obtain ⟨hclock, rfl⟩ := advanceClock_ensures.of_ok hs₀
  obtain ⟨expires, hexpires, h⟩ := bind_eq_ok.mp h
  obtain rfl := (checkedAdd_eq_some.mp (orErr_eq_ok.mp hexpires)).2
  obtain ⟨s₁, hs₁, h⟩ := bind_eq_ok.mp h
  obtain ⟨q, hq, h⟩ := bind_eq_ok.mp h
  obtain ⟨s₂, hs₂, h⟩ := bind_eq_ok.mp h
  obtain ⟨s₃, hs₃, h⟩ := bind_eq_ok.mp h
  obtain rfl := Except.ok.inj h
  obtain ⟨pages, -, hs₃⟩ := bind_eq_ok.mp hs₃
  obtain rfl := Except.ok.inj hs₃
  exact ⟨s₁, q, s₂, hclock, hs₁, orErr_eq_ok.mp hq, hs₂, rfl⟩

/-- A transaction that returned. -/
theorem transact_eq_ok {α : Type} {apply : State → Outcome PagedError (α × State)}
    {r : α × PagedPool} (h : p.transact apply = .ok r) :
    p.Idle ∧ ∃ s, apply p.state = .ok (r.1, s) ∧ r.2 = { p with state := s } := by
  rw [transact] at h
  obtain ⟨_, hidle, h⟩ := bind_eq_ok.mp h
  obtain ⟨⟨a, s⟩, happly, h⟩ := bind_eq_ok.mp h
  obtain ⟨-, -, h⟩ := bind_eq_ok.mp h
  obtain rfl := Except.ok.inj h
  exact ⟨requireIdle_ensures.of_ok hidle, s, happly, rfl⟩

/-- The state of a transaction after its expiry. -/
structure Expired (limits : PagedLimits) (now : ℕ) (s s₁ : State) : Prop where
  nodes : s₁.nodes = survivors now s.nodes
  aged : Aged limits.cacheTtl s₁.nodes
  touched_le : ∀ i n, NodeAt s₁.nodes i n → n.touched ≤ now
  unexpired : ∀ i n, NodeAt s₁.nodes i n → now < n.expires
  unique : UniqueEdges s₁.nodes
  sequences : s₁.sequences = s.sequences

theorem expired_of_eq_ok {s₁ : State} (h : StateInv limits s) (hage : Aged limits.cacheTtl s.nodes)
    (hclock : s.clock ≤ now) (hs₁ : expireNodes { s with clock := now } now = .ok s₁) :
    Expired limits now s s₁ := by
  obtain ⟨lab, hc⟩ := h.coherent
  obtain ⟨hev, hage', hnodes, -⟩ := (expireNodes_exact (s := { s with clock := now }) hc
    (h.timed.mono hclock) hage).of_ok hs₁
  exact
    { nodes := hnodes
      aged := hage'
      touched_le := fun i n hi => (hev.timed i n hi).1
      unexpired := fun i n hi => by
        rw [hnodes] at hi
        exact (nodeAt_survivors.mp hi).2
      unique := hev.coherent.unique_edges
      sequences := hev.sequences }

/-! ### What the calls do to the tree -/

/-- Every node that had not expired is still in its place; every other node is one that the call
added, and no node has expired. -/
structure Swept (now : ℕ) (s s' : State) (added : ℕ → RadixNode → Prop) : Prop where
  kept : ∀ i n, NodeAt s.nodes i n → now < n.expires →
    ∃ n', NodeAt s'.nodes i n' ∧ n'.place = n.place
  others : ∀ i n', NodeAt s'.nodes i n' →
    (∃ n, NodeAt s.nodes i n ∧ now < n.expires ∧ n'.place = n.place) ∨ added i n'
  unexpired : ∀ i n', NodeAt s'.nodes i n' → now < n'.expires

/-- Touched nodes live on. -/
theorem lt_expires {nodes : List (Option RadixNode)} (httl : 0 < ttl) (hage : Aged ttl nodes)
    {nodes₁ : List (Option RadixNode)} (hlive : ∀ i n, NodeAt nodes₁ i n → now < n.expires)
    (hi : NodeAt nodes i n) (h : NodeAt nodes₁ i n ∨ n.touched = now) : now < n.expires := by
  rcases h with h | h
  · exact hlive i n h
  · rw [hage.lifetime i n hi, h]
    omega

theorem openSequence_swept {scope : PoolScope} {prompt : List Token} {r : PrefixHit × PagedPool}
    (hp : p.PoolInv) (hage : Aged p.limits.cacheTtl p.state.nodes)
    (h : p.openSequence scope prompt now = .ok r) :
    Swept now p.state r.2.state (fun _ _ => False) ∧ Aged p.limits.cacheTtl r.2.state.nodes ∧
      r.1.hitTokens = 16 * r.1.pages.length ∧
      LongestHit (survivors now p.state.nodes)
        (prompt.take ((prompt.length - 1) / 16 * 16)) r.1.pages := by
  rw [openSequence] at h
  obtain ⟨-, -, h⟩ := bind_eq_ok.mp h
  obtain ⟨-, -, h⟩ := bind_eq_ok.mp h
  obtain ⟨-, s, hs, hr⟩ := transact_eq_ok h
  obtain ⟨s₁, hit, hclock, hs₁, hhit, hpages, htokens, hnodes⟩ := openState_eq_ok hs
  have hex := expired_of_eq_ok hp.state hage hclock hs₁
  have httl := hp.limits.ttl_pos
  obtain ⟨hplaces, hage', htouched⟩ := hitLoop_times
    (s := { s₁ with nextSequence := s₁.nextSequence + 1 }) hex.aged hex.touched_le
    (fun j m hj _ => by cases hj) hhit
  have hlife : now < now + p.limits.cacheTtl := by omega
  have hlongest : LongestHit s₁.nodes (prompt.take ((prompt.length - 1) / 16 * 16)) hit.2 := by
    refine @hitLoop_longest now { s₁ with nextSequence := s₁.nextSequence + 1 } _ _ hlife _ none []
      _ hex.unique hex.unexpired rfl (Nat.zero_le _) ?_ (fun k p hp => by simp at hp) hhit
    simpa using PathTo.root
  dsimp only at hpages htokens hnodes hplaces
  rw [hex.nodes, ← hnodes] at hplaces
  rw [← hnodes] at hage' htouched
  rw [hr]
  refine ⟨⟨fun i n hi hlt => ?_, fun i n' hi => ?_, fun i n' hi => ?_⟩, hage', ?_, ?_⟩
  · exact (nodeAt_survivors.mpr ⟨hi, hlt⟩).of_places hplaces.symm
  · obtain ⟨n, hn, hplace⟩ := hi.of_places hplaces
    obtain ⟨hn, hlt⟩ := nodeAt_survivors.mp hn
    exact .inl ⟨n, hn, hlt, hplace.symm⟩
  · exact lt_expires httl hage' hex.unexpired hi (htouched i n' hi)
  · rw [htokens, hpages, Nat.mul_comm]
  · rw [hpages, ← hex.nodes]
    exact hlongest

theorem retireSequence_swept {sequence : SequenceId} {publishPrefix : Bool} {r : Unit × PagedPool}
    (hp : p.PoolInv) (hage : Aged p.limits.cacheTtl p.state.nodes)
    (h : p.retireSequence sequence publishPrefix now = .ok r) :
    ∃ retired, p.state.sequences.get? sequence.serial = some retired ∧
      Swept now p.state r.2.state (fun i n => publishPrefix = true ∧
        (survivors now p.state.nodes)[i]? = some none ∧ n.page ∈ retired.pages ∧
        n.touched = now) ∧
      Aged p.limits.cacheTtl r.2.state.nodes := by
  rw [retireSequence] at h
  obtain ⟨-, -, h⟩ := bind_eq_ok.mp h
  obtain ⟨-, s, hs, hr⟩ := transact_eq_ok h
  obtain ⟨s₁, retired, s₂, hclock, hs₁, hretired, hs₂, hnodes⟩ := retireState_eq_ok hs
  have hex := expired_of_eq_ok hp.state hage hclock hs₁
  have httl := hp.limits.ttl_pos
  refine ⟨retired, by rw [← hex.sequences]; exact hretired, ?_⟩
  rw [hr]
  dsimp only at hnodes ⊢
  rw [hnodes]
  cases publishPrefix with
  | false =>
    obtain rfl := Except.ok.inj hs₂
    dsimp only at hnodes ⊢
    refine ⟨⟨fun i n hi hlt => ?_, fun i n' hi => ?_, fun i n' hi => ?_⟩, hex.aged⟩
    · rw [hnodes, hex.nodes]
      exact ⟨n, nodeAt_survivors.mpr ⟨hi, hlt⟩, rfl⟩
    · rw [hnodes, hex.nodes] at hi
      obtain ⟨hi, hlt⟩ := nodeAt_survivors.mp hi
      exact .inl ⟨n', hi, hlt, rfl⟩
    · rw [hnodes] at hi
      exact hex.unexpired i n' hi
  | true =>
    rw [if_pos rfl] at hs₂
    obtain ⟨hage', hkept, hfrom⟩ := publishLoop_times
      (s := { s₁ with sequences := s₁.sequences.erase sequence.serial }) hex.aged hex.touched_le
      (fun j m hj _ => by cases hj) hs₂
    dsimp only at hkept hfrom
    refine ⟨⟨fun i n hi hlt => ?_, fun i n' hi => ?_, fun i n' hi => ?_⟩, hage'⟩
    · rw [hnodes]
      rw [hex.nodes] at hkept
      exact hkept i n (nodeAt_survivors.mpr ⟨hi, hlt⟩)
    · rw [hnodes] at hi
      rw [hex.nodes] at hfrom
      rcases hfrom i n' hi with hi | ⟨ht, ⟨n, hn, hplace⟩ | ⟨hfree, hmem⟩⟩
      · obtain ⟨hi, hlt⟩ := nodeAt_survivors.mp hi
        exact .inl ⟨n', hi, hlt, rfl⟩
      · obtain ⟨hn, hlt⟩ := nodeAt_survivors.mp hn
        exact .inl ⟨n, hn, hlt, hplace⟩
      · exact .inr ⟨rfl, hfree, hmem, ht⟩
    · rw [hnodes] at hi
      exact lt_expires httl hage' hex.unexpired hi ((hfrom i n' hi).imp_right And.left)

/-- Expiry succeeds exactly when the clock does not go back and the eviction counter has room, and
leaves the nodes that have not expired as they were. -/
theorem expire_exact (hp : p.PoolInv) (hage : Aged p.limits.cacheTtl p.state.nodes) :
    Ensures (p.expire now)
      (fun _ => ¬ (p.Idle ∧ p.state.clock ≤ now ∧ (expiredCount now p.state.nodes = 0 ∨
        p.state.evictedPages + expiredCount now p.state.nodes < 2 ^ 64))) fun r =>
      (p.Idle ∧ p.state.clock ≤ now ∧ (expiredCount now p.state.nodes = 0 ∨
        p.state.evictedPages + expiredCount now p.state.nodes < 2 ^ 64)) ∧
      r.2.state.nodes = survivors now p.state.nodes := by
  obtain ⟨lab, hc⟩ := hp.state.coherent
  rw [expire, transact]
  refine (requireIdle_ensures.mono (fun e he hok => he.2 hok.1) fun _ _ h => h).bind
    fun _ _ hidle => ?_
  have hstate : Ensures (expireState now p.state) _ _ := expireState_ensures hp.state
  by_cases hclock : p.state.clock ≤ now
  · have hexact : Ensures (expireState now p.state)
        (fun _ => ¬ (expiredCount now p.state.nodes = 0 ∨
          p.state.evictedPages + expiredCount now p.state.nodes < 2 ^ 64)) fun r =>
        (expiredCount now p.state.nodes = 0 ∨
          p.state.evictedPages + expiredCount now p.state.nodes < 2 ^ 64) ∧
        r.2.nodes = survivors now p.state.nodes := by
      rw [expireState, advanceClock, failIf_of_not (not_lt.mpr hclock)]
      refine (expireNodes_exact (s := { p.state with clock := now }) hc
        (hp.state.timed.mono hclock) hage).mono (fun e he hok => ?_) (fun _ _ hr => hr) |>.bind
        fun s₁ _ hswept => ensures_pure.mpr ⟨hswept.2.2.2, hswept.2.2.1⟩
      obtain ⟨-, hne, hle⟩ := he
      dsimp only at hne hle
      omega
    refine (hexact.mono (fun e he hok => he hok.2.2) fun _ _ h => h).bind
      fun r hr hswept => ?_
    obtain ⟨hroom, hnodes⟩ := hswept
    rw [validateState_of_inv (hstate.of_ok hr).1, ok_bind]
    exact ensures_pure.mpr ⟨⟨hidle, hclock, hroom⟩, hnodes⟩
  · refine (hstate.mono (fun _ _ hok => hclock hok.2.1) fun _ _ h => h).bind
      fun r _ hspec => ?_
    obtain ⟨_, _, _, _, hle, _⟩ := hspec
    exact absurd hle hclock

/-! ### Every reachable tree -/

theorem aged_of_removeNode {index : ℕ} {r : State} (hage : Aged ttl s.nodes)
    (h : removeNode s index = .ok r) : Aged ttl r.nodes := by
  rw [removeNode] at h
  obtain ⟨-, -, h⟩ := bind_eq_ok.mp h
  obtain ⟨slot, -, h⟩ := bind_eq_ok.mp h
  obtain ⟨n, -, h⟩ := bind_eq_ok.mp h
  obtain ⟨pg, -, h⟩ := bind_eq_ok.mp h
  obtain ⟨-, -, h⟩ := bind_eq_ok.mp h
  obtain ⟨-, -, h⟩ := bind_eq_ok.mp h
  obtain ⟨evicted, -, h⟩ := bind_eq_ok.mp h
  obtain rfl := Except.ok.inj h
  exact hage.set_none

theorem aged_of_evictLoop {pagesNeeded fuel : ℕ} {r : State} (hage : Aged ttl s.nodes)
    (h : evictLoop pagesNeeded fuel s = .ok r) : Aged ttl r.nodes := by
  induction fuel generalizing s with
  | zero => cases h
  | succ fuel ih =>
    rw [evictLoop] at h
    obtain ⟨free, -, h⟩ := bind_eq_ok.mp h
    split at h
    · obtain ⟨best, -, h⟩ := bind_eq_ok.mp h
      obtain ⟨c, -, h⟩ := bind_eq_ok.mp h
      obtain ⟨t, ht, h⟩ := bind_eq_ok.mp h
      exact ih (aged_of_removeNode hage ht) h
    · obtain rfl := Except.ok.inj h
      exact hage

theorem nodes_of_cancelSequence {sequence : SequenceId} {r : Unit × PagedPool}
    (h : p.cancelSequence sequence = .ok r) : r.2.state.nodes = p.state.nodes := by
  rw [cancelSequence] at h
  obtain ⟨-, -, h⟩ := bind_eq_ok.mp h
  obtain ⟨-, s, hs, hr⟩ := transact_eq_ok h
  rw [cancelState] at hs
  obtain ⟨q, -, hs⟩ := bind_eq_ok.mp hs
  obtain ⟨s₁, hs₁, hs⟩ := bind_eq_ok.mp hs
  obtain ⟨pages, -, hs₁⟩ := bind_eq_ok.mp hs₁
  obtain rfl := Except.ok.inj hs₁
  rw [hr, ← (Prod.mk.inj (Except.ok.inj hs)).2]

/-- Every call keeps the times in order. -/
theorem call_aged (hp : p.PoolInv) (hage : Aged p.limits.cacheTtl p.state.nodes) (c : Call) :
    Ensures (p.call c) (fun _ => True) fun r => Aged r.2.limits.cacheTtl r.2.state.nodes := by
  have hany : ∀ {α : Type} {x : Outcome PagedError α} {Q : α → Prop}, Ensures x Benign Q →
      Ensures x (fun _ => True) Q := fun hx => hx.mono (fun _ _ => trivial) fun _ _ hq => hq
  cases c with
  | openSequence scope prompt now =>
    refine (hany (openSequence_ensures hp)).bind fun r hr ht => ensures_pure.mpr ?_
    have hlimits : r.2.limits = p.limits := by rw [ht.eq]
    dsimp only
    rw [hlimits]
    exact (openSequence_swept hp hage hr).2.1
  | reserveBatch rows =>
    refine ((reserveBatch_ensures hp).mono (fun _ _ => trivial) fun _ _ h => h).bind
      fun r _ ⟨_, hr⟩ => ensures_pure.mpr ?_
    dsimp only
    rw [hr.eq]
    exact hage
  | beginSubmission batch =>
    refine (beginSubmission_ensures.mono (fun _ _ => trivial) fun _ _ h => h).bind
      fun p' _ ⟨_, _, _, heq⟩ => ensures_pure.mpr ?_
    rw [heq]
    exact hage
  | abortBatch batch =>
    refine (abortBatch_ensures.mono (fun _ _ => trivial) fun _ _ h => h).bind
      fun p' _ ⟨_, _, _, heq⟩ => ensures_pure.mpr ?_
    rw [heq]
    exact hage
  | commitBatch batch completion =>
    refine (commitBatch_ensures.mono (fun _ _ => trivial) fun _ _ h => h).bind
      fun p' _ ⟨pd, ho, _, heq⟩ => ensures_pure.mpr ?_
    -- a batch does not touch the tree
    obtain ⟨prepared, hm⟩ := hp.pending pd ho.pending
    rw [heq]
    show Aged p.limits.cacheTtl pd.proposed.nodes
    rw [hm.reserved.nodes]
    exact hage
  | quarantineBatch batch =>
    refine (quarantineBatch_ensures.mono (fun _ _ => trivial) fun _ _ h => h).bind
      fun p' _ ⟨_, _, _, heq⟩ => ensures_pure.mpr ?_
    rw [heq]
    exact hage
  | retireSequence sequence publishPrefix now =>
    refine (hany (retireSequence_ensures hp)).bind fun r hr ht => ensures_pure.mpr ?_
    have hlimits : r.2.limits = p.limits := by rw [ht.eq]
    obtain ⟨-, -, -, hage'⟩ := retireSequence_swept hp hage hr
    dsimp only
    rw [hlimits]
    exact hage'
  | cancelSequence sequence =>
    refine ((cancelSequence_ensures hp).mono (fun _ _ => trivial) fun _ _ h => h).bind
      fun r hr ht => ensures_pure.mpr ?_
    have hlimits : r.2.limits = p.limits := by rw [ht.eq]
    dsimp only
    rw [hlimits, nodes_of_cancelSequence hr]
    exact hage
  | expire now =>
    refine (hany (expire_ensures hp)).bind fun r hr ht => ensures_pure.mpr ?_
    have hlimits : r.2.limits = p.limits := by rw [ht.eq]
    obtain ⟨-, hnodes⟩ := (expire_exact hp hage).of_ok hr
    dsimp only
    rw [hlimits, hnodes]
    exact hage.survivors
  | evictUnused pagesNeeded =>
    refine (hany (evictUnused_ensures hp)).bind fun r hr ht => ensures_pure.mpr ?_
    have hlimits : r.2.limits = p.limits := by rw [ht.eq]
    rw [evictUnused] at hr
    obtain ⟨-, -, hr⟩ := bind_eq_ok.mp hr
    obtain ⟨-, s, hs, heq⟩ := transact_eq_ok hr
    obtain ⟨t, ht, hs⟩ := bind_eq_ok.mp hs
    obtain ⟨-, rfl⟩ := Prod.mk.inj (Except.ok.inj hs)
    dsimp only
    rw [hlimits, heq]
    exact aged_of_evictLoop hage ht
  | committedPosition sequence =>
    exact (hany (committedPosition_ensures hp)).bind fun _ _ _ => ensures_pure.mpr hage
  | stats => exact (hany (stats_ensures hp)).bind fun _ _ _ => ensures_pure.mpr hage
  | checkInvariants =>
    exact (hany (checkInvariants_ensures hp)).bind fun _ _ _ => ensures_pure.mpr hage

theorem aged_of_reachable (h : poolSystem.Reachable p) :
    p.PoolInv ∧ Aged p.limits.cacheTtl p.state.nodes := by
  refine System.Reachable.induction
    (I := fun p : PagedPool => p.PoolInv ∧ Aged p.limits.cacheTtl p.state.nodes)
    (fun p (hp : p.Fresh) => ⟨hp.poolInv, ?_⟩) ?_ h
  · have hnone : ∀ i n, ¬ NodeAt p.state.nodes i n := by
      intro i n hi
      have hmem := List.mem_of_getElem? hi
      rw [hp.eq.2.2.1] at hmem
      simp [freshState] at hmem
    exact ⟨fun i n hi => absurd hi (hnone i n), fun i n _ _ hi => absurd hi (hnone i n)⟩
  · rintro p c p' - ⟨hp, hage⟩ (⟨reply, hc⟩ | ⟨-, rfl⟩)
    · exact ⟨(call_ensures hp c).of_ok hc, (call_aged hp hage c).of_ok hc⟩
    · exact ⟨hp, hage⟩

/-- **Expiry is exact.** In every reachable pool, a call at a time that is not before the clock
removes the nodes that have expired by then and no others, wherever they are in the tree, and leaves
every other sequence its tokens and pages, and what their pages hold. `expire` succeeds whenever the
pool is idle and the eviction counter has room. An admission hits the longest prefix of whole pages,
without the last token, that is in the tree after the expiry; its walk meets no expired node. -/
theorem expiry_exact (h : poolSystem.Reachable p) (now : ℕ) :
    ((∃ r, p.expire now = .ok r) ↔ p.Idle ∧ p.state.clock ≤ now ∧
      (expiredCount now p.state.nodes = 0 ∨
        p.state.evictedPages + expiredCount now p.state.nodes < 2 ^ 64)) ∧
    (∀ r, p.expire now = .ok r → r.2.state.nodes = survivors now p.state.nodes ∧
      r.2.state.sequences = p.state.sequences ∧ Keeps p.state r.2.state) ∧
    (∀ scope prompt r, p.openSequence scope prompt now = .ok r →
      Swept now p.state r.2.state (fun _ _ => False) ∧
      (∀ k q, p.state.sequences.get? k = some q → r.2.state.sequences.get? k = some q) ∧
      Keeps p.state r.2.state ∧ r.1.hitTokens = 16 * r.1.pages.length ∧
      LongestHit (survivors now p.state.nodes)
        (prompt.take ((prompt.length - 1) / 16 * 16)) r.1.pages) ∧
    (∀ sequence publishPrefix r, p.retireSequence sequence publishPrefix now = .ok r →
      ∃ retired, p.state.sequences.get? sequence.serial = some retired ∧
        Swept now p.state r.2.state (fun i n => publishPrefix = true ∧
          (survivors now p.state.nodes)[i]? = some none ∧ n.page ∈ retired.pages ∧
          n.touched = now) ∧
        (∀ k, k ≠ sequence.serial →
          r.2.state.sequences.get? k = p.state.sequences.get? k) ∧
        Keeps p.state r.2.state) ∧
    ∀ s, p.state.clock ≤ now → expireNodes { p.state with clock := now } now = .ok s →
      s.nodes = survivors now p.state.nodes ∧ s.sequences = p.state.sequences ∧
      (∀ i n, NodeAt s.nodes i n → now < n.expires) ∧
      ∀ chunks next, hitLoop now (now + p.limits.cacheTtl) chunks
          { s with nextSequence := next } none [] =
        hitLoopUnexpired now (now + p.limits.cacheTtl) chunks
          { s with nextSequence := next } none [] := by
  obtain ⟨hp, hage⟩ := aged_of_reachable h
  refine ⟨?_, fun r hr => ?_, fun scope prompt r hr => ?_, fun sequence publishPrefix r hr => ?_,
    fun s hclock hs => ?_⟩
  · have hexact : Ensures (p.expire now) _ _ := expire_exact hp hage
    rcases hexact.cases with ⟨r, hok, hcond, -⟩ | ⟨e, herr, hnot⟩
    · exact iff_of_true ⟨r, hok⟩ hcond
    · refine iff_of_false ?_ hnot
      rintro ⟨r, hr⟩
      rw [herr] at hr
      cases hr
  · obtain ⟨hkeeps, hseqs, -⟩ := ((expire_ensures hp).of_ok hr).post
    exact ⟨((expire_exact hp hage).of_ok hr).2, hseqs, hkeeps⟩
  · obtain ⟨hswept, -, htokens, hlongest⟩ := openSequence_swept hp hage hr
    obtain ⟨hkeeps, hopened⟩ := ((openSequence_ensures hp).of_ok hr).post
    refine ⟨hswept, fun k q hk => ?_, hkeeps, htokens, hlongest⟩
    have hlt := (hp.state.serial k q hk).2
    have hseqs := hopened.sequences
    dsimp only at hseqs
    rw [hseqs, BTreeMap.get?_insert_of_ne (by omega), hk]
  · obtain ⟨retired, hretired, hswept, -⟩ := retireSequence_swept hp hage hr
    obtain ⟨hkeeps, hseqs, -⟩ := ((retireSequence_ensures hp).of_ok hr).post
    refine ⟨retired, hretired, hswept, fun k hk => ?_, hkeeps⟩
    rw [hseqs, BTreeMap.get?_erase, if_neg hk]
  · have hex := expired_of_eq_ok hp.state hage hclock hs
    have httl := hp.limits.ttl_pos
    refine ⟨hex.nodes, hex.sequences, hex.unexpired, fun chunks next => ?_⟩
    exact hitLoop_eq_unexpired (by omega) hex.unexpired

/-! ### A shared prefix -/

/-- A request computes and publishes two pages, and two others share them. -/
def sharedCalls : List Call :=
  [.openSequence smallPool.scope (List.range 33) 3] ++ batchCalls 1 (pageRows 1 0) ++
    batchCalls 2 (pageRows 1 16) ++ [.retireSequence ⟨1, 1⟩ true 4,
      .openSequence smallPool.scope (List.range 33) 4,
      .openSequence smallPool.scope (List.range 33) 4]

/-- At time 20 both nodes of the shared prefix are removed, the inner one as well. -/
theorem expiry_exact_shared :
    ∃ p, poolSystem.Reachable p ∧ expiredCount 20 p.state.nodes = 2 ∧
      ∃ r, p.expire 20 = .ok r ∧ r.2.state.nodes = survivors 20 p.state.nodes ∧
        r.2.state.sequences = p.state.sequences := by
  have hrun : (smallPool.runCalls sharedCalls).map (fun p => (decide p.Idle, p.state.clock,
      expiredCount 20 p.state.nodes, p.state.evictedPages)) = .ok (true, 4, 2, 0) := by
    decide +kernel
  cases hr : smallPool.runCalls sharedCalls with
  | error e => simp [hr, Except.map] at hrun
  | ok p =>
    simp only [hr, Except.map, Except.ok.injEq, Prod.mk.injEq, decide_eq_true_eq] at hrun
    obtain ⟨hidle, hclock, hcount, hevicted⟩ := hrun
    have h := reachable_of_runCalls (.init fresh_smallPool) hr
    obtain ⟨r, hok⟩ := (expiry_exact h 20).1.mpr ⟨hidle, by omega, .inr (by omega)⟩
    obtain ⟨hnodes, hseqs, -⟩ := (expiry_exact h 20).2.1 r hok
    exact ⟨p, h, hcount, r, hok, hnodes, hseqs⟩

end PagedPool

end TpPaged

end Ferric
