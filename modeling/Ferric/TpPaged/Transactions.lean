import Ferric.TpPaged.Content
import Ferric.TpPaged.Validate

/-!
# Transactions keep the invariant

Every transaction of the pool takes a state that satisfies `StateInv` to one that does, never
reports an internal inconsistency, and carries over what the device pages hold. The loops are
handled one change at a time with the lemmas of `Ferric.TpPaged.Heap`; a request that is being
admitted or retired is the head of the list of sequences while its loop runs.

## Main definitions

* `Benign` — every error but the internal one
* `Evolve` — what a piece of a transaction does to the heap
* `Faithful` — the content of the device pages, for a whole state

## Main results

* `openState_ensures`, `retireState_ensures`, `cancelState_ensures`, `expireState_ensures`,
  `evictState_ensures`
-/

namespace Ferric

namespace TpPaged

/-- Errors other than an internal inconsistency. -/
def Benign (e : PagedError) : Prop := e ≠ .invariant

instance : DecidablePred Benign := fun e => inferInstanceAs (Decidable (e ≠ .invariant))

/-- The effect of part of a transaction on the heap. Labels do not change. -/
structure Evolve (ctx clock : ℕ) (lab : ℕ → List Token) (s : State) (seqs : List Sequence)
    (r : State) (seqs' : List Sequence) : Prop where
  coherent : Coherent ctx r.pages r.nodes seqs' lab
  timed : Timed r.nodes clock
  length : r.pages.length = s.pages.length
  content : ∀ mem, Content mem s.nodes seqs lab → Content mem r.nodes seqs' lab
  sequences : r.sequences = s.sequences
  clock : r.clock = s.clock
  nextSequence : r.nextSequence = s.nextSequence

namespace Evolve

variable {ctx clock : ℕ} {lab : ℕ → List Token} {s r t : State}
  {seqs seqs' seqs'' : List Sequence}

theorem refl (hc : Coherent ctx s.pages s.nodes seqs lab) (ht : Timed s.nodes clock) :
    Evolve ctx clock lab s seqs s seqs :=
  ⟨hc, ht, rfl, fun _ h => h, rfl, rfl, rfl⟩

theorem after (h' : Evolve ctx clock lab r seqs' t seqs'')
    (h : Evolve ctx clock lab s seqs r seqs') : Evolve ctx clock lab s seqs t seqs'' :=
  ⟨h'.coherent, h'.timed, h'.length.trans h.length, fun mem hm => h'.content mem (h.content mem hm),
    h'.sequences.trans h.sequences, h'.clock.trans h.clock,
    h'.nextSequence.trans h.nextSequence⟩

end Evolve

variable {ctx clock now expires : ℕ} {lab : ℕ → List Token} {s : State} {seqs : List Sequence}
  {q : Sequence} {limits : PagedLimits}

/-! ### Removing nodes -/

theorem isLeaf_iff {index : ℕ} : isLeaf s index = true ↔ Leaf s.nodes index := by
  simp only [isLeaf, Bool.not_eq_true', List.any_eq_false, Leaf]
  constructor
  · intro h j n hj hp
    exact h (some n) (List.mem_of_getElem? hj) (by simpa using hp)
  · intro h o ho hp
    obtain ⟨j, hj⟩ := List.mem_iff_getElem?.mp ho
    cases o with
    | none => simp at hp
    | some n => exact h hj (by simpa using hp)

/-- What removing the node `n` does. -/
structure Removed (s : State) (index : ℕ) (n : RadixNode) (r : State) : Prop where
  nodes : r.nodes = s.nodes.set index none
  pages : ∃ pg, s.pages[n.page]? = some pg ∧
    r.pages = s.pages.set n.page ⟨pg.refs - 1, false⟩
  evictedPages : r.evictedPages = s.evictedPages + 1
  evictedPages_lt : r.evictedPages < 2 ^ 64

/-- Removing a leaf succeeds, up to the eviction counter. -/
theorem removeNode_ensures {index : ℕ} {n : RadixNode}
    (hc : Coherent ctx s.pages s.nodes seqs lab) (ht : Timed s.nodes clock)
    (hi : NodeAt s.nodes index n) (hl : Leaf s.nodes index) :
    Ensures (removeNode s index) (fun e => e = .exhausted ∧ 2 ^ 64 ≤ s.evictedPages + 1) fun r =>
      Evolve ctx clock lab s seqs r seqs ∧ Removed s index n r := by
  obtain ⟨pg, hpg, hcached, hrefs⟩ := hc.node_page hi
  have hnode : s.nodes[index]? = some (some n) := hi
  rw [removeNode]
  refine (ensures_failIf (Q := fun _ => True) (fun hbad => ?_) fun _ => trivial).bind
    fun _ _ _ => ?_
  · rw [isLeaf_iff.mpr hl] at hbad
    exact absurd hbad (by decide)
  simp only [hnode, orPanic, orErr, ok_bind, hpg, failIf, hcached]
  rw [if_neg (by decide), if_neg (by omega), ok_bind, ok_bind]
  have hfull : checkedAdd 64 s.evictedPages 1 = none → 2 ^ 64 ≤ s.evictedPages + 1 := by
    intro hnone
    by_contra hlt
    rw [checkedAdd, if_pos (by omega)] at hnone
    cases hnone
  refine (ensures_orErr (Q := fun k => checkedAdd 64 s.evictedPages 1 = some k)
    (fun hnone => ⟨rfl, hfull hnone⟩) fun _ hk => hk).bind
    fun evicted _ hevicted => ensures_pure.mpr ?_
  obtain ⟨hlt, rfl⟩ := checkedAdd_eq_some.mp hevicted
  refine ⟨⟨hc.evictNode hi hl hpg, fun j m hj => ?_, by simp, fun mem hm => hm.evictNode, rfl, rfl,
    rfl⟩, rfl, ⟨pg, hpg, rfl⟩, rfl, hlt⟩
  exact ht j m (nodeAt_set_none.mp hj).2

theorem benign_exhausted {e : PagedError} {c : Prop} (h : e = .exhausted ∧ c) : Benign e := by
  rw [h.1]
  decide

theorem countP_set_none_lt {nodes : List (Option RadixNode)} {index : ℕ} {n : RadixNode}
    (hi : NodeAt nodes index n) :
    (nodes.set index none).countP Option.isSome + 1 = nodes.countP Option.isSome := by
  have := countP_set_add (f := Option.isSome) (b := none) hi
  simpa using this

theorem expireCandidate_eq_some {index : ℕ} (h : expireCandidate s now = some index) :
    ∃ n, NodeAt s.nodes index n ∧ n.expires ≤ now ∧ Leaf s.nodes index := by
  have hp := List.find?_some h
  split at hp
  · next n hn =>
    rw [Bool.and_eq_true, decide_eq_true_iff, isLeaf_iff] at hp
    exact ⟨n, hn, hp⟩
  · simp at hp

/-- Expiry ends, within fuel for the nodes there are. -/
theorem expireNodesLoop_ensures {fuel : ℕ} (hc : Coherent ctx s.pages s.nodes seqs lab)
    (ht : Timed s.nodes clock) (hfuel : s.nodes.countP Option.isSome < fuel) :
    Ensures (expireNodesLoop now fuel s) Benign fun r => Evolve ctx clock lab s seqs r seqs := by
  induction fuel generalizing s with
  | zero => omega
  | succ fuel ih =>
    rw [expireNodesLoop]
    split
    · exact ensures_ok.mpr (.refl hc ht)
    · next index hindex =>
      obtain ⟨n, hn, -, hl⟩ := expireCandidate_eq_some hindex
      refine ((removeNode_ensures hc ht hn hl).mono (fun _ => benign_exhausted)
        fun _ _ hr => hr).bind fun r _ ⟨hr, hremoved⟩ => ?_
      have hcount := countP_set_none_lt hn
      rw [← hremoved.nodes] at hcount
      exact (ih hr.coherent hr.timed (by omega)).mono (fun _ h => h) fun t _ ht' => ht'.after hr

theorem expireNodes_ensures (hc : Coherent ctx s.pages s.nodes seqs lab)
    (ht : Timed s.nodes clock) :
    Ensures (expireNodes s now) Benign fun r => Evolve ctx clock lab s seqs r seqs :=
  expireNodesLoop_ensures hc ht (Nat.lt_succ_of_le List.countP_le_length)

/-! ### Following the tree -/

theorem findChild_eq_some {parent : Option ℕ} {edge : Edge} {index : ℕ}
    (h : findChild s parent edge = some index) :
    ∃ n, NodeAt s.nodes index n ∧ n.parent = parent ∧ n.edge = edge := by
  obtain ⟨hlt, hp, -⟩ := List.findIdx?_eq_some_iff_getElem.mp h
  cases ho : s.nodes[index] with
  | none => simp [ho] at hp
  | some n =>
    rw [ho] at hp
    exact ⟨n, by rw [NodeAt, List.getElem?_eq_getElem hlt, ho], by simpa using hp⟩

theorem findChild_eq_none {parent : Option ℕ} {edge : Edge} (h : findChild s parent edge = none)
    (j : ℕ) (m : RadixNode) (hj : NodeAt s.nodes j m) (hp : m.parent = parent) : m.edge ≠ edge := by
  intro he
  have := List.findIdx?_eq_none_iff.mp h (some m) (List.mem_of_getElem? hj)
  simp [hp, he] at this

theorem toEdge_eq_some {l : List Token} (h : l.length = 16) : toEdge l = some ⟨l, h⟩ := by
  rw [toEdge, dif_pos h]

/-- Setting the times of a node to the present keeps times in order. -/
theorem Timed.set {nodes : List (Option RadixNode)} (index : ℕ) (n : RadixNode)
    (ht : Timed nodes clock) (htouched : n.touched ≤ clock) (hexpires : n.touched < n.expires) :
    Timed (nodes.set index (some n)) clock := by
  intro j m hj
  rcases nodeAt_set.mp hj with ⟨rfl, -, ho⟩ | ⟨-, hj⟩
  · exact Option.some.inj ho ▸ ⟨htouched, hexpires⟩
  · exact ht j m hj

/-- Whole chunks, split at a position. -/
theorem chunksExact_drop_cons {α : Type} {n k : ℕ} {l c : List α} {rest : List (List α)}
    (h : (chunksExact n l).drop k = c :: rest) :
    k < l.length / n ∧ c = (l.drop (n * k)).take n ∧ (chunksExact n l).drop (k + 1) = rest := by
  have hk : (chunksExact n l)[k]? = some c := by
    have := congrArg (·[0]?) h
    simpa using this
  have hlt : k < l.length / n := by
    simpa using (List.getElem?_eq_some_iff.mp hk).1
  rw [getElem?_chunksExact hlt] at hk
  refine ⟨hlt, (Option.some.inj hk).symm, ?_⟩
  rw [← List.tail_drop, h, List.tail_cons]

/-- The hit of an admission is a request that holds a prefix of whole cached pages. -/
theorem hitLoop_ensures {body : List Token} (hbody : body.length ≤ ctx) (hlife : now < expires)
    {chunks : List (List Token)} {parent : Option ℕ} {pages : List ℕ}
    (hchunks : (chunksExact 16 body).drop pages.length = chunks)
    (hk : pages.length ≤ body.length / 16)
    (hpath : PathTo s.nodes parent (body.take (16 * pages.length)))
    (hc : Coherent ctx s.pages s.nodes (⟨body.take (16 * pages.length), pages⟩ :: seqs) lab)
    (ht : Timed s.nodes now) :
    Ensures (PagedPool.hitLoop now expires chunks s parent pages) Benign fun r =>
      r.2.length ≤ body.length / 16 ∧
        Evolve ctx now lab s (⟨body.take (16 * pages.length), pages⟩ :: seqs) r.1
          (⟨body.take (16 * r.2.length), r.2⟩ :: seqs) := by
  induction chunks generalizing s parent pages with
  | nil => exact ensures_ok.mpr ⟨hk, .refl hc ht⟩
  | cons chunk rest ih =>
    obtain ⟨hlt, rfl, hrest⟩ := chunksExact_drop_cons hchunks
    have hclen : ((body.drop (16 * pages.length)).take 16).length = 16 :=
      length_chunk (by omega)
    rw [PagedPool.hitLoop, toEdge_eq_some hclen]
    simp only [orErr, ok_bind]
    split
    · exact ensures_pure.mpr ⟨hk, .refl hc ht⟩
    · next index hindex =>
      obtain ⟨n, hn, hparent, hedge⟩ := findChild_eq_some hindex
      obtain ⟨pg, hpg, -, -⟩ := hc.node_page hn
      have hnode : s.nodes[index]? = some (some n) := hn
      simp only [hnode, orPanic, ok_bind]
      split
      · exact ensures_pure.mpr ⟨hk, .refl hc ht⟩
      · simp only [hpg, ok_bind]
        refine (ensures_orErr (Q := fun _ => True) (fun _ => by decide) fun _ _ => trivial).bind
          fun refs hrefs _ => ?_
        obtain rfl : pg.refs + 1 = refs := by
          have := orErr_eq_ok.mp hrefs
          exact (checkedAdd_eq_some.mp this).2
        -- One more page: the node's page continues the tokens matched so far.
        have htokens : body.take (16 * pages.length) ++ n.edge.1 =
            body.take (16 * (pages ++ [n.page]).length) := by
          rw [hedge, List.length_append, List.length_singleton]
          exact take_append_chunk body 16 pages.length
        have hshare := hc.share hn (hparent ▸ hpath)
          (by simp only [List.length_take]; omega) hpg
        have hnode' : NodeAt (s.nodes.set index (some { n with touched := now, expires })) index
            { n with touched := now, expires } := nodeAt_set_self hn.lt
        have hmono : ∀ {o : Option ℕ} {t : List Token}, PathTo s.nodes o t →
            PathTo (s.nodes.set index (some { n with touched := now, expires })) o t := by
          intro o t h
          refine h.mono fun j m hj => ?_
          by_cases hij : index = j
          · subst hij
            obtain rfl := hn.inj hj
            exact ⟨_, hnode', rfl, rfl⟩
          · exact ⟨m, (nodeAt_set_of_ne hij).mpr hj, rfl, rfl⟩
        rw [htokens] at hshare
        have hstep := hshare.retouch { n with touched := now, expires } hn rfl rfl rfl
        have htimed := ht.set index { n with touched := now, expires }
          (Nat.le_refl _) hlife
        have hpath' : PathTo (s.nodes.set index (some { n with touched := now, expires }))
            (some index) (body.take (16 * (pages ++ [n.page]).length)) := by
          rw [← htokens]
          exact hmono (.node hn (hparent ▸ hpath))
        refine (ih (s := { s with
            nodes := s.nodes.set index (some { n with touched := now, expires })
            pages := s.pages.set n.page { pg with refs := pg.refs + 1 } })
          (by simpa using hrest) (by simp only [List.length_append, List.length_singleton]; omega)
            hpath' hstep htimed).mono
          (fun _ h => h) fun r _ hrest => ⟨hrest.1, ?_⟩
        refine hrest.2.after ⟨hstep, htimed, by simp, fun mem hm => ?_, rfl, rfl, rfl⟩
        rw [← htokens]
        exact (hm.share hc hn (hparent ▸ hpath)).retouch hn rfl

/-! ### Publishing a retired request -/

/-- As long as some page is not cached, the node table has a free slot. -/
theorem exists_free_slot {pages : List PhysicalPage} {nodes : List (Option RadixNode)} {p : ℕ}
    (hc : Coherent ctx pages nodes seqs lab) (hp : p < pages.length) (h0 : nodeRefs nodes p = 0) :
    ∃ i, nodes.findIdx? Option.isNone = some i ∧ nodes[i]? = some none := by
  cases hfind : nodes.findIdx? Option.isNone with
  | some i =>
    obtain ⟨hlt, hnone, -⟩ := List.findIdx?_eq_some_iff_getElem.mp hfind
    exact ⟨i, rfl, by rw [List.getElem?_eq_getElem hlt, Option.isNone_iff_eq_none.mp hnone]⟩
  | none =>
    exfalso
    have hsome : ∀ i, i < nodes.length → ∃ n, NodeAt nodes i n := by
      intro i hi
      have := List.findIdx?_eq_none_iff.mp hfind _ (List.getElem_mem hi)
      obtain ⟨n, hn⟩ := Option.isSome_iff_exists.mp (by simpa using this)
      exact ⟨n, by rw [NodeAt, List.getElem?_eq_getElem hi, hn]⟩
    -- All slots occupied: their pages are as many as there are pages, and all distinct.
    let pageOf : Option RadixNode → ℕ := fun o => o.elim 0 (·.page)
    have hget : ∀ i n, NodeAt nodes i n → (nodes.map pageOf)[i]? = some n.page := by
      intro i n hn
      rw [List.getElem?_map, hn]
      rfl
    have hnodup : (nodes.map pageOf).Nodup := by
      refine List.nodup_iff_getElem?_ne_getElem?.mpr fun i j hij hj he => ?_
      rw [List.length_map] at hj
      obtain ⟨n, hn⟩ := hsome i (by omega)
      obtain ⟨m, hm⟩ := hsome j hj
      rw [hget i n hn, hget j m hm] at he
      exact absurd (hc.node_of_page hn hm (Option.some.inj he)) (by omega)
    have hmem : ∀ a ∈ nodes.map pageOf, ∃ i n, NodeAt nodes i n ∧ n.page = a := by
      intro a ha
      obtain ⟨i, hi⟩ := List.mem_iff_getElem?.mp ha
      obtain ⟨n, hn⟩ := hsome i (by simpa using (List.getElem?_eq_some_iff.mp hi).1)
      exact ⟨i, n, hn, by simpa [hget i n hn] using hi⟩
    have hlt := length_lt_of_nodup_of_not_mem hnodup
      (fun a ha => by
        obtain ⟨i, n, hn, rfl⟩ := hmem a ha
        exact hc.node_page_lt i n hn) hp
      (fun ha => by
        obtain ⟨i, n, hn, hpage⟩ := hmem p ha
        exact absurd (nodeRefs_pos.mpr ⟨i, n, hn, hpage⟩) (by omega))
    rw [List.length_map, hc.nodes_length] at hlt
    omega

theorem zipIdx_drop_cons {α : Type} {k : ℕ} {l : List α} {a : α} {j : ℕ}
    {rest : List (α × ℕ)} (h : l.zipIdx.drop k = (a, j) :: rest) :
    j = k ∧ ∃ tail, l.drop k = a :: tail ∧ l.zipIdx.drop (k + 1) = rest := by
  have hk : l.zipIdx[k]? = some (a, j) := by
    have := congrArg (·[0]?) h
    simpa using this
  rw [List.getElem?_zipIdx] at hk
  obtain ⟨b, hb, heq⟩ := Option.map_eq_some_iff.mp hk
  obtain ⟨rfl, rfl⟩ := Prod.mk.inj heq
  obtain ⟨hlt, rfl⟩ := List.getElem?_eq_some_iff.mp hb
  refine ⟨by simp, _, List.drop_eq_getElem_cons hlt, ?_⟩
  rw [← List.tail_drop, h, List.tail_cons]

/-- Publication of a retired request reports no inconsistency: a chunk that has no node has a page
that no node holds, and then the node table has room for it. -/
theorem publishLoop_ensures (hlife : now < expires) {entries : List (List Token × ℕ)}
    {parent : Option ℕ} {k : ℕ} (hentries : (chunksExact 16 q.tokens).zipIdx.drop k = entries)
    (hpath : PathTo s.nodes parent (q.tokens.take (16 * k)))
    (hc : Coherent ctx s.pages s.nodes (q :: seqs) lab) (ht : Timed s.nodes now) :
    Ensures (PagedPool.publishLoop now expires q entries s parent) Benign fun r =>
      Evolve ctx now lab s (q :: seqs) r (q :: seqs) := by
  induction entries generalizing s parent k with
  | nil => exact ensures_ok.mpr (.refl hc ht)
  | cons entry rest ih =>
    obtain ⟨chunk, logical⟩ := entry
    obtain ⟨rfl, _, hdrop, hrest⟩ := zipIdx_drop_cons hentries
    obtain ⟨hlt, rfl, -⟩ := chunksExact_drop_cons hdrop
    have hlen : 16 * (logical + 1) ≤ q.tokens.length := by omega
    have hclen := length_chunk hlen
    rw [PagedPool.publishLoop, toEdge_eq_some hclen]
    simp only [orErr, ok_bind]
    split
    · next index hindex =>
      obtain ⟨n, hn, hparent, hedge⟩ := findChild_eq_some hindex
      have hnode : s.nodes[index]? = some (some n) := hn
      simp only [hnode, orPanic, ok_bind]
      have hstep := hc.retouch { n with touched := now, expires } hn rfl rfl rfl
      have htimed := ht.set index { n with touched := now, expires }
        (Nat.le_refl _) hlife
      have hpath' : PathTo (s.nodes.set index (some { n with touched := now, expires }))
          (some index) (q.tokens.take (16 * (logical + 1))) := by
        have hspell : PathTo s.nodes (some index) (q.tokens.take (16 * (logical + 1))) := by
          rw [← take_append_chunk]
          have := PathTo.node hn (hparent ▸ hpath)
          rwa [hedge] at this
        refine hspell.mono fun j m hj => ?_
        by_cases hij : index = j
        · subst hij
          obtain rfl := hn.inj hj
          exact ⟨_, nodeAt_set_self hn.lt, rfl, rfl⟩
        · exact ⟨m, (nodeAt_set_of_ne hij).mpr hj, rfl, rfl⟩
      refine (ih (s := { s with
        nodes := s.nodes.set index (some { n with touched := now, expires }) })
        hrest hpath' hstep htimed).mono (fun _ h => h) fun r _ hr => ?_
      exact hr.after ⟨hstep, htimed, rfl, fun mem hm => hm.retouch hn rfl, rfl, rfl, rfl⟩
    · next hnone =>
      have hplen := hc.pages_length q List.mem_cons_self
      have hklt : logical < q.pages.length := by omega
      have hpage := List.getElem?_eq_getElem hklt
      have hplt := hc.pages_lt q List.mem_cons_self _ (List.getElem_mem hklt)
      have hpg := List.getElem?_eq_getElem hplt
      have hmissing := hc.not_cached_of_missing (e := ⟨_, hclen⟩) List.mem_cons_self hlen hpage
        hpath rfl (findChild_eq_none hnone)
      have hcached : s.pages[q.pages[logical]].cached ≠ true := by
        rw [Ne, hc.cached_iff _ _ hpg]
        omega
      obtain ⟨index, hindex, hfree⟩ := exists_free_slot hc hplt hmissing
      simp only [hpage, hpg, orPanic, ok_bind, failIf, if_neg hcached, hindex]
      refine (ensures_orErr (Q := fun _ => True) (fun _ => by decide) fun _ _ => trivial).bind
        fun refs hrefs _ => ?_
      obtain rfl : s.pages[q.pages[logical]].refs + 1 = refs :=
        (checkedAdd_eq_some.mp (orErr_eq_ok.mp hrefs)).2
      have hstep := hc.publish
        (n := ⟨parent, ⟨_, hclen⟩, q.pages[logical], now, expires⟩) hlen hpage hpath rfl
        (findChild_eq_none hnone) hfree hpg
      have htimed :=
        ht.set index ⟨parent, ⟨_, hclen⟩, q.pages[logical], now, expires⟩ (Nat.le_refl _) hlife
      have hilt := (List.getElem?_eq_some_iff.mp hfree).1
      have hpath' : PathTo
          (s.nodes.set index (some ⟨parent, ⟨_, hclen⟩, q.pages[logical], now, expires⟩))
          (some index) (q.tokens.take (16 * (logical + 1))) := by
        rw [← take_append_chunk]
        exact .node (nodeAt_set_self hilt) (hpath.set_some hfree)
      refine (ih (s := { s with
        nodes := s.nodes.set index (some ⟨parent, ⟨_, hclen⟩, q.pages[logical], now, expires⟩)
        pages := s.pages.set q.pages[logical] ⟨s.pages[q.pages[logical]].refs + 1, true⟩ })
        hrest hpath' hstep htimed).mono (fun _ h => h) fun r _ hr => ?_
      exact hr.after ⟨hstep, htimed, by simp, fun mem hm => hm.publish hc hlen hpage, rfl, rfl,
        rfl⟩

/-! ### Dropping references -/

theorem dropPageRef_loop {E : PagedError → Prop} {pages : List PhysicalPage} {held : List ℕ}
    (hheld : ∀ p ∈ held, ∃ pg, pages[p]? = some pg ∧ held.count p ≤ pg.refs) :
    Ensures (held.foldlM dropPageRef pages) E fun r =>
      r.length = pages.length ∧ ∀ (p : ℕ) (pg : PhysicalPage), pages[p]? = some pg →
        r[p]? = some { pg with refs := pg.refs - held.count p } := by
  induction held generalizing pages with
  | nil => exact ensures_ok.mpr ⟨rfl, fun p pg hp => by simpa using hp⟩
  | cons a held ih =>
    obtain ⟨pg, hpg, hle⟩ := hheld a List.mem_cons_self
    rw [List.count_cons_self] at hle
    rw [List.foldlM_cons, dropPageRef]
    simp only [hpg, orPanic, ok_bind, failIf]
    rw [if_neg (by omega), ok_bind]
    refine (ih fun p hp => ?_).mono
      (fun _ h => h) fun r _ hdropped => ⟨by simpa using hdropped.1, fun p pg' hp => ?_⟩
    · obtain ⟨pg', hpg', hle'⟩ := hheld p (.tail _ hp)
      by_cases hap : a = p
      · subst hap
        refine ⟨_, List.getElem?_set_self (List.getElem?_eq_some_iff.mp hpg).1, ?_⟩
        simp only
        omega
      · rw [List.count_cons_of_ne (by simpa using hap)] at hle'
        exact ⟨pg', by rw [List.getElem?_set_ne hap, hpg'], hle'⟩
    · obtain ⟨-, hr⟩ := hdropped
      by_cases hap : a = p
      · subst hap
        obtain rfl : pg = pg' := by simpa using hpg.symm.trans hp
        rw [hr a _ (List.getElem?_set_self (List.getElem?_eq_some_iff.mp hpg).1),
          List.count_cons_self]
        simp only [Option.some.injEq, PhysicalPage.mk.injEq, and_true]
        omega
      · rw [hr p pg' (by rw [List.getElem?_set_ne hap, hp]),
          List.count_cons_of_ne (by simpa using hap)]

/-- A retired request gives back exactly the references it holds. -/
theorem dropSequenceRefs_ensures {E : PagedError → Prop}
    (hc : Coherent ctx s.pages s.nodes (q :: seqs) lab) (ht : Timed s.nodes clock) :
    Ensures (dropSequenceRefs s q) E fun r =>
      Evolve ctx clock lab s (q :: seqs) r seqs := by
  rw [dropSequenceRefs]
  refine (dropPageRef_loop fun p hp => ?_).bind fun pages _ ⟨hlen, hpages⟩ =>
    ensures_pure.mpr ⟨hc.drop hlen hpages, ht, hlen, fun mem hm => hm.drop, rfl, rfl, rfl⟩
  have hlt := hc.pages_lt q List.mem_cons_self p hp
  refine ⟨_, List.getElem?_eq_getElem hlt, ?_⟩
  rw [hc.refs_eq p _ (List.getElem?_eq_getElem hlt), seqRefs_cons]
  omega

/-! ### Whole states -/

/-- The device pages hold what the state says they hold. -/
structure Faithful (mem : Memory) (s : State) : Prop where
  /-- Committed positions of live sequences hold their tags. -/
  seq : ∀ k q, s.sequences.get? k = some q → ∀ i p, i < q.tokens.length →
    q.pages[i / 16]? = some p → mem (p, i % 16) = q.tokens.take (i + 1)
  /-- Slots of cached pages hold the tags spelled by the path to their node. -/
  node : ∀ i n t, NodeAt s.nodes i n → PathTo s.nodes (some i) t → ∀ j, j < 16 →
    mem (n.page, j) = t.take (t.length - 16 + j + 1)

theorem faithful_iff {mem : Memory}
    (hc : Coherent ctx s.pages s.nodes s.sequences.values lab) :
    Faithful mem s ↔ Content mem s.nodes s.sequences.values lab := by
  constructor
  · intro h
    refine ⟨fun q hq => ?_, fun i n hn => h.node i n _ hn (hc.lab_node i n hn)⟩
    obtain ⟨k, hk⟩ := BTreeMap.mem_values.mp hq
    exact h.seq k q hk
  · intro h
    refine ⟨fun k q hk => h.seq q (BTreeMap.mem_values.mpr ⟨k, hk⟩), fun i n t hn ht => ?_⟩
    exact (hc.lab_node i n hn).unique ht ▸ h.node i n hn

theorem advanceClock_ensures :
    Ensures (advanceClock s now) Benign fun r => s.clock ≤ now ∧ r = { s with clock := now } := by
  rw [advanceClock]
  exact (ensures_failIf (Q := fun _ => s.clock ≤ now) (fun _ => by decide) fun h =>
    Nat.not_lt.mp h).bind fun _ _ h => ensures_pure.mpr ⟨h, rfl⟩

theorem Timed.mono {nodes : List (Option RadixNode)} {clock' : ℕ} (ht : Timed nodes clock)
    (h : clock ≤ clock') : Timed nodes clock' :=
  fun i n hn => ⟨(ht i n hn).1.trans h, (ht i n hn).2⟩

theorem ensures_count {k : ℕ} {Q : ℕ → Prop} (hk : k < 2 ^ 32) (hQ : Q k) :
    Ensures (count k) Benign Q := by
  rw [count, if_pos hk]
  exact hQ

theorem count_of_lt {k : ℕ} (h : k < 2 ^ 32) : count k = .ok k := by
  rw [count, if_pos h, orPanic]

theorem count_eq_ok {k n : ℕ} (h : count k = .ok n) : n = k := by
  rw [count, orPanic_eq_ok] at h
  split at h
  · exact (Option.some.inj h).symm
  · cases h

theorem checkedAdd_ensures {width a b : ℕ} :
    Ensures (orErr .exhausted (checkedAdd width a b)) Benign fun c => c = a + b :=
  ensures_orErr (fun _ => by decide) fun _ h => (checkedAdd_eq_some.mp h).2.symm

namespace PagedPool

/-- Counting a hit touches counters only. -/
theorem countHit_ensures {k : ℕ} :
    Ensures (countHit s k) Benign fun r => r.pages = s.pages ∧ r.nodes = s.nodes ∧
      r.sequences = s.sequences ∧ r.clock = s.clock ∧ r.nextSequence = s.nextSequence := by
  rw [countHit]
  split
  · refine checkedAdd_ensures.bind fun _ _ _ => checkedAdd_ensures.bind fun _ _ _ =>
      checkedAdd_ensures.bind fun _ _ _ => ?_
    exact ensures_pure.mpr ⟨rfl, rfl, rfl, rfl, rfl⟩
  · exact ensures_pure.mpr ⟨rfl, rfl, rfl, rfl, rfl⟩

/-- What an admission returns and leaves behind. -/
structure Opened (identity : ℕ) (prompt : List Token) (now : ℕ) (s : State)
    (r : PrefixHit × State) : Prop where
  sequence : r.1.sequence = ⟨identity, s.nextSequence⟩
  hitTokens : r.1.hitTokens = 16 * r.1.pages.length
  hit_lt : r.1.hitTokens < prompt.length
  sequences : r.2.sequences =
    s.sequences.insert s.nextSequence ⟨prompt.take r.1.hitTokens, r.1.pages⟩
  nextSequence : r.2.nextSequence = s.nextSequence + 1
  clock_le : s.clock ≤ now
  clock : r.2.clock = now

/-- **Admission** keeps the invariant and the device content. -/
theorem openState_ensures {identity : ℕ} {prompt : List Token} (hl : limits.Valid)
    (h : StateInv limits s) (hne : prompt ≠ []) (hlen : prompt.length ≤ limits.contextTokens) :
    Ensures (openState identity limits prompt now s) Benign fun r =>
      StateInv limits r.2 ∧ (∀ mem, Faithful mem s → Faithful mem r.2) ∧
        Opened identity prompt now s r := by
  obtain ⟨lab, hc⟩ := h.coherent
  have hpos := List.length_pos_iff.mpr hne
  rw [openState]
  refine (ensures_failIf (Q := fun _ => s.sequences.size < limits.sequences) (fun _ => by decide)
    fun hc => Nat.not_le.mp hc).bind fun _ _ hsize => ?_
  refine advanceClock_ensures.bind fun _ _ ⟨hclock, hs⟩ => ?_
  subst hs
  refine checkedAdd_ensures.bind fun expires _ hexpires => ?_
  have hlife : now < expires := by
    have := hl.ttl_pos
    omega
  refine (expireNodes_ensures (s := { s with clock := now }) hc (h.timed.mono hclock)).bind
    fun s₁ _ h₁ => ?_
  refine checkedAdd_ensures.bind fun nextSequence _ hnext => ?_
  set body := prompt.take ((prompt.length - 1) / 16 * 16) with hbody
  have hbodylen : body.length = (prompt.length - 1) / 16 * 16 := by
    rw [hbody, List.length_take]
    omega
  have hroot : Coherent limits.contextTokens s₁.pages s₁.nodes
      (⟨body.take (16 * ([] : List ℕ).length), []⟩ :: s.sequences.values) lab := by
    simpa using h₁.coherent.admitEmpty
  refine (hitLoop_ensures (s := { s₁ with nextSequence }) (by omega) hlife rfl (Nat.zero_le _)
    .root hroot h₁.timed).bind fun hit _ ⟨hhit, h₂⟩ => ?_
  refine (ensures_count (Q := fun k => k = hit.2.length) ?_ rfl).bind fun hitPages _ hk => ?_
  · have := hl.context_le
    omega
  subst hk
  refine countHit_ensures.bind fun s₃ _ h₃ => ensures_pure.mpr ?_
  obtain ⟨hpages, hnodes, hseqs, hclk, hnxt⟩ := h₃
  have hserial : s₁.nextSequence = s.nextSequence := h₁.nextSequence
  have hseqs₃ : s₃.sequences = s.sequences := hseqs.trans (h₂.sequences.trans h₁.sequences)
  have htake : body.take (16 * hit.2.length) = prompt.take (hit.2.length * 16) := by
    rw [hbody, List.take_take]
    congr 1
    omega
  have hfresh : s.sequences.get? s.nextSequence = none := by
    cases hget : s.sequences.get? s.nextSequence with
    | none => rfl
    | some q => exact absurd (h.serial _ _ hget).2 (Nat.lt_irrefl _)
  have hcoherent := h₂.coherent
  rw [htake] at hcoherent
  have hcoherent' := hcoherent.perm (BTreeMap.perm_values_insert hfresh).symm
  have hnext' : s₃.nextSequence = s.nextSequence + 1 :=
    hnxt.trans (h₂.nextSequence.trans (hnext.trans (by rw [hserial])))
  simp only [hserial, hseqs₃]
  refine ⟨⟨?_, ?_, by simp only [hnext']; omega, fun k q hk => ?_, ?_, lab, ?_⟩,
    fun mem hm => ?_, ⟨rfl, Nat.mul_comm _ _, ?_, rfl, hnext', hclock, ?_⟩⟩
  · simp only [hpages]
    rw [h₂.length]
    exact h₁.length.trans h.pages_length
  · simp only [BTreeMap.size_insert_of_get?_eq_none hfresh]
    omega
  · simp only [hnext'] at *
    rw [BTreeMap.get?_insert] at hk
    split at hk
    · have := h.next_pos
      omega
    · have := h.serial k q hk
      omega
  · simp only [hnodes, hclk]
    rw [h₂.clock]
    exact h₁.clock ▸ h₂.timed
  · simpa only [hpages, hnodes] using hcoherent'
  · have hm' := h₂.content mem (h₁.content mem ((faithful_iff hc).mp hm)).admitEmpty
    rw [htake] at hm'
    have hm'' := hm'.perm (BTreeMap.perm_values_insert hfresh).symm
    rw [← hpages, ← hnodes] at hcoherent'
    refine (faithful_iff hcoherent').mpr ?_
    simpa only [hnodes] using hm''
  · simp only
    omega
  · simp only [hclk]
    exact h₂.clock.trans h₁.clock

/-- A transaction that drops one sequence and maybe publishes it. -/
theorem retireState_ensures {serial : ℕ} {publishPrefix : Bool} (hl : limits.Valid)
    (h : StateInv limits s) :
    Ensures (retireState limits serial publishPrefix now s) Benign fun r =>
      StateInv limits r.2 ∧ (∀ mem, Faithful mem s → Faithful mem r.2) ∧
        r.2.sequences = s.sequences.erase serial ∧ r.2.nextSequence = s.nextSequence ∧
        s.clock ≤ now ∧ r.2.clock = now := by
  obtain ⟨lab, hc⟩ := h.coherent
  rw [retireState]
  refine advanceClock_ensures.bind fun _ _ ⟨hclock, hs⟩ => ?_
  subst hs
  refine checkedAdd_ensures.bind fun expires _ hexpires => ?_
  have hlife : now < expires := by
    have := hl.ttl_pos
    omega
  refine (expireNodes_ensures (s := { s with clock := now }) hc (h.timed.mono hclock)).bind
    fun s₁ _ h₁ => ?_
  refine (ensures_orErr (Q := fun q => s.sequences.get? serial = some q) (fun _ => by decide)
    fun q hq => ?_).bind fun q _ hq => ?_
  · rw [← hq]
    exact congrArg (·.get? serial) h₁.sequences.symm
  have hperm := BTreeMap.perm_values_of_get? hq
  have hc₁ := h₁.coherent.perm hperm
  have hpublish : Ensures (if publishPrefix then
      publishLoop now expires q (chunksExact 16 q.tokens).zipIdx
        { s₁ with sequences := s₁.sequences.erase serial } none
      else .ok { s₁ with sequences := s₁.sequences.erase serial }) Benign fun s₂ =>
      Evolve limits.contextTokens now lab { s₁ with sequences := s₁.sequences.erase serial }
        (q :: (s.sequences.erase serial).values) s₂ (q :: (s.sequences.erase serial).values) := by
    split
    · exact publishLoop_ensures (k := 0) hlife rfl .root hc₁ h₁.timed
    · exact ensures_ok.mpr (.refl hc₁ h₁.timed)
  refine hpublish.bind fun s₂ _ h₂ => ?_
  refine (dropSequenceRefs_ensures h₂.coherent h₂.timed).bind fun s₃ _ h₃ => ensures_pure.mpr ?_
  have hseqs : s₃.sequences = s.sequences.erase serial := by
    rw [h₃.sequences, h₂.sequences]
    exact congrArg (·.erase serial) h₁.sequences
  have hnext : s₃.nextSequence = s.nextSequence :=
    h₃.nextSequence.trans (h₂.nextSequence.trans h₁.nextSequence)
  have hclk : s₃.clock = now := h₃.clock.trans (h₂.clock.trans h₁.clock)
  have hcoherent : Coherent limits.contextTokens s₃.pages s₃.nodes s₃.sequences.values lab :=
    hseqs ▸ h₃.coherent
  refine ⟨⟨?_, ?_, hnext ▸ h.next_pos, fun k q' hk => ?_, hclk ▸ h₃.timed, lab, hcoherent⟩,
    fun mem hm => ?_, hseqs, hnext, hclock, hclk⟩
  · rw [h₃.length, h₂.length]
    exact h₁.length.trans h.pages_length
  · have := BTreeMap.size_erase_of_get?_eq_some hq
    have := h.size_le
    rw [hseqs]
    omega
  · rw [hseqs, BTreeMap.get?_erase] at hk
    split at hk
    · simp at hk
    · exact hnext ▸ h.serial k q' hk
  · refine (faithful_iff hcoherent).mpr (hseqs ▸ h₃.content mem (h₂.content mem ?_))
    exact (h₁.content mem ((faithful_iff hc).mp hm)).perm hperm

/-- **Cancellation** drops one sequence, and fails only on an absent one. -/
theorem cancelState_ensures {serial : ℕ} (h : StateInv limits s) :
    Ensures (cancelState serial s)
      (fun e => e = .unknownSequence ∧ s.sequences.get? serial = none) fun r =>
      StateInv limits r.2 ∧ (∀ mem, Faithful mem s → Faithful mem r.2) ∧
        r.2.sequences = s.sequences.erase serial ∧ r.2.nextSequence = s.nextSequence ∧
        r.2.clock = s.clock := by
  obtain ⟨lab, hc⟩ := h.coherent
  rw [cancelState]
  refine (ensures_orErr (Q := fun q => s.sequences.get? serial = some q) (fun hn => ⟨rfl, hn⟩)
    fun q hq => hq).bind fun q _ hq => ?_
  have hperm := BTreeMap.perm_values_of_get? hq
  refine (dropSequenceRefs_ensures (s := { s with sequences := s.sequences.erase serial })
    (hc.perm hperm) h.timed).bind fun s₁ _ h₁ => ensures_pure.mpr ?_
  have hseqs : s₁.sequences = s.sequences.erase serial := h₁.sequences
  have hnext : s₁.nextSequence = s.nextSequence := h₁.nextSequence
  have hclk : s₁.clock = s.clock := h₁.clock
  have hcoherent : Coherent limits.contextTokens s₁.pages s₁.nodes s₁.sequences.values lab :=
    hseqs ▸ h₁.coherent
  refine ⟨⟨h₁.length.trans h.pages_length, ?_, hnext ▸ h.next_pos, fun k q' hk => ?_,
    hclk ▸ h₁.timed, lab, hcoherent⟩, fun mem hm => ?_, hseqs, hnext, hclk⟩
  · have := BTreeMap.size_erase_of_get?_eq_some hq
    have := h.size_le
    rw [hseqs]
    omega
  · rw [hseqs, BTreeMap.get?_erase] at hk
    split at hk
    · simp at hk
    · exact hnext ▸ h.serial k q' hk
  · exact (faithful_iff hcoherent).mpr
      (hseqs ▸ h₁.content mem (((faithful_iff hc).mp hm).perm hperm))

/-- A transaction that only removes nodes keeps the invariant. -/
theorem stateInv_of_evolve {r : State} (h : StateInv limits s)
    (hc : Coherent limits.contextTokens s.pages s.nodes s.sequences.values lab)
    (hr : Evolve limits.contextTokens r.clock lab { s with clock := r.clock } s.sequences.values r
      s.sequences.values) :
    StateInv limits r ∧ (∀ mem, Faithful mem s → Faithful mem r) := by
  have hseqs : r.sequences = s.sequences := hr.sequences
  have hnext : r.nextSequence = s.nextSequence := hr.nextSequence
  have hcoherent : Coherent limits.contextTokens r.pages r.nodes r.sequences.values lab :=
    hseqs ▸ hr.coherent
  exact ⟨⟨hr.length.trans h.pages_length, hseqs ▸ h.size_le, hnext ▸ h.next_pos,
    fun k q hk => hnext ▸ h.serial k q (hseqs ▸ hk), hr.timed, lab, hcoherent⟩,
    fun mem hm => (faithful_iff hcoherent).mpr
      (hseqs ▸ hr.content mem ((faithful_iff hc).mp hm))⟩

/-- **Expiry** keeps every sequence. -/
theorem expireState_ensures (h : StateInv limits s) :
    Ensures (expireState now s) Benign fun r =>
      StateInv limits r.2 ∧ (∀ mem, Faithful mem s → Faithful mem r.2) ∧
        r.2.sequences = s.sequences ∧ r.2.nextSequence = s.nextSequence ∧
        s.clock ≤ now ∧ r.2.clock = now := by
  obtain ⟨lab, hc⟩ := h.coherent
  rw [expireState]
  refine advanceClock_ensures.bind fun _ _ ⟨hclock, hs⟩ => ?_
  subst hs
  refine (expireNodes_ensures (s := { s with clock := now }) hc (h.timed.mono hclock)).bind
    fun s₁ _ h₁ => ensures_pure.mpr ?_
  have hclk : s₁.clock = now := h₁.clock
  obtain ⟨hinv, hfaith⟩ := stateInv_of_evolve (r := s₁) h hc (hclk.symm ▸ h₁)
  exact ⟨hinv, hfaith, h₁.sequences, h₁.nextSequence, hclock, hclk⟩

/-! ### Eviction -/

/-- Nothing but the node references its page. -/
def CacheOnly (pages : List PhysicalPage) (n : RadixNode) : Prop :=
  ∃ pg, pages[n.page]? = some pg ∧ pg.refs = 1

/-- The oldest among the leaves in `slots` that only the cache holds. -/
structure OldestLeaf (s : State) (slots : List ℕ) (best : Option (ℕ × ℕ)) : Prop where
  found : ∀ c, best = some c → ∃ n, NodeAt s.nodes c.2 n ∧ Leaf s.nodes c.2 ∧
    CacheOnly s.pages n ∧ c.1 = n.touched
  oldest : ∀ j m, j ∈ slots → NodeAt s.nodes j m → Leaf s.nodes j → CacheOnly s.pages m →
    ∃ c, best = some c ∧ c.1 ≤ m.touched

/-- The candidate is the oldest leaf that only the cache holds. -/
theorem evictCandidate_ensures {E : PagedError → Prop}
    (hc : Coherent ctx s.pages s.nodes seqs lab) :
    Ensures (evictCandidate s) E (OldestLeaf s (List.range s.nodes.length)) := by
  rw [evictCandidate]
  refine (ensures_foldlM (d := []) (I := fun done _ best => OldestLeaf s done best)
    ⟨by simp, by simp⟩ ?_)
  intro done index _ best hbest
  cases hslot : s.nodes[index]?.join with
  | none =>
    refine ensures_ok.mpr ⟨hbest.found, fun j m hj hm => ?_⟩
    rcases List.mem_append.mp hj with hj | hj
    · exact hbest.oldest j m hj hm
    · rw [List.mem_singleton.mp hj, NodeAt] at hm
      simp [hm] at hslot
  | some n =>
    have hn : NodeAt s.nodes index n := Option.join_eq_some_iff.mp hslot
    obtain ⟨pg, hpg, -, -⟩ := hc.node_page hn
    simp only [hpg, orPanic, ok_bind]
    by_cases hcand : pg.refs = 1 ∧ isLeaf s index = true
    · rw [if_pos hcand]
      have hnew : Leaf s.nodes index ∧ CacheOnly s.pages n :=
        ⟨isLeaf_iff.mp hcand.2, pg, hpg, hcand.1⟩
      refine ensures_pure.mpr ⟨fun c heq => ?_, fun j m hj hm hl ho => ?_⟩
      · obtain rfl := Option.some.inj heq
        cases best with
        | none => exact ⟨n, hn, hnew.1, hnew.2, rfl⟩
        | some b =>
          rw [minCandidate]
          split
          · exact ⟨n, hn, hnew.1, hnew.2, rfl⟩
          · exact hbest.found b rfl
      · refine ⟨_, rfl, ?_⟩
        rcases List.mem_append.mp hj with hj | hj
        · obtain ⟨c, rfl, hle⟩ := hbest.oldest j m hj hm hl ho
          rw [minCandidate]
          split
          · next hlt => exact le_trans (hlt.elim le_of_lt fun h => h.1.le) hle
          · exact hle
        · obtain rfl := List.mem_singleton.mp hj
          obtain rfl := hm.inj hn
          cases best with
          | none => exact le_refl _
          | some b =>
            rw [minCandidate]
            split
            · exact le_refl _
            · next hge =>
              simp only [not_or] at hge
              exact not_lt.mp hge.1
    · rw [if_neg hcand]
      refine ensures_pure.mpr ⟨hbest.found, fun j m hj hm hl ho => ?_⟩
      rcases List.mem_append.mp hj with hj | hj
      · exact hbest.oldest j m hj hm hl ho
      · -- this leaf is held by a request as well
        obtain rfl := List.mem_singleton.mp hj
        obtain rfl := hm.inj hn
        obtain ⟨pg', hpg', hone⟩ := ho
        obtain rfl := Option.some.inj (hpg.symm.trans hpg')
        exact absurd ⟨hone, isLeaf_iff.mpr hl⟩ hcand

theorem freePages_ensures (hl : limits.Valid) (hlen : s.pages.length = limits.physicalPages) :
    Ensures (freePages s) Benign fun free => free = s.pages.countP (·.refs = 0) := by
  refine ensures_count ?_ rfl
  have := hl.pages_le
  have := List.countP_le_length (p := fun page : PhysicalPage => decide (page.refs = 0))
    (l := s.pages)
  omega

/-- Eviction ends, within fuel for the nodes there are. -/
theorem evictLoop_ensures {pagesNeeded fuel : ℕ} (hl : limits.Valid)
    (hlen : s.pages.length = limits.physicalPages) (hc : Coherent ctx s.pages s.nodes seqs lab)
    (ht : Timed s.nodes clock) (hfuel : s.nodes.countP Option.isSome < fuel) :
    Ensures (evictLoop pagesNeeded fuel s) Benign fun r =>
      Evolve ctx clock lab s seqs r seqs ∧ pagesNeeded ≤ r.pages.countP (·.refs = 0) := by
  induction fuel generalizing s with
  | zero => omega
  | succ fuel ih =>
    rw [evictLoop]
    refine (freePages_ensures hl hlen).bind fun free _ hfree => ?_
    subst hfree
    split
    · refine (evictCandidate_ensures hc).bind fun best _ hbest => ?_
      refine (ensures_orErr (Q := fun c => best = some c) (fun _ => by decide)
        fun c h => h).bind fun c _ hcand => ?_
      obtain ⟨n, hn, hleaf, -, -⟩ := hbest.found c hcand
      refine ((removeNode_ensures hc ht hn hleaf).mono (fun _ => benign_exhausted)
        fun _ _ hr => hr).bind fun r _ ⟨hr, hremoved⟩ => ?_
      have hcount := countP_set_none_lt hn
      rw [← hremoved.nodes] at hcount
      exact (ih (hr.length.trans hlen) hr.coherent hr.timed (by omega)).mono (fun _ h => h)
        fun t _ ht' => ⟨ht'.1.after hr, ht'.2⟩
    · next hge => exact ensures_pure.mpr ⟨.refl hc ht, Nat.not_lt.mp hge⟩

/-- **Eviction** keeps every sequence. -/
theorem evictState_ensures {pagesNeeded : ℕ} (hl : limits.Valid) (h : StateInv limits s) :
    Ensures (evictState pagesNeeded s) Benign fun r =>
      StateInv limits r.2 ∧ (∀ mem, Faithful mem s → Faithful mem r.2) ∧
        r.2.sequences = s.sequences ∧ r.2.nextSequence = s.nextSequence ∧
        r.2.clock = s.clock ∧ pagesNeeded ≤ r.2.pages.countP (·.refs = 0) := by
  obtain ⟨lab, hc⟩ := h.coherent
  rw [evictState]
  refine (evictLoop_ensures hl h.pages_length hc h.timed
    (Nat.lt_succ_of_le List.countP_le_length)).bind fun s₁ _ ⟨h₁, hfree⟩ => ensures_pure.mpr ?_
  have hclk : s₁.clock = s.clock := h₁.clock
  obtain ⟨hinv, hfaith⟩ := stateInv_of_evolve (r := s₁) h hc (by rw [hclk]; exact h₁)
  exact ⟨hinv, hfaith, h₁.sequences, h₁.nextSequence, hclk, hfree⟩

end PagedPool

end TpPaged

end Ferric
