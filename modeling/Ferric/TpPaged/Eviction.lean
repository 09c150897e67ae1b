import Ferric.Lib.Action
import Ferric.TpPaged.Expiry

/-!
# Eviction

`evict_unused` takes one leaf after the other out of the tree, the oldest first, as long as only the
cache holds its page. It can therefore reach a page of the cache exactly when nothing below the
page's node is held by a request. That is not every page that only the cache holds: a request may
keep a page whose node expired and was published again later, under a parent that another request
has computed a second time and published meanwhile, and whose page no request holds.

## Main definitions

* `Below` — the nodes below a node
* `reclaimablePages`, `shieldedPages`, `livePages` — pages that eviction can reach, pages of the
  cache that it cannot reach, pages of requests
* `Evicted` — what an eviction removes, in order

## Main results

* `length_pages_eq` — every page is free, reclaimable, live or shielded
* `PagedPool.evictUnused_attainable`, `PagedPool.not_attainable_by_references`
* `PagedPool.eviction_minimal`
-/

namespace Ferric

namespace TpPaged

open PagedPool

variable {nodes : List (Option RadixNode)} {n m : RadixNode} {i j c : ℕ} {ttl clock ctx : ℕ}
  {lab : ℕ → List Token} {s r : State} {seqs : List Sequence} {limits : PagedLimits}

/-! ### The nodes below a node -/

/-- `j` is `i`, or hangs below it. -/
inductive Below (nodes : List (Option RadixNode)) (i : ℕ) : ℕ → Prop
  | refl : Below nodes i i
  | child {j k : ℕ} {n : RadixNode} (hj : Below nodes i j) (hk : NodeAt nodes k n)
      (hp : n.parent = some j) : Below nodes i k

theorem Below.of_set_none (h : Below (nodes.set c none) i j) : Below nodes i j := by
  induction h with
  | refl => exact .refl
  | child _ hk hp ih => exact .child ih (nodeAt_set_none.mp hk).2 hp

/-- A leaf is above nothing else. -/
theorem Below.set_none (hl : Leaf nodes c) (h : Below nodes i j) (hj : j ≠ c) :
    Below (nodes.set c none) i j := by
  induction h with
  | refl => exact .refl
  | @child j k n _ hk hp ih =>
    have hjc : j ≠ c := by
      rintro rfl
      exact hl hk hp
    exact .child (ih hjc) (nodeAt_set_none.mpr ⟨hj.symm, hk⟩) hp

theorem Below.of_leaf (hl : Leaf nodes i) (h : Below nodes i j) : j = i := by
  induction h with
  | refl => rfl
  | child _ hk hp ih => exact absurd hp (ih ▸ hl hk)

/-- Only the cache holds the node and everything below it. -/
def Reclaimable (s : State) (i : ℕ) : Prop :=
  ∀ j m, Below s.nodes i j → NodeAt s.nodes j m → CacheOnly s.pages m

/-- The pages that the live sequences reference. -/
def livePages (s : State) : Finset ℕ := (s.sequences.values.flatMap (·.pages)).toFinset

open Classical in
/-- The pages of the cache that only the cache holds, up to the leaves below them. -/
noncomputable def reclaimablePages (s : State) : Finset ℕ :=
  (Finset.range s.pages.length).filter fun a =>
    ∃ i n, NodeAt s.nodes i n ∧ n.page = a ∧ Reclaimable s i

open Classical in
/-- The pages that only the cache holds, above a node whose page a live sequence references. -/
noncomputable def shieldedPages (s : State) : Finset ℕ :=
  (Finset.range s.pages.length).filter fun a =>
    ∃ i n, NodeAt s.nodes i n ∧ n.page = a ∧ CacheOnly s.pages n ∧
      ∃ j m, Below s.nodes i j ∧ NodeAt s.nodes j m ∧ m.page ∈ livePages s

theorem mem_reclaimablePages {a : ℕ} : a ∈ reclaimablePages s ↔
    a < s.pages.length ∧ ∃ i n, NodeAt s.nodes i n ∧ n.page = a ∧ Reclaimable s i := by
  simp only [reclaimablePages, Finset.mem_filter, Finset.mem_range]

theorem mem_shieldedPages {a : ℕ} : a ∈ shieldedPages s ↔
    a < s.pages.length ∧ ∃ i n, NodeAt s.nodes i n ∧ n.page = a ∧ CacheOnly s.pages n ∧
      ∃ j m, Below s.nodes i j ∧ NodeAt s.nodes j m ∧ m.page ∈ livePages s := by
  simp only [shieldedPages, Finset.mem_filter, Finset.mem_range]

theorem seqRefs_pos {a : ℕ} : 0 < seqRefs seqs a ↔ ∃ q ∈ seqs, a ∈ q.pages := by
  induction seqs with
  | nil => simp [seqRefs]
  | cons q seqs ih =>
    rw [seqRefs_cons, Nat.add_pos_iff_pos_or_pos, ih, List.count_pos_iff]
    simp

theorem mem_livePages {a : ℕ} : a ∈ livePages s ↔ 0 < seqRefs s.sequences.values a := by
  rw [livePages, List.mem_toFinset, List.mem_flatMap, seqRefs_pos]

/-- The page of a node that only the cache holds is in no sequence. -/
theorem Coherent.cacheOnly_iff {pages : List PhysicalPage}
    (hc : Coherent ctx pages nodes seqs lab) (hi : NodeAt nodes i n) :
    CacheOnly pages n ↔ seqRefs seqs n.page = 0 := by
  obtain ⟨pg, hpg, -, -⟩ := hc.node_page hi
  have hrefs := hc.refs_eq _ _ hpg
  have hle := hc.nodeRefs_le n.page
  have hpos : 0 < nodeRefs nodes n.page := nodeRefs_pos.mpr ⟨i, n, hi, rfl⟩
  constructor
  · rintro ⟨pg', hpg', hone⟩
    obtain rfl := Option.some.inj (hpg.symm.trans hpg')
    omega
  · intro hzero
    exact ⟨pg, hpg, by omega⟩

/-- **Every page is free, reclaimable, live or shielded**, and only one of these. -/
theorem length_pages_eq (hc : Coherent ctx s.pages s.nodes s.sequences.values lab) :
    s.pages.length = s.pages.countP (·.refs = 0) + (reclaimablePages s).card +
      (livePages s).card + (shieldedPages s).card := by
  let free := (Finset.range s.pages.length).filter fun a => s.pages[a]?.any (·.refs = 0)
  have hfree : ∀ a, a ∈ free ↔ a < s.pages.length ∧ seqRefs s.sequences.values a = 0 ∧
      nodeRefs s.nodes a = 0 := by
    intro a
    rw [Finset.mem_filter, Finset.mem_range]
    refine and_congr_right fun ha => ?_
    have hrefs := hc.refs_eq _ _ (List.getElem?_eq_getElem ha)
    rw [List.getElem?_eq_getElem ha, Option.any_some, decide_eq_true_iff]
    omega
  have hcached : ∀ {i n}, NodeAt s.nodes i n → 0 < nodeRefs s.nodes n.page :=
    fun hi => nodeRefs_pos.mpr ⟨_, _, hi, rfl⟩
  have hcover : Finset.range s.pages.length =
      free ∪ (reclaimablePages s ∪ (livePages s ∪ shieldedPages s)) := by
    ext a
    simp only [Finset.mem_range, Finset.mem_union, hfree, mem_reclaimablePages, mem_livePages,
      mem_shieldedPages]
    constructor
    · intro ha
      by_cases hlive : 0 < seqRefs s.sequences.values a
      · exact .inr (.inr (.inl hlive))
      by_cases hnode : nodeRefs s.nodes a = 0
      · exact .inl ⟨ha, by omega, hnode⟩
      obtain ⟨i, n, hi, rfl⟩ := nodeRefs_pos.mp (Nat.pos_of_ne_zero hnode)
      by_cases hreclaim : Reclaimable s i
      · exact .inr (.inl ⟨ha, i, n, hi, rfl, hreclaim⟩)
      · -- something below the node is held by a sequence
        simp only [Reclaimable, not_forall] at hreclaim
        obtain ⟨j, m, hbelow, hm, hheld⟩ := hreclaim
        rw [hc.cacheOnly_iff hm] at hheld
        exact .inr (.inr (.inr ⟨ha, i, n, hi, rfl, (hc.cacheOnly_iff hi).mpr (by omega), j, m,
          hbelow, hm, Nat.pos_of_ne_zero hheld⟩))
    · rintro (⟨ha, -⟩ | ⟨ha, -⟩ | hlive | ⟨ha, -⟩)
      · exact ha
      · exact ha
      · obtain ⟨q, hq, hmem⟩ := seqRefs_pos.mp hlive
        exact hc.pages_lt q hq a hmem
      · exact ha
  have hlast : Disjoint (livePages s) (shieldedPages s) := by
    refine Finset.disjoint_left.mpr fun a hlive hsh => ?_
    obtain ⟨-, i, n, hi, rfl, honly, -⟩ := mem_shieldedPages.mp hsh
    have := mem_livePages.mp hlive
    rw [(hc.cacheOnly_iff hi).mp honly] at this
    omega
  have hmiddle : Disjoint (reclaimablePages s) (livePages s ∪ shieldedPages s) := by
    refine Finset.disjoint_left.mpr fun a hre hrest => ?_
    obtain ⟨-, i, n, hi, rfl, hall⟩ := mem_reclaimablePages.mp hre
    rcases Finset.mem_union.mp hrest with hlive | hsh
    · have := mem_livePages.mp hlive
      rw [(hc.cacheOnly_iff hi).mp (hall i n .refl hi)] at this
      omega
    · obtain ⟨-, i', n', hi', hpage, -, j, m, hbelow, hm, hlive⟩ := mem_shieldedPages.mp hsh
      obtain rfl := hc.node_of_page hi' hi hpage
      have := mem_livePages.mp hlive
      rw [(hc.cacheOnly_iff hm).mp (hall j m hbelow hm)] at this
      omega
  have hfirst : Disjoint free (reclaimablePages s ∪ (livePages s ∪ shieldedPages s)) := by
    refine Finset.disjoint_left.mpr fun a hf hrest => ?_
    obtain ⟨-, hseq, hnode⟩ := (hfree a).mp hf
    simp only [Finset.mem_union, mem_reclaimablePages, mem_livePages, mem_shieldedPages] at hrest
    rcases hrest with ⟨-, i, n, hi, rfl, -⟩ | hlive | ⟨-, i, n, hi, rfl, -⟩
    · have := hcached hi
      omega
    · omega
    · have := hcached hi
      omega
  have hcard := congrArg Finset.card hcover
  rw [Finset.card_range, Finset.card_union_of_disjoint hfirst,
    Finset.card_union_of_disjoint hmiddle, Finset.card_union_of_disjoint hlast,
    card_filter_any] at hcard
  omega

/-! ### One removal -/

/-- An oldest leaf taken out. -/
structure Step (s : State) (c : ℕ) (n : RadixNode) (r : State) : Prop where
  node : NodeAt s.nodes c n
  leaf : Leaf s.nodes c
  cacheOnly : CacheOnly s.pages n
  removed : Removed s c n r
  oldest : ∀ j m, NodeAt s.nodes j m → Leaf s.nodes j → CacheOnly s.pages m →
    n.touched ≤ m.touched

namespace Step

theorem nodeAt_iff (h : Step s c n r) : NodeAt r.nodes j m ↔ j ≠ c ∧ NodeAt s.nodes j m := by
  rw [h.removed.nodes, nodeAt_set_none, ne_comm]

/-- The other nodes are held as before. -/
theorem cacheOnly_iff (h : Step s c n r) (hc : Coherent ctx s.pages s.nodes seqs lab)
    (hj : NodeAt s.nodes j m) (hne : j ≠ c) : CacheOnly r.pages m ↔ CacheOnly s.pages m := by
  obtain ⟨pg, -, hpages⟩ := h.removed.pages
  have hpage : n.page ≠ m.page := fun heq => hne (hc.node_of_page h.node hj heq).symm
  rw [CacheOnly, CacheOnly, hpages, List.getElem?_set_ne hpage]

theorem reclaimable_iff (h : Step s c n r) (hc : Coherent ctx s.pages s.nodes seqs lab)
    (hi : i ≠ c) : Reclaimable r i ↔ Reclaimable s i := by
  constructor
  · intro hre j m hbelow hj
    by_cases hjc : j = c
    · subst hjc
      obtain rfl := hj.inj h.node
      exact h.cacheOnly
    · rw [← h.cacheOnly_iff hc hj hjc]
      refine hre j m ?_ (h.nodeAt_iff.mpr ⟨hjc, hj⟩)
      rw [h.removed.nodes]
      exact hbelow.set_none h.leaf hjc
  · intro hre j m hbelow hj
    obtain ⟨hjc, hj⟩ := h.nodeAt_iff.mp hj
    rw [h.cacheOnly_iff hc hj hjc]
    rw [h.removed.nodes] at hbelow
    exact hre j m hbelow.of_set_none hj

theorem reclaimable (h : Step s c n r) : Reclaimable s c := by
  intro j m hbelow hj
  obtain rfl := hbelow.of_leaf h.leaf
  obtain rfl := hj.inj h.node
  exact h.cacheOnly

/-- One page less to reclaim. -/
theorem card_reclaimablePages (h : Step s c n r) (hc : Coherent ctx s.pages s.nodes seqs lab)
    (hlen : r.pages.length = s.pages.length) :
    (reclaimablePages r).card + 1 = (reclaimablePages s).card := by
  have hmem : n.page ∈ reclaimablePages s :=
    mem_reclaimablePages.mpr ⟨hc.node_page_lt c n h.node, c, n, h.node, rfl, h.reclaimable⟩
  have herase : reclaimablePages r = (reclaimablePages s).erase n.page := by
    ext a
    rw [Finset.mem_erase, mem_reclaimablePages, mem_reclaimablePages, hlen]
    constructor
    · rintro ⟨ha, i, m, hi, rfl, hre⟩
      obtain ⟨hic, hi⟩ := h.nodeAt_iff.mp hi
      exact ⟨fun heq => hic (hc.node_of_page hi h.node heq), ha, i, m, hi, rfl,
        (h.reclaimable_iff hc hic).mp hre⟩
    · rintro ⟨hne, ha, i, m, hi, rfl, hre⟩
      have hic : i ≠ c := by
        rintro rfl
        exact hne (congrArg RadixNode.page (hi.inj h.node))
      exact ⟨ha, i, m, h.nodeAt_iff.mpr ⟨hic, hi⟩, rfl, (h.reclaimable_iff hc hic).mpr hre⟩
  rw [herase, Finset.card_erase_add_one hmem]

/-- One more free page. -/
theorem free (h : Step s c n r) :
    r.pages.countP (·.refs = 0) = s.pages.countP (·.refs = 0) + 1 := by
  obtain ⟨pg, hpg, hpages⟩ := h.removed.pages
  obtain ⟨pg', hpg', hone⟩ := h.cacheOnly
  obtain rfl := Option.some.inj (hpg.symm.trans hpg')
  have := countP_set_add (f := fun page : PhysicalPage => decide (page.refs = 0))
    (b := ⟨pg.refs - 1, false⟩) hpg
  rw [hpages]
  simpa [hone] using this

end Step

/-! ### A whole eviction -/

/-- What an eviction removes, in the order in which it does. -/
structure Evicted (s : State) (victims : List ℕ) (r : State) : Prop where
  nodup : victims.Nodup
  cacheOnly : ∀ v ∈ victims, ∃ n, NodeAt s.nodes v n ∧ CacheOnly s.pages n
  nodes : ∀ i n, NodeAt r.nodes i n ↔ NodeAt s.nodes i n ∧ i ∉ victims
  free : r.pages.countP (·.refs = 0) = s.pages.countP (·.refs = 0) + victims.length
  /-- The children of a victim are removed before it. -/
  children : ∀ done v rest, victims = done ++ v :: rest →
    ∀ j m, NodeAt s.nodes j m → m.parent = some v → j ∈ done
  reclaimable : ∀ i n, NodeAt r.nodes i n → (Reclaimable r i ↔ Reclaimable s i)
  /-- No victim was used later than a node that could have been removed instead. -/
  oldest : ∀ i n, NodeAt r.nodes i n → Reclaimable r i →
    ∀ v m, v ∈ victims → NodeAt s.nodes v m → m.touched ≤ n.touched

theorem Evicted.refl (s : State) : Evicted s [] s where
  nodup := List.nodup_nil
  cacheOnly := by simp
  nodes := by simp
  free := rfl
  children := by simp
  reclaimable _ _ _ := Iff.rfl
  oldest := by simp

/-- One removal before the others. -/
theorem Evicted.cons {t : State} {victims : List ℕ} (h : Evicted r victims t) (hs : Step s c n r)
    (hc : Coherent ctx s.pages s.nodes seqs lab) (hage : Aged ttl s.nodes) :
    Evicted s (c :: victims) t := by
  have hfresh : c ∉ victims := by
    intro hmem
    obtain ⟨m, hm, -⟩ := h.cacheOnly c hmem
    exact (hs.nodeAt_iff.mp hm).1 rfl
  have hleft : ∀ i m, NodeAt t.nodes i m → i ≠ c ∧ NodeAt s.nodes i m := fun i m hi =>
    hs.nodeAt_iff.mp ((h.nodes i m).mp hi).1
  have hreclaimable : ∀ i m, NodeAt t.nodes i m → (Reclaimable t i ↔ Reclaimable s i) :=
    fun i m hi => (h.reclaimable i m hi).trans (hs.reclaimable_iff hc (hleft i m hi).1)
  refine
    { nodup := List.nodup_cons.mpr ⟨hfresh, h.nodup⟩
      cacheOnly := List.forall_mem_cons.mpr ⟨⟨n, hs.node, hs.cacheOnly⟩, fun v hv => ?_⟩
      nodes := fun i m => ?_
      free := ?_
      children := fun done v rest hsplit j m hj hp => ?_
      reclaimable := hreclaimable
      oldest := fun i n' hi hre v m hv hm => ?_ }
  · obtain ⟨m, hm, honly⟩ := h.cacheOnly v hv
    obtain ⟨hvc, hm⟩ := hs.nodeAt_iff.mp hm
    exact ⟨m, hm, (hs.cacheOnly_iff hc hm hvc).mp honly⟩
  · rw [h.nodes, hs.nodeAt_iff, List.mem_cons, not_or]
    tauto
  · rw [h.free, hs.free, List.length_cons]
    omega
  · cases done with
    | nil =>
      obtain ⟨rfl, -⟩ := List.cons.inj hsplit
      exact absurd hp (hs.leaf hj)
    | cons d done =>
      obtain ⟨rfl, hrest⟩ := List.cons.inj hsplit
      by_cases hjc : j = c
      · exact hjc ▸ List.mem_cons_self
      · exact .tail _ (h.children done v rest hrest j m (hs.nodeAt_iff.mpr ⟨hjc, hj⟩) hp)
  · rcases List.mem_cons.mp hv with rfl | hv
    · -- some leaf below the node that was left could have been removed
      obtain rfl := hm.inj hs.node
      have hre' := (hreclaimable i n' hi).mp hre
      obtain ⟨j, m', hj, ⟨hbelow, hle⟩, hl⟩ := exists_leaf_below hc
        (P := fun j m => Below s.nodes i j ∧ m.touched ≤ n'.touched)
        (fun j m k m' hj ⟨hbelow, hle⟩ hk hp =>
          ⟨hbelow.child hk hp, (hage.touched_le k m' j m hk hp hj).trans hle⟩)
        (hleft i n' hi).2 ⟨.refl, le_refl _⟩
      exact (hs.oldest j m' hj hl (hre' j m' hbelow hj)).trans hle
    · have hvc : v ≠ c := fun heq => hfresh (heq ▸ hv)
      exact h.oldest i n' hi hre v m hv (hs.nodeAt_iff.mpr ⟨hvc, hm⟩)

/-- Eviction can make this many pages free, and count the removals. -/
def Attainable (s : State) (pagesNeeded : ℕ) : Prop :=
  pagesNeeded ≤ s.pages.countP (·.refs = 0) + (reclaimablePages s).card ∧
    (pagesNeeded ≤ s.pages.countP (·.refs = 0) ∨
      s.evictedPages + (pagesNeeded - s.pages.countP (·.refs = 0)) < 2 ^ 64)

/-- Something can be reclaimed as long as some leaf can. -/
theorem exists_leaf_of_card_pos (hc : Coherent ctx s.pages s.nodes seqs lab)
    (h : (reclaimablePages s).card ≠ 0) :
    ∃ j m, NodeAt s.nodes j m ∧ Leaf s.nodes j ∧ CacheOnly s.pages m := by
  obtain ⟨a, ha⟩ := Finset.card_ne_zero.mp h
  obtain ⟨-, i, n, hi, -, hre⟩ := mem_reclaimablePages.mp ha
  obtain ⟨j, m, hj, hbelow, hl⟩ := exists_leaf_below hc (P := fun j _ => Below s.nodes i j)
    (fun j m k m' _ hbelow hk hp => hbelow.child hk hp) hi .refl
  exact ⟨j, m, hj, hl, hre j m hbelow hj⟩

namespace PagedPool

theorem freePages_eq (hl : limits.Valid) (hlen : s.pages.length = limits.physicalPages) :
    freePages s = .ok (s.pages.countP (·.refs = 0)) := by
  have := hl.pages_le
  have := List.countP_le_length (p := fun page : PhysicalPage => decide (page.refs = 0))
    (l := s.pages)
  rw [freePages, count, if_pos (by omega)]
  rfl

/-- **The loop** removes the oldest reclaimable nodes, as many as are missing. -/
theorem evictLoop_exact {pagesNeeded fuel : ℕ} (hl : limits.Valid)
    (hlen : s.pages.length = limits.physicalPages) (hc : Coherent ctx s.pages s.nodes seqs lab)
    (ht : Timed s.nodes clock) (hage : Aged ttl s.nodes)
    (hfuel : s.nodes.countP Option.isSome < fuel) :
    Ensures (evictLoop pagesNeeded fuel s) (fun _ => ¬ Attainable s pagesNeeded) fun r =>
      Attainable s pagesNeeded ∧ ∃ victims, Evicted s victims r ∧
        victims.length = pagesNeeded - s.pages.countP (·.refs = 0) := by
  induction fuel generalizing s with
  | zero => omega
  | succ fuel ih =>
    rw [evictLoop, freePages_eq hl hlen, ok_bind]
    by_cases hmissing : s.pages.countP (·.refs = 0) < pagesNeeded
    · rw [if_pos hmissing]
      refine (evictCandidate_ensures hc).bind fun best _ hbest => ?_
      cases best with
      | none =>
        -- no leaf, so nothing to reclaim
        refine fun hattainable => ?_
        obtain ⟨j, m, hj, hleaf, honly⟩ :=
          exists_leaf_of_card_pos hc (by have := hattainable.1; omega)
        obtain ⟨c, hsome, -⟩ := hbest.oldest j m (List.mem_range.mpr hj.lt) hj hleaf honly
        cases hsome
      | some c =>
        rw [orErr, ok_bind]
        obtain ⟨n, hn, hleaf, honly, htouched⟩ := hbest.found c rfl
        refine ((removeNode_ensures hc ht hn hleaf).mono (fun e he hattainable => ?_)
          fun _ _ hr => hr).bind fun r _ hremoval => ?_
        · have := hattainable.2
          omega
        obtain ⟨hr, hremoved⟩ := hremoval
        have hstep : Step s c.2 n r := ⟨hn, hleaf, honly, hremoved, fun j m hj hl' ho => by
          obtain ⟨c', hc', hle⟩ := hbest.oldest j m (List.mem_range.mpr hj.lt) hj hl' ho
          obtain rfl := Option.some.inj hc'
          rw [← htouched]
          exact hle⟩
        have hcount := countP_set_none_lt hn
        have hage' : Aged ttl r.nodes := hremoved.nodes ▸ hage.set_none
        have hfree := hstep.free
        have hcard := hstep.card_reclaimablePages hc hr.length
        have hevicted := hremoved.evictedPages
        have hlt := hremoved.evictedPages_lt
        have hiff : Attainable r pagesNeeded ↔ Attainable s pagesNeeded := by
          rw [Attainable, Attainable, hfree, hevicted]
          omega
        refine (ih (hr.length.trans hlen) hr.coherent hr.timed hage'
          (by rw [hremoved.nodes]; omega)).mono (fun _ hno hs => hno (hiff.mpr hs))
          fun t _ hrest => ?_
        obtain ⟨hattainable, victims, hv, hlength⟩ := hrest
        refine ⟨hiff.mp hattainable, c.2 :: victims, hv.cons hstep hc hage, ?_⟩
        rw [List.length_cons]
        omega
    · rw [if_neg hmissing]
      exact ensures_pure.mpr ⟨⟨by omega, .inl (by omega)⟩, [], .refl s, by
        rw [List.length_nil]
        omega⟩

variable {p : PagedPool}

/-- Eviction succeeds exactly when its target is attainable. -/
theorem evictUnused_exact {pagesNeeded : ℕ} (hp : p.PoolInv)
    (hage : Aged p.limits.cacheTtl p.state.nodes) :
    Ensures (p.evictUnused pagesNeeded) (fun _ => ¬ (p.Idle ∧ Attainable p.state pagesNeeded))
      fun r => (p.Idle ∧ Attainable p.state pagesNeeded) ∧ ∃ victims,
        Evicted p.state victims r.2.state ∧
        victims.length = pagesNeeded - p.state.pages.countP (·.refs = 0) := by
  obtain ⟨lab, hc⟩ := hp.state.coherent
  have hpages := hp.state.pages_length
  have hsplit := length_pages_eq hc
  rw [evictUnused]
  refine ensures_failIf_bind (fun hbig hok => ?_) fun _ => ?_
  · have := hok.2.1
    omega
  rw [transact]
  refine (requireIdle_ensures.mono (fun e he hok => he.2 hok.1) fun _ _ h => h).bind
    fun _ _ hidle => ?_
  have hstate : Ensures (evictState pagesNeeded p.state) _ _ :=
    evictState_ensures hp.limits hp.state
  rw [evictState] at hstate ⊢
  have hloop : Ensures (evictLoop pagesNeeded (p.state.nodes.length + 1) p.state) _ _ :=
    evictLoop_exact hp.limits hpages hc hp.state.timed hage
      (Nat.lt_succ_of_le List.countP_le_length)
  rw [bind_assoc]
  refine (hloop.mono (fun _ hno hok => hno hok.2) fun _ _ h => h).bind
    fun r hr hreclaimed => ?_
  obtain ⟨hattainable, hvictims⟩ := hreclaimed
  rw [hr, ok_bind] at hstate
  rw [pure_bind, validateState_of_inv (ensures_pure.mp hstate).1, ok_bind]
  exact ensures_pure.mpr ⟨⟨hidle, hattainable⟩, hvictims⟩

/-! ### Assignment by assignment -/

/-- `remove_node` as it is written. -/
def removeNodeInPlace (index : ℕ) : Action State PagedError Unit := do
  Action.query fun s => failIf (isLeaf s index = false) .invariant
  let slot ← Action.query fun s => orPanic s.nodes[index]?
  modify fun s => { s with nodes := s.nodes.set index none }
  let node ← Action.query fun _ => orErr .invariant slot
  let page ← Action.query fun s => orPanic s.pages[node.page]?
  Action.query fun _ => failIf (page.cached = false) .invariant
  modify fun s => { s with pages := s.pages.set node.page { page with cached := false } }
  let refs ← Action.query fun _ => orErr .invariant (checkedSub page.refs 1)
  modify fun s => { s with pages := s.pages.set node.page { refs, cached := false } }
  let evictedPages ← Action.query fun s => orErr .exhausted (checkedAdd 64 s.evictedPages 1)
  modify fun s => { s with evictedPages }

/-- The loop of `evict_unused` as it is written. -/
def evictInPlace (pagesNeeded : ℕ) : ℕ → Action State PagedError Unit
  | 0 => throw .diverge
  | fuel + 1 => do
    let free ← Action.query freePages
    if free < pagesNeeded then
      let candidate ← Action.query evictCandidate
      let candidate ← Action.query fun _ => orErr .outOfPages candidate
      removeNodeInPlace candidate.2
      evictInPlace pagesNeeded fuel
    else
      return ()

/-- `transact` as it is written: the change is made to a copy, and the copy is assigned when it has
been checked. -/
def transactInPlace {α : Type} (apply : Action State PagedError α) :
    Action PagedPool PagedError α := do
  Action.query requireIdle
  match apply.exec (← get).state with
  | (.ok result, proposed) => do
    Action.query fun p => validateState proposed p.limits
    modify fun p => { p with state := proposed }
    return result
  | (.error e, _) => throw e

/-- `evict_unused` as it is written. -/
def evictUnusedInPlace (pagesNeeded : ℕ) : Action PagedPool PagedError Unit := do
  Action.query fun p => failIf (pagesNeeded > p.limits.physicalPages) .outOfPages
  let fuel := (← get).state.nodes.length + 1
  transactInPlace (evictInPlace pagesNeeded fuel)

theorem exec_removeNodeInPlace (index : ℕ) : ∃ t, (removeNodeInPlace index).exec s =
    match removeNode s index with
    | .ok r => (.ok (), r)
    | .error e => (.error e, t) := by
  rw [removeNodeInPlace, exec_bind, exec_query, removeNode]
  cases failIf (isLeaf s index = false) PagedError.invariant with
  | error e => exact ⟨_, rfl⟩
  | ok _ =>
    simp only [exec_bind, exec_query, ok_bind]
    cases (orPanic s.nodes[index]? : Outcome PagedError _) with
    | error e => exact ⟨_, rfl⟩
    | ok slot =>
      simp only [exec_modify, ok_bind]
      cases orErr PagedError.invariant slot with
      | error e => exact ⟨_, rfl⟩
      | ok node =>
        simp only [ok_bind]
        cases (orPanic s.pages[node.page]? : Outcome PagedError _) with
        | error e => exact ⟨_, rfl⟩
        | ok page =>
          simp only [ok_bind]
          cases failIf (page.cached = false) PagedError.invariant with
          | error e => exact ⟨_, rfl⟩
          | ok _ =>
            simp only [ok_bind]
            by_cases hrefs : page.refs < 1
            · simp only [checkedSub, if_neg (not_le.mpr hrefs), failIf, if_pos hrefs, orErr,
                error_bind]
              exact ⟨_, rfl⟩
            · simp only [checkedSub_of_le (not_lt.mp hrefs), failIf_of_not hrefs, orErr, ok_bind]
              cases checkedAdd 64 s.evictedPages 1 with
              | none => exact ⟨_, rfl⟩
              | some k =>
                simp only [List.set_set]
                exact ⟨s, rfl⟩

theorem exec_evictInPlace (pagesNeeded fuel : ℕ) : ∃ t, (evictInPlace pagesNeeded fuel).exec s =
    match evictLoop pagesNeeded fuel s with
    | .ok r => (.ok (), r)
    | .error e => (.error e, t) := by
  induction fuel generalizing s with
  | zero => exact ⟨s, rfl⟩
  | succ fuel ih =>
    rw [evictInPlace, exec_bind, exec_query, evictLoop]
    cases freePages s with
    | error e => exact ⟨_, rfl⟩
    | ok free =>
      simp only [ok_bind]
      split
      · simp only [exec_bind, exec_query]
        cases evictCandidate s with
        | error e => exact ⟨_, rfl⟩
        | ok best =>
          simp only [ok_bind]
          cases orErr PagedError.outOfPages best with
          | error e => exact ⟨_, rfl⟩
          | ok c =>
            obtain ⟨t, ht⟩ := exec_removeNodeInPlace (s := s) c.2
            simp only [ok_bind]
            rw [ht]
            cases removeNode s c.2 with
            | error e => exact ⟨t, rfl⟩
            | ok r => exact ih
      · exact ⟨s, rfl⟩

/-- The assignments make the eviction, and a failed one leaves the pool as it was. -/
theorem evictUnusedInPlace_exec (p : PagedPool) (pagesNeeded : ℕ) :
    (evictUnusedInPlace pagesNeeded).exec p =
      match p.evictUnused pagesNeeded with
      | .ok r => (.ok (), r.2)
      | .error e => (.error e, p) := by
  rw [evictUnusedInPlace, exec_bind, exec_query, evictUnused]
  cases failIf (pagesNeeded > p.limits.physicalPages) PagedError.outOfPages with
  | error e => rfl
  | ok _ =>
    simp only [exec_bind, exec_get, ok_bind]
    obtain ⟨t, ht⟩ := exec_evictInPlace (s := p.state) pagesNeeded (p.state.nodes.length + 1)
    rw [transactInPlace, exec_bind, exec_query, transact]
    cases p.requireIdle with
    | error e => rfl
    | ok _ =>
      simp only [exec_bind, exec_get, ok_bind, evictState]
      rw [ht]
      cases evictLoop pagesNeeded (p.state.nodes.length + 1) p.state with
      | error e => rfl
      | ok r =>
        simp only [exec_bind, exec_query, ok_bind, pure_bind]
        cases validateState r p.limits with
        | error e => rfl
        | ok _ => rfl

/-! ### What can be evicted -/

/-- **Attainable targets.** In every reachable idle pool an eviction succeeds exactly when its
target leaves room for the pages that live sequences reference and for the pages of the cache above
them, and the eviction counter has room for what is missing. -/
theorem evictUnused_attainable (h : poolSystem.Reachable p) (hidle : p.Idle) (pagesNeeded : ℕ) :
    (∃ r, p.evictUnused pagesNeeded = .ok r) ↔
      pagesNeeded ≤ p.limits.physicalPages - (livePages p.state).card -
        (shieldedPages p.state).card ∧
      (pagesNeeded ≤ p.state.pages.countP (·.refs = 0) ∨
        p.state.evictedPages + (pagesNeeded - p.state.pages.countP (·.refs = 0)) < 2 ^ 64) := by
  obtain ⟨hp, hage⟩ := aged_of_reachable h
  obtain ⟨lab, hc⟩ := hp.state.coherent
  have hpages := hp.state.pages_length
  have hsplit := length_pages_eq hc
  have hroom : Attainable p.state pagesNeeded ↔
      pagesNeeded ≤ p.limits.physicalPages - (livePages p.state).card -
        (shieldedPages p.state).card ∧
      (pagesNeeded ≤ p.state.pages.countP (·.refs = 0) ∨
        p.state.evictedPages + (pagesNeeded - p.state.pages.countP (·.refs = 0)) < 2 ^ 64) := by
    rw [Attainable]
    omega
  rw [← hroom]
  have hexact : Ensures (p.evictUnused pagesNeeded) _ _ := evictUnused_exact hp hage
  rcases hexact.cases with
    ⟨r, hok, ⟨-, hattainable⟩, -⟩ | ⟨e, herr, hnot⟩
  · exact iff_of_true ⟨r, hok⟩ hattainable
  · refine iff_of_false ?_ fun hattainable => hnot ⟨hidle, hattainable⟩
    rintro ⟨r, hok⟩
    rw [herr] at hok
    cases hok

/-- The shared prefix expires while two requests hold it. Its first page is computed and published
again, and then one of the two requests publishes the second page below it. -/
def republishedCalls : List Call :=
  sharedCalls ++ [.expire 20, .openSequence smallPool.scope (List.range 17) 20] ++
    batchCalls 3 (pageRows 4 0) ++ [.retireSequence ⟨1, 4⟩ true 21,
      .retireSequence ⟨1, 2⟩ true 22]

/-- Five of the eight pages can be made free after these calls. -/
theorem evictUnused_attainable_republished :
    ∃ p, poolSystem.Reachable p ∧ p.Idle ∧ (∃ r, p.evictUnused 5 = .ok r) ∧
      5 ≤ p.limits.physicalPages - (livePages p.state).card - (shieldedPages p.state).card := by
  have hrun : (smallPool.runCalls republishedCalls).map (fun p => (decide p.Idle,
      (p.evictUnused 5).toOption.isSome)) = .ok (true, true) := by
    decide +kernel
  cases hr : smallPool.runCalls republishedCalls with
  | error e => simp [hr, Except.map] at hrun
  | ok p =>
    simp only [hr, Except.map, Except.ok.injEq, Prod.mk.injEq, decide_eq_true_eq] at hrun
    obtain ⟨hidle, hok⟩ := hrun
    have h := reachable_of_runCalls (.init fresh_smallPool) hr
    have hok : ∃ r, p.evictUnused 5 = .ok r := by
      cases hx : p.evictUnused 5 with
      | error e => simp [hx, Except.toOption] at hok
      | ok r => exact ⟨r, rfl⟩
    exact ⟨p, h, hidle, hok, ((evictUnused_attainable h hidle 5).mp hok).1⟩

/-- **Counting references is not enough.** After these calls the one live sequence references two of
the eight pages, and six pages cannot be made free: one page that only the cache holds is above a
page of that sequence. -/
theorem not_attainable_by_references :
    ¬ ∀ p, poolSystem.Reachable p → p.Idle → ∀ pagesNeeded,
      (∃ r, p.evictUnused pagesNeeded = .ok r) ↔
        pagesNeeded ≤ p.limits.physicalPages - (livePages p.state).card := by
  intro hall
  have hrun : (smallPool.runCalls republishedCalls).map (fun p => (decide p.Idle,
      p.limits.physicalPages - (livePages p.state).card,
      (p.evictUnused 6).toOption.isSome)) = .ok (true, 6, false) := by
    decide +kernel
  cases hr : smallPool.runCalls republishedCalls with
  | error e => simp [hr, Except.map] at hrun
  | ok p =>
    simp only [hr, Except.map, Except.ok.injEq, Prod.mk.injEq, decide_eq_true_eq] at hrun
    obtain ⟨hidle, hsix, hno⟩ := hrun
    obtain ⟨r, hok⟩ := (hall p (reachable_of_runCalls (.init fresh_smallPool) hr) hidle 6).mpr
      (by omega)
    simp [hok, Except.toOption] at hno

/-- **Eviction is minimal and takes the least recently used.** In every reachable pool a successful
eviction leaves as many free pages as there were or as were asked for, whichever is more, and every
sequence as it was; it removes as many nodes as pages were missing, each of them held by the cache
alone, children before their parents, and none that was used after a node it could have removed
instead. A call that fails leaves the pool as it was, and none panics or runs on. A reservation
after an eviction for all of its page boundaries does not run out of pages. -/
theorem eviction_minimal (h : poolSystem.Reachable p) :
    (∀ pagesNeeded r, p.evictUnused pagesNeeded = .ok r →
      r.2.state.pages.countP (·.refs = 0) =
        max (p.state.pages.countP (·.refs = 0)) pagesNeeded ∧
      r.2.state.sequences = p.state.sequences ∧ Keeps p.state r.2.state ∧
      ∃ victims, Evicted p.state victims r.2.state ∧
        victims.length = pagesNeeded - p.state.pages.countP (·.refs = 0)) ∧
    (∀ pagesNeeded, Total (p.evictUnused pagesNeeded) ∧
      (evictUnusedInPlace pagesNeeded).exec p =
        match p.evictUnused pagesNeeded with
        | .ok r => (.ok (), r.2)
        | .error e => (.error e, p)) ∧
    ∀ rows r, p.evictUnused (rows.countP (·.position % 16 = 0)) = .ok r →
      r.2.reserveBatch rows ≠ .error (.err .outOfPages) := by
  obtain ⟨hp, hage⟩ := aged_of_reachable h
  refine ⟨fun pagesNeeded r hr => ?_, fun pagesNeeded => ⟨?_, evictUnusedInPlace_exec p _⟩,
    fun rows r hr hout => ?_⟩
  · obtain ⟨-, victims, hv, hlength⟩ := (evictUnused_exact hp hage).of_ok hr
    obtain ⟨hkeeps, hseqs, -⟩ := ((evictUnused_ensures hp).of_ok hr).post
    refine ⟨?_, hseqs, hkeeps, victims, hv, hlength⟩
    rw [hv.free, hlength]
    omega
  · exact (evictUnused_ensures hp).mono (fun _ _ => trivial) fun _ _ _ => trivial
  · have ht := (evictUnused_ensures hp).of_ok hr
    have hneeded := ht.post.2.2.2
    have hreserve : Ensures (r.2.reserveBatch rows) _ _ := reserveBatch_ensures (ht.poolInv hp)
    have herror := hreserve.of_err hout
    cases herror with
    | notIdle _ hnot =>
      rw [ht.eq] at hnot
      exact hnot ht.idle
    | row hnext hrows hdone he =>
      cases he with
      | outOfPages hm hzero =>
        -- the boundaries before this one have used fewer pages than there were
        have hfree := hdone.free
        rw [hrows, List.countP_append, List.countP_cons_of_pos (by simpa using hm)] at hneeded
        omega

/-- The shared prefix is in the tree of the small pool, with no request left: six free pages. -/
def unusedCalls : List Call :=
  sharedCalls ++ [.retireSequence ⟨1, 2⟩ false 5, .retireSequence ⟨1, 3⟩ false 6]

/-- Seven free pages are attained by removing one node, and the rest of the tree stays. -/
theorem eviction_minimal_unused :
    ∃ p r, poolSystem.Reachable p ∧ p.state.pages.countP (·.refs = 0) = 6 ∧
      p.evictUnused 7 = .ok r ∧ r.2.state.pages.countP (·.refs = 0) = 7 ∧
      ∃ victims, Evicted p.state victims r.2.state ∧ victims.length = 1 := by
  have hrun : (smallPool.runCalls unusedCalls).map (fun p =>
      (p.state.pages.countP (·.refs = 0), (p.evictUnused 7).toOption.isSome)) = .ok (6, true) := by
    decide +kernel
  cases hr : smallPool.runCalls unusedCalls with
  | error e => simp [hr, Except.map] at hrun
  | ok p =>
    simp only [hr, Except.map, Except.ok.injEq, Prod.mk.injEq] at hrun
    obtain ⟨hfree, hok⟩ := hrun
    have h := reachable_of_runCalls (.init fresh_smallPool) hr
    cases hx : p.evictUnused 7 with
    | error e => simp [hx, Except.toOption] at hok
    | ok r =>
      obtain ⟨hmax, -, -, victims, hv, hlength⟩ := (eviction_minimal h).1 7 r hx
      rw [hfree] at hmax hlength
      exact ⟨p, r, h, hfree, hx, hmax, victims, hv, hlength⟩

end PagedPool

end TpPaged

end Ferric
