import Ferric.TpPaged.Model

/-!
# Pages, sequences and the radix tree

The pool's check counts references and looks at one node at a time. Neither fact survives the
operations on its own: a page that left the cache while a request still held it may be published
again by that request, under a parent that another request has cached meanwhile, and the node it
gets must spell the tokens the page holds. What survives is that every complete page carries one
*label*, the token prefix it was computed from, and that sequences and tree agree with it.

`Coherent` states that. It speaks of the page table, the node table and the multiset of sequences,
and not of the map the sequences are stored in, so that a request in the middle of admission or
retirement is one more element of the list.

## Main definitions

* `seqRefs`, `nodeRefs` — who references a page
* `PathTo` — the tokens spelled from the root to a node
* `Coherent` — the invariant, relative to a labelling of the pages

## Main results

One lemma for each change an operation makes to the heap: `Coherent.evictNode`, `retouch`,
`share`, `publish`, `drop`, `appendPage`, `appendToken`, `admitEmpty`.
-/

namespace Ferric

namespace TpPaged

/-- Slot `i` of the node table holds node `n`. -/
def NodeAt (nodes : List (Option RadixNode)) (i : ℕ) (n : RadixNode) : Prop :=
  nodes[i]? = some (some n)

section NodeAt

variable {nodes : List (Option RadixNode)} {o : Option RadixNode} {n m : RadixNode} {i j : ℕ}

theorem NodeAt.inj (hn : NodeAt nodes i n) (hm : NodeAt nodes i m) : n = m := by
  simpa using hn.symm.trans hm

theorem NodeAt.lt (h : NodeAt nodes i n) : i < nodes.length := (List.getElem?_eq_some_iff.mp h).1

theorem nodeAt_set :
    NodeAt (nodes.set i o) j n ↔
      (i = j ∧ j < nodes.length ∧ o = some n) ∨ (i ≠ j ∧ NodeAt nodes j n) :=
  getElem?_set_eq_some

theorem nodeAt_set_none : NodeAt (nodes.set i none) j n ↔ i ≠ j ∧ NodeAt nodes j n := by
  simp [nodeAt_set]

theorem nodeAt_set_of_ne (h : i ≠ j) : NodeAt (nodes.set i o) j n ↔ NodeAt nodes j n := by
  simp [nodeAt_set, h]

theorem nodeAt_set_self (h : i < nodes.length) : NodeAt (nodes.set i (some n)) i n := by
  simp [nodeAt_set, h]

end NodeAt

/-! ### References -/

/-- How many references the sequences hold on a page. -/
def seqRefs (seqs : List Sequence) (p : ℕ) : ℕ := (seqs.map (·.pages.count p)).sum

/-- How many references the radix nodes hold on a page. -/
def nodeRefs (nodes : List (Option RadixNode)) (p : ℕ) : ℕ :=
  nodes.countP fun node => node.any fun n => n.page = p

variable {nodes : List (Option RadixNode)} {n m : RadixNode} {i j p : ℕ} {seqs : List Sequence}

@[simp] theorem seqRefs_cons (q : Sequence) :
    seqRefs (q :: seqs) p = q.pages.count p + seqRefs seqs p := by
  simp [seqRefs]

theorem seqRefs_perm {seqs' : List Sequence} (h : seqs.Perm seqs') :
    seqRefs seqs p = seqRefs seqs' p := (h.map _).sum_eq

/-- A sequence's own references are part of the total. -/
theorem count_le_seqRefs {q : Sequence} (h : q ∈ seqs) : q.pages.count p ≤ seqRefs seqs p := by
  rw [seqRefs_perm (List.perm_cons_erase h), seqRefs_cons]
  exact Nat.le_add_right _ _

theorem nodeRefs_pos : 0 < nodeRefs nodes p ↔ ∃ i n, NodeAt nodes i n ∧ n.page = p := by
  rw [nodeRefs, List.countP_pos_iff]
  constructor
  · rintro ⟨o, ho, hp⟩
    obtain ⟨i, hi⟩ := List.mem_iff_getElem?.mp ho
    cases o with
    | none => simp at hp
    | some n => exact ⟨i, n, hi, by simpa using hp⟩
  · rintro ⟨i, n, hi, hn⟩
    exact ⟨some n, List.mem_of_getElem? hi, by simpa using hn⟩

theorem nodeRefs_set_none (h : NodeAt nodes i n) :
    nodeRefs (nodes.set i none) p + (if n.page = p then 1 else 0) = nodeRefs nodes p := by
  have := countP_set_add (f := fun node => node.any fun n : RadixNode => n.page = p) (b := none) h
  simpa [nodeRefs] using this

theorem nodeRefs_set_some (h : nodes[i]? = some none) :
    nodeRefs (nodes.set i (some n)) p = nodeRefs nodes p + (if n.page = p then 1 else 0) := by
  have := countP_set_add (f := fun node => node.any fun n : RadixNode => n.page = p)
    (b := some n) h
  simpa [nodeRefs] using this

/-! ### Paths -/

/-- The tokens on the edges from the root down to a node; `none` is the root itself. -/
inductive PathTo (nodes : List (Option RadixNode)) : Option ℕ → List Token → Prop
  | root : PathTo nodes none []
  | node {i : ℕ} {n : RadixNode} {t : List Token} (hi : NodeAt nodes i n)
      (ht : PathTo nodes n.parent t) : PathTo nodes (some i) (t ++ n.edge.1)

/-- The path of a node ends in its edge. -/
theorem PathTo.inv {t : List Token} (h : PathTo nodes (some i) t) :
    ∃ n t', NodeAt nodes i n ∧ PathTo nodes n.parent t' ∧ t = t' ++ n.edge.1 := by
  cases h with
  | node hi ht => exact ⟨_, _, hi, ht, rfl⟩

theorem PathTo.of_node {t : List Token} (h : PathTo nodes (some i) t)
    (hi : NodeAt nodes i n) : ∃ t', PathTo nodes n.parent t' ∧ t = t' ++ n.edge.1 := by
  obtain ⟨m, t', hm, ht, rfl⟩ := h.inv
  obtain rfl := hm.inj hi
  exact ⟨t', ht, rfl⟩

/-- Paths are made of whole pages. -/
theorem PathTo.dvd_length {o : Option ℕ} {t : List Token} (h : PathTo nodes o t) :
    16 ∣ t.length := by
  induction h with
  | root => simp
  | @node i n t hi ht ih =>
    rw [List.length_append, n.edge.2]
    exact (Nat.dvd_add_right ih).mpr (dvd_refl _)

/-- A node has one path. -/
theorem PathTo.unique {o : Option ℕ} {t t' : List Token} (h : PathTo nodes o t)
    (h' : PathTo nodes o t') : t = t' := by
  induction h generalizing t' with
  | root =>
    cases h'
    rfl
  | node hi ht ih =>
    obtain ⟨s, hs, rfl⟩ := h'.of_node hi
    rw [ih hs]

/-- No two children of one parent share an edge. -/
def UniqueEdges (nodes : List (Option RadixNode)) : Prop :=
  ∀ ⦃i j : ℕ⦄ ⦃n m : RadixNode⦄, NodeAt nodes i n → NodeAt nodes j m →
    n.parent = m.parent → n.edge = m.edge → i = j

/-- Two lists that end in edges are equal only if their bodies and their edges are. -/
theorem append_edge_inj {s t : List Token} {e e' : Edge} (h : s ++ e.1 = t ++ e'.1) :
    s = t ∧ e = e' := by
  obtain ⟨h₁, h₂⟩ := List.append_inj' h (e.2.trans e'.2.symm)
  exact ⟨h₁, Subtype.ext h₂⟩

/-- A path leads to one node. -/
theorem PathTo.injective (hu : UniqueEdges nodes) {o o' : Option ℕ} {t : List Token}
    (h : PathTo nodes o t) (h' : PathTo nodes o' t) : o = o' := by
  induction h generalizing o' with
  | root =>
    generalize hs : ([] : List Token) = s at h'
    cases h' with
    | root => rfl
    | @node i n t hi ht =>
      have hlen := congrArg List.length hs
      rw [List.length_append, n.edge.2] at hlen
      simp at hlen
  | @node i n t hi ht ih =>
    generalize hs : t ++ n.edge.1 = s at h'
    cases h' with
    | root =>
      have hlen := congrArg List.length hs
      rw [List.length_append, n.edge.2] at hlen
      simp at hlen
    | @node j m t' hj ht' =>
      obtain ⟨rfl, he⟩ := append_edge_inj hs
      rw [hu hi hj (ih ht') he]

/-- Paths depend only on parents and edges. -/
theorem PathTo.mono {nodes' : List (Option RadixNode)}
    (hn : ∀ i n, NodeAt nodes i n →
      ∃ n', NodeAt nodes' i n' ∧ n'.parent = n.parent ∧ n'.edge = n.edge)
    {o : Option ℕ} {t : List Token} (h : PathTo nodes o t) : PathTo nodes' o t := by
  induction h with
  | root => exact .root
  | node hi ht ih =>
    obtain ⟨n', hi', hp, he⟩ := hn _ _ hi
    rw [← he]
    exact .node hi' (hp ▸ ih)

/-- No node hangs below this one. -/
def Leaf (nodes : List (Option RadixNode)) (i : ℕ) : Prop :=
  ∀ ⦃j : ℕ⦄ ⦃n : RadixNode⦄, NodeAt nodes j n → n.parent ≠ some i

/-- Removing a leaf leaves the paths of all other nodes. -/
theorem PathTo.set_none (hl : Leaf nodes i) {o : Option ℕ} {t : List Token}
    (h : PathTo nodes o t) (ho : o ≠ some i) : PathTo (nodes.set i none) o t := by
  induction h with
  | root => exact .root
  | @node j n t hj ht ih =>
    have hij : i ≠ j := fun he => ho (he ▸ rfl)
    exact .node ((nodeAt_set_of_ne hij).mpr hj) (ih (hl hj))

theorem PathTo.set_some (hi : nodes[i]? = some none) {o : Option ℕ} {t : List Token}
    (h : PathTo nodes o t) : PathTo (nodes.set i (some n)) o t := by
  refine h.mono fun j m hj => ⟨m, ?_, rfl, rfl⟩
  have hij : i ≠ j := by
    rintro rfl
    simp [NodeAt, hi] at hj
  exact (nodeAt_set_of_ne hij).mpr hj

/-! ### The invariant -/

/-- Page table, radix tree and sequences agree on who references what, and on the tokens of every
complete page. `lab p` is the token prefix up to and including page `p`. -/
structure Coherent (ctx : ℕ) (pages : List PhysicalPage) (nodes : List (Option RadixNode))
    (seqs : List Sequence) (lab : ℕ → List Token) : Prop where
  /-- A radix slot for every page. -/
  nodes_length : nodes.length = pages.length
  /-- A sequence holds exactly the pages its tokens need. -/
  pages_length : ∀ q ∈ seqs, q.pages.length = (q.tokens.length + 15) / 16
  /-- Logical context bound. -/
  tokens_le : ∀ q ∈ seqs, q.tokens.length ≤ ctx
  /-- A sequence never holds a page twice. -/
  pages_nodup : ∀ q ∈ seqs, q.pages.Nodup
  /-- Pages held by sequences exist. -/
  pages_lt : ∀ q ∈ seqs, ∀ p ∈ q.pages, p < pages.length
  /-- Pages held by nodes exist. -/
  node_page_lt : ∀ i n, NodeAt nodes i n → n.page < pages.length
  /-- The reference count of a page is the number of references. -/
  refs_eq : ∀ p pg, pages[p]? = some pg → pg.refs = seqRefs seqs p + nodeRefs nodes p
  /-- The cached flag says whether a node holds the page. -/
  cached_iff : ∀ p pg, pages[p]? = some pg → (pg.cached = true ↔ 0 < nodeRefs nodes p)
  /-- At most one node holds a page. -/
  nodeRefs_le : ∀ p, nodeRefs nodes p ≤ 1
  /-- Siblings have distinct edges. -/
  unique_edges : UniqueEdges nodes
  /-- The page of an incomplete tail is exclusive. -/
  tail_exclusive : ∀ q ∈ seqs, q.tokens.length % 16 ≠ 0 → ∀ p, q.pages.getLast? = some p →
    pages[p]? = some ⟨1, false⟩
  /-- A complete page of a sequence is labelled by the sequence's tokens up to its end. -/
  lab_seq : ∀ q ∈ seqs, ∀ i p, q.pages[i]? = some p → 16 * (i + 1) ≤ q.tokens.length →
    lab p = q.tokens.take (16 * (i + 1))
  /-- A node's path is the label of its page. -/
  lab_node : ∀ i n, NodeAt nodes i n → PathTo nodes (some i) (lab n.page)
  /-- Cached prefixes fit the context. -/
  lab_le : ∀ i n, NodeAt nodes i n → (lab n.page).length ≤ ctx

namespace Coherent

variable {ctx : ℕ} {pages : List PhysicalPage} {lab : ℕ → List Token} {q : Sequence}
  {pg : PhysicalPage}

theorem perm {seqs' : List Sequence} (h : Coherent ctx pages nodes seqs lab)
    (hp : seqs.Perm seqs') : Coherent ctx pages nodes seqs' lab where
  nodes_length := h.nodes_length
  pages_length q hq := h.pages_length q (hp.mem_iff.mpr hq)
  tokens_le q hq := h.tokens_le q (hp.mem_iff.mpr hq)
  pages_nodup q hq := h.pages_nodup q (hp.mem_iff.mpr hq)
  pages_lt q hq := h.pages_lt q (hp.mem_iff.mpr hq)
  node_page_lt := h.node_page_lt
  refs_eq p pg hpg := by rw [h.refs_eq p pg hpg, seqRefs_perm hp]
  cached_iff := h.cached_iff
  nodeRefs_le := h.nodeRefs_le
  unique_edges := h.unique_edges
  tail_exclusive q hq := h.tail_exclusive q (hp.mem_iff.mpr hq)
  lab_seq q hq := h.lab_seq q (hp.mem_iff.mpr hq)
  lab_node := h.lab_node
  lab_le := h.lab_le

/-- The page of a node, read from the page table: it is cached, and referenced. -/
theorem node_page (h : Coherent ctx pages nodes seqs lab) (hi : NodeAt nodes i n) :
    ∃ pg, pages[n.page]? = some pg ∧ pg.cached = true ∧ 1 ≤ pg.refs := by
  have hlt := h.node_page_lt i n hi
  have hpos : 0 < nodeRefs nodes n.page := nodeRefs_pos.mpr ⟨i, n, hi, rfl⟩
  refine ⟨pages[n.page], List.getElem?_eq_getElem hlt, ?_, ?_⟩
  · exact (h.cached_iff _ _ (List.getElem?_eq_getElem hlt)).mpr hpos
  · rw [h.refs_eq _ _ (List.getElem?_eq_getElem hlt)]
    omega

/-- Nodes of one page are one node. -/
theorem node_of_page (h : Coherent ctx pages nodes seqs lab) (hi : NodeAt nodes i n)
    (hj : NodeAt nodes j m) (hp : n.page = m.page) : i = j := by
  by_contra hij
  have h₁ := nodeRefs_set_none (p := n.page) hi
  have h₂ : 0 < nodeRefs (nodes.set i none) n.page :=
    nodeRefs_pos.mpr ⟨j, m, (nodeAt_set_of_ne hij).mpr hj, hp.symm⟩
  have h₃ := h.nodeRefs_le n.page
  simp only [if_true] at h₁
  omega

/-- The tail page of an incomplete sequence is held by nobody else. -/
theorem tail_refs (h : Coherent ctx pages nodes seqs lab) (hq : q ∈ seqs)
    (hm : q.tokens.length % 16 ≠ 0) (hp : q.pages.getLast? = some p) :
    seqRefs seqs p = 1 ∧ nodeRefs nodes p = 0 := by
  have hpg := h.tail_exclusive q hq hm p hp
  have hrefs := h.refs_eq p _ hpg
  have hcount : 0 < q.pages.count p := List.count_pos_iff.mpr (List.mem_of_getLast? hp)
  have hle := count_le_seqRefs (p := p) hq
  simp only at hrefs
  omega

/-! ### Changes to the tree -/

/-- Remove a leaf and its reference. -/
theorem evictNode (h : Coherent ctx pages nodes seqs lab) (hi : NodeAt nodes i n)
    (hl : Leaf nodes i) (hpg : pages[n.page]? = some pg) :
    Coherent ctx (pages.set n.page ⟨pg.refs - 1, false⟩) (nodes.set i none) seqs lab := by
  have hset : ∀ j m, NodeAt (nodes.set i none) j m → i ≠ j ∧ NodeAt nodes j m :=
    fun j m => nodeAt_set_none.mp
  have hpos : 0 < nodeRefs nodes n.page := nodeRefs_pos.mpr ⟨i, n, hi, rfl⟩
  refine
    { nodes_length := by simpa using h.nodes_length
      pages_length := h.pages_length
      tokens_le := h.tokens_le
      pages_nodup := h.pages_nodup
      pages_lt := by simpa using h.pages_lt
      node_page_lt := fun j m hj => by simpa using h.node_page_lt j m (hset j m hj).2
      refs_eq := fun p pg' hp => ?_
      cached_iff := fun p pg' hp => ?_
      nodeRefs_le := fun p => ?_
      unique_edges := fun j k m m' hj hk => h.unique_edges (hset j m hj).2 (hset k m' hk).2
      tail_exclusive := fun q hq hm p hp => ?_
      lab_seq := h.lab_seq
      lab_node := fun j m hj => ?_
      lab_le := fun j m hj => h.lab_le j m (hset j m hj).2 }
  · have hr := nodeRefs_set_none (p := p) hi
    rcases getElem?_set_eq_some.mp hp with ⟨rfl, -, rfl⟩ | ⟨hne, hp⟩
    · have h₁ := h.refs_eq _ _ hpg
      rw [if_pos rfl] at hr
      simp only
      omega
    · rw [if_neg hne] at hr
      rw [h.refs_eq p pg' hp]
      omega
  · have hr := nodeRefs_set_none (p := p) hi
    rcases getElem?_set_eq_some.mp hp with ⟨rfl, -, rfl⟩ | ⟨hne, hp⟩
    · have := h.nodeRefs_le n.page
      rw [if_pos rfl] at hr
      simp only [Bool.false_eq_true, false_iff]
      omega
    · rw [if_neg hne] at hr
      rw [h.cached_iff p pg' hp]
      omega
  · have hr := nodeRefs_set_none (p := p) hi
    have := h.nodeRefs_le p
    omega
  · have hp0 := (h.tail_refs hq hm hp).2
    have hne : n.page ≠ p := by
      rintro rfl
      omega
    rw [List.getElem?_set_ne hne]
    exact h.tail_exclusive q hq hm p hp
  · obtain ⟨hij, hj⟩ := hset j m hj
    exact (h.lab_node j m hj).set_none hl fun he => hij (Option.some.inj he).symm

/-- Change only the times of a node. -/
theorem retouch (n' : RadixNode) (h : Coherent ctx pages nodes seqs lab)
    (hi : NodeAt nodes i n) (hparent : n'.parent = n.parent) (hedge : n'.edge = n.edge)
    (hpage : n'.page = n.page) : Coherent ctx pages (nodes.set i (some n')) seqs lab := by
  have hset : ∀ j m, NodeAt (nodes.set i (some n')) j m →
      ∃ m', NodeAt nodes j m' ∧ m'.parent = m.parent ∧ m'.edge = m.edge ∧
        m'.page = m.page := by
    intro j m hj
    rcases nodeAt_set.mp hj with ⟨rfl, -, ho⟩ | ⟨-, hj⟩
    · obtain rfl := Option.some.inj ho
      exact ⟨n, hi, hparent.symm, hedge.symm, hpage.symm⟩
    · exact ⟨m, hj, rfl, rfl, rfl⟩
  have hget : ∀ j m, NodeAt nodes j m →
      ∃ m', NodeAt (nodes.set i (some n')) j m' ∧ m'.parent = m.parent ∧
        m'.edge = m.edge := by
    intro j m hj
    by_cases hij : i = j
    · subst hij
      obtain rfl := hi.inj hj
      exact ⟨n', nodeAt_set_self hi.lt, hparent, hedge⟩
    · exact ⟨m, (nodeAt_set_of_ne hij).mpr hj, rfl, rfl⟩
  have hrefs : ∀ p, nodeRefs (nodes.set i (some n')) p = nodeRefs nodes p := by
    intro p
    have := countP_set_add (f := fun node => node.any fun n : RadixNode => n.page = p)
      (b := some n') hi
    simp only [Option.any_some, hpage] at this
    exact Nat.add_right_cancel this
  refine
    { nodes_length := by simpa using h.nodes_length
      pages_length := h.pages_length
      tokens_le := h.tokens_le
      pages_nodup := h.pages_nodup
      pages_lt := h.pages_lt
      node_page_lt := fun j m hj => ?_
      refs_eq := fun p pg hp => by rw [hrefs, h.refs_eq p pg hp]
      cached_iff := fun p pg hp => by rw [hrefs, h.cached_iff p pg hp]
      nodeRefs_le := fun p => by rw [hrefs]; exact h.nodeRefs_le p
      unique_edges := fun j k m m' hj hk hpar he => ?_
      tail_exclusive := h.tail_exclusive
      lab_seq := h.lab_seq
      lab_node := fun j m hj => ?_
      lab_le := fun j m hj => ?_ }
  · obtain ⟨m', hj', -, -, hp⟩ := hset j m hj
    exact hp ▸ h.node_page_lt j m' hj'
  · obtain ⟨_, hj', hp₁, he₁, -⟩ := hset j m hj
    obtain ⟨_, hk', hp₂, he₂, -⟩ := hset k m' hk
    exact h.unique_edges hj' hk' (hp₁.trans (hpar.trans hp₂.symm)) (he₁.trans (he.trans he₂.symm))
  · obtain ⟨m', hj', -, -, hp⟩ := hset j m hj
    exact hp ▸ (h.lab_node j m' hj').mono hget
  · obtain ⟨m', hj', -, -, hp⟩ := hset j m hj
    exact hp ▸ h.lab_le j m' hj'

/-! ### Changes to the sequences -/

/-- A request that holds nothing yet. -/
theorem admitEmpty (h : Coherent ctx pages nodes seqs lab) :
    Coherent ctx pages nodes (⟨[], []⟩ :: seqs) lab where
  nodes_length := h.nodes_length
  pages_length := List.forall_mem_cons.mpr ⟨rfl, h.pages_length⟩
  tokens_le := List.forall_mem_cons.mpr ⟨Nat.zero_le _, h.tokens_le⟩
  pages_nodup := List.forall_mem_cons.mpr ⟨List.nodup_nil, h.pages_nodup⟩
  pages_lt := List.forall_mem_cons.mpr ⟨fun p hp => absurd hp List.not_mem_nil, h.pages_lt⟩
  node_page_lt := h.node_page_lt
  refs_eq p pg hp := by simpa using h.refs_eq p pg hp
  cached_iff := h.cached_iff
  nodeRefs_le := h.nodeRefs_le
  unique_edges := h.unique_edges
  tail_exclusive := List.forall_mem_cons.mpr ⟨fun hm => absurd rfl hm, h.tail_exclusive⟩
  lab_seq := List.forall_mem_cons.mpr ⟨fun i p hi => by simp at hi, h.lab_seq⟩
  lab_node := h.lab_node
  lab_le := h.lab_le

/-- A request takes a reference on the cached page that continues its prefix. -/
theorem share (h : Coherent ctx pages nodes (q :: seqs) lab) (hi : NodeAt nodes i n)
    (hpath : PathTo nodes n.parent q.tokens) (hlen : q.tokens.length + 16 ≤ ctx)
    (hpg : pages[n.page]? = some pg) :
    Coherent ctx (pages.set n.page { pg with refs := pg.refs + 1 }) nodes
      (⟨q.tokens ++ n.edge.1, q.pages ++ [n.page]⟩ :: seqs) lab := by
  obtain ⟨c, hc⟩ := hpath.dvd_length
  have hplen : q.pages.length = c := by
    have := h.pages_length q List.mem_cons_self
    omega
  have hlab : lab n.page = q.tokens ++ n.edge.1 := (h.lab_node i n hi).unique (.node hi hpath)
  have hfresh : n.page ∉ q.pages := by
    intro hmem
    obtain ⟨j, hj, hjp⟩ := List.getElem_of_mem hmem
    have hjlab := h.lab_seq q List.mem_cons_self j n.page
      (by rw [List.getElem?_eq_getElem hj, hjp]) (by omega)
    have := congrArg List.length (hlab.symm.trans hjlab)
    rw [List.length_append, n.edge.2, List.length_take] at this
    omega
  have hpos : 0 < nodeRefs nodes n.page := nodeRefs_pos.mpr ⟨i, n, hi, rfl⟩
  refine
    { nodes_length := by simpa using h.nodes_length
      pages_length := List.forall_mem_cons.mpr ⟨?_, fun r hr => h.pages_length r (.tail _ hr)⟩
      tokens_le := List.forall_mem_cons.mpr
        ⟨by simpa [n.edge.2] using hlen, fun r hr => h.tokens_le r (.tail _ hr)⟩
      pages_nodup := List.forall_mem_cons.mpr ⟨?_, fun r hr => h.pages_nodup r (.tail _ hr)⟩
      pages_lt := List.forall_mem_cons.mpr ⟨fun p hp => ?_, fun r hr p hp => ?_⟩
      node_page_lt := fun j m hj => by simpa using h.node_page_lt j m hj
      refs_eq := fun p pg' hp => ?_
      cached_iff := fun p pg' hp => ?_
      nodeRefs_le := h.nodeRefs_le
      unique_edges := h.unique_edges
      tail_exclusive := List.forall_mem_cons.mpr ⟨fun hm => ?_, fun r hr hm p hp => ?_⟩
      lab_seq := List.forall_mem_cons.mpr
        ⟨fun j p hj hlen' => ?_, fun r hr => h.lab_seq r (.tail _ hr)⟩
      lab_node := h.lab_node
      lab_le := h.lab_le }
  · simp only [List.length_append, n.edge.2, List.length_singleton]
    omega
  · exact (List.nodup_append_comm.mp (by
      simpa using ⟨hfresh, h.pages_nodup q List.mem_cons_self⟩))
  · rw [List.length_set]
    rcases List.mem_append.mp hp with hp | hp
    · exact h.pages_lt q List.mem_cons_self p hp
    · rw [List.mem_singleton.mp hp]
      exact h.node_page_lt i n hi
  · rw [List.length_set]
    exact h.pages_lt r (.tail _ hr) p hp
  · rw [seqRefs_cons, List.count_append, List.count_singleton]
    rcases getElem?_set_eq_some.mp hp with ⟨rfl, -, rfl⟩ | ⟨hne, hp⟩
    · have := h.refs_eq _ _ hpg
      rw [seqRefs_cons] at this
      simp only [BEq.rfl, if_true]
      omega
    · have := h.refs_eq _ _ hp
      rw [seqRefs_cons] at this
      simp only [beq_iff_eq, hne, if_false]
      omega
  · rcases getElem?_set_eq_some.mp hp with ⟨rfl, -, rfl⟩ | ⟨hne, hp⟩
    · have := h.cached_iff _ _ hpg
      simpa using this
    · exact h.cached_iff _ _ hp
  · simp only [List.length_append, n.edge.2] at hm
    omega
  · have hp0 := (h.tail_refs (.tail _ hr) hm hp).2
    have hne : n.page ≠ p := by
      rintro rfl
      omega
    rw [List.getElem?_set_ne hne]
    exact h.tail_exclusive r (.tail _ hr) hm p hp
  · rw [List.getElem?_append] at hj
    split at hj
    · rw [List.take_append_of_le_length (by omega)]
      exact h.lab_seq q List.mem_cons_self j p hj (by omega)
    · obtain ⟨hj0, rfl⟩ : j - q.pages.length = 0 ∧ n.page = p := by
        simpa [List.getElem?_singleton] using hj
      rw [hlab, List.take_of_length_le]
      simp only [List.length_append, n.edge.2]
      omega

/-- A request gives all its references back. -/
theorem drop {pages' : List PhysicalPage} (h : Coherent ctx pages nodes (q :: seqs) lab)
    (hlen : pages'.length = pages.length)
    (hpages : ∀ (p : ℕ) (pg : PhysicalPage), pages[p]? = some pg →
      pages'[p]? = some { pg with refs := pg.refs - q.pages.count p }) :
    Coherent ctx pages' nodes seqs lab := by
  have hback : ∀ (p : ℕ) (pg' : PhysicalPage), pages'[p]? = some pg' →
      ∃ pg, pages[p]? = some pg ∧ pg' = { pg with refs := pg.refs - q.pages.count p } := by
    intro p pg' hp
    have hlt : p < pages.length := hlen ▸ (List.getElem?_eq_some_iff.mp hp).1
    have hpg := List.getElem?_eq_getElem hlt
    exact ⟨_, hpg, Option.some.inj (hp.symm.trans (hpages p _ hpg))⟩
  refine
    { nodes_length := h.nodes_length.trans hlen.symm
      pages_length := fun r hr => h.pages_length r (.tail _ hr)
      tokens_le := fun r hr => h.tokens_le r (.tail _ hr)
      pages_nodup := fun r hr => h.pages_nodup r (.tail _ hr)
      pages_lt := fun r hr p hp => hlen ▸ h.pages_lt r (.tail _ hr) p hp
      node_page_lt := fun j m hj => hlen ▸ h.node_page_lt j m hj
      refs_eq := fun p pg' hp => ?_
      cached_iff := fun p pg' hp => ?_
      nodeRefs_le := h.nodeRefs_le
      unique_edges := h.unique_edges
      tail_exclusive := fun r hr hm p hp => ?_
      lab_seq := fun r hr => h.lab_seq r (.tail _ hr)
      lab_node := h.lab_node
      lab_le := h.lab_le }
  · obtain ⟨pg, hpg, rfl⟩ := hback p pg' hp
    have := h.refs_eq p pg hpg
    rw [seqRefs_cons] at this
    simp only
    omega
  · obtain ⟨pg, hpg, rfl⟩ := hback p pg' hp
    exact h.cached_iff p pg hpg
  · have hone := (h.tail_refs (.tail _ hr) hm hp).1
    have hmem : 0 < r.pages.count p := List.count_pos_iff.mpr (List.mem_of_getLast? hp)
    have hle := count_le_seqRefs (p := p) hr
    rw [seqRefs_cons] at hone
    have h0 : q.pages.count p = 0 := by omega
    rw [hpages p _ (h.tail_exclusive r (.tail _ hr) hm p hp), h0]
    rfl

/-- A request at a page boundary takes a free page for its next token. -/
theorem appendPage (h : Coherent ctx pages nodes (q :: seqs) lab)
    (hm : q.tokens.length % 16 = 0) (hlen : q.tokens.length < ctx)
    (hp : pages[p]? = some ⟨0, false⟩) (t : Token) :
    Coherent ctx (pages.set p ⟨1, false⟩) nodes (⟨q.tokens ++ [t], q.pages ++ [p]⟩ :: seqs)
      lab := by
  have hplt := (List.getElem?_eq_some_iff.mp hp).1
  have hplen := h.pages_length q List.mem_cons_self
  have hrefs := h.refs_eq p _ hp
  simp only [seqRefs_cons] at hrefs
  have hfresh : p ∉ q.pages := fun hmem => by
    have := List.count_pos_iff.mpr hmem
    omega
  refine
    { nodes_length := by simpa using h.nodes_length
      pages_length := List.forall_mem_cons.mpr ⟨?_, fun r hr => h.pages_length r (.tail _ hr)⟩
      tokens_le := List.forall_mem_cons.mpr ⟨?_, fun r hr => h.tokens_le r (.tail _ hr)⟩
      pages_nodup := List.forall_mem_cons.mpr ⟨?_, fun r hr => h.pages_nodup r (.tail _ hr)⟩
      pages_lt := List.forall_mem_cons.mpr ⟨fun a ha => ?_, fun r hr a ha => ?_⟩
      node_page_lt := fun j m hj => by simpa using h.node_page_lt j m hj
      refs_eq := fun a pg' ha => ?_
      cached_iff := fun a pg' ha => ?_
      nodeRefs_le := h.nodeRefs_le
      unique_edges := h.unique_edges
      tail_exclusive := List.forall_mem_cons.mpr ⟨fun _ a ha => ?_, fun r hr hm' a ha => ?_⟩
      lab_seq := List.forall_mem_cons.mpr
        ⟨fun j a hj hlen' => ?_, fun r hr => h.lab_seq r (.tail _ hr)⟩
      lab_node := h.lab_node
      lab_le := h.lab_le }
  · simp only [List.length_append, List.length_singleton]
    omega
  · simp only [List.length_append, List.length_singleton]
    omega
  · exact (List.nodup_append_comm.mp (by
      simpa using ⟨hfresh, h.pages_nodup q List.mem_cons_self⟩))
  · rw [List.length_set]
    rcases List.mem_append.mp ha with ha | ha
    · exact h.pages_lt q List.mem_cons_self a ha
    · exact List.mem_singleton.mp ha ▸ hplt
  · rw [List.length_set]
    exact h.pages_lt r (.tail _ hr) a ha
  · rw [seqRefs_cons, List.count_append, List.count_singleton]
    rcases getElem?_set_eq_some.mp ha with ⟨rfl, -, rfl⟩ | ⟨hne, ha⟩
    · simp only [BEq.rfl, if_true]
      omega
    · have := h.refs_eq _ _ ha
      rw [seqRefs_cons] at this
      simp only [beq_iff_eq, hne, if_false]
      omega
  · rcases getElem?_set_eq_some.mp ha with ⟨rfl, -, rfl⟩ | ⟨hne, ha⟩
    · have := h.cached_iff _ _ hp
      simpa using this
    · exact h.cached_iff _ _ ha
  · obtain rfl : p = a := by simpa using ha
    simp [hplt]
  · have hone := (h.tail_refs (.tail _ hr) hm' ha).1
    have hne : p ≠ a := by
      rintro rfl
      rw [seqRefs_cons] at hone
      omega
    rw [List.getElem?_set_ne hne]
    exact h.tail_exclusive r (.tail _ hr) hm' a ha
  · simp only [List.length_append, List.length_singleton] at hlen'
    have hjlt : j < q.pages.length := by omega
    rw [List.getElem?_append_left hjlt] at hj
    rw [List.take_append_of_le_length (by omega)]
    exact h.lab_seq q List.mem_cons_self j a hj (by omega)

/-- The last page of an incomplete sequence, by index. -/
theorem tail_index (h : Coherent ctx pages nodes seqs lab) (hq : q ∈ seqs)
    (hm : q.tokens.length % 16 ≠ 0) :
    ∃ p, q.pages.getLast? = some p ∧ q.pages[q.tokens.length / 16]? = some p ∧
      q.pages.length = q.tokens.length / 16 + 1 := by
  have hplen := h.pages_length q hq
  have hlen : q.pages.length = q.tokens.length / 16 + 1 := by omega
  have hne : q.pages ≠ [] := List.ne_nil_of_length_pos (by omega)
  refine ⟨q.pages.getLast hne, List.getLast?_eq_some_getLast hne, ?_, hlen⟩
  rw [List.getLast_eq_getElem, ← List.getElem?_eq_getElem]
  congr 1
  omega

/-- A complete page of one sequence is not the tail page of an incomplete one. -/
theorem complete_ne_tail (h : Coherent ctx pages nodes (q :: seqs) lab) {l : ℕ}
    (hl : 16 * (l + 1) ≤ q.tokens.length) (hp : q.pages[l]? = some p) {r : Sequence}
    (hr : r ∈ q :: seqs) (hm : r.tokens.length % 16 ≠ 0) {a : ℕ}
    (ha : r.pages.getLast? = some a) : p ≠ a := by
  rintro rfl
  have hone := (h.tail_refs hr hm ha).1
  have hqc : 0 < q.pages.count p := List.count_pos_iff.mpr (List.mem_of_getElem? hp)
  have hrc : 0 < r.pages.count p := List.count_pos_iff.mpr (List.mem_of_getLast? ha)
  rw [seqRefs_cons] at hone
  rcases List.mem_cons.mp hr with rfl | hr'
  · obtain ⟨b, hb, hbi, -⟩ := h.tail_index hr hm
    obtain rfl : b = p := by simpa using hb.symm.trans ha
    obtain ⟨h₁, e₁⟩ := List.getElem?_eq_some_iff.mp hp
    obtain ⟨h₂, e₂⟩ := List.getElem?_eq_some_iff.mp hbi
    have := (h.pages_nodup r hr).getElem_inj_iff.mp (e₁.trans e₂.symm)
    omega
  · have := count_le_seqRefs (p := p) hr'
    omega

/-- A request inside a page writes its next token there. A page completed by it gets its label. -/
theorem appendToken (h : Coherent ctx pages nodes (q :: seqs) lab)
    (hm : q.tokens.length % 16 ≠ 0) (hlen : q.tokens.length < ctx) (t : Token) :
    ∃ lab', Coherent ctx pages nodes ({ q with tokens := q.tokens ++ [t] } :: seqs) lab' := by
  obtain ⟨a, ha, hai, hplen⟩ := h.tail_index List.mem_cons_self hm
  obtain ⟨hone, hnode⟩ := h.tail_refs List.mem_cons_self hm ha
  have hqc : 0 < q.pages.count a := List.count_pos_iff.mpr (List.mem_of_getLast? ha)
  rw [seqRefs_cons] at hone
  refine ⟨Function.update lab a (q.tokens ++ [t]),
    { nodes_length := h.nodes_length
      pages_length := List.forall_mem_cons.mpr ⟨?_, fun r hr => h.pages_length r (.tail _ hr)⟩
      tokens_le := List.forall_mem_cons.mpr ⟨?_, fun r hr => h.tokens_le r (.tail _ hr)⟩
      pages_nodup := List.forall_mem_cons.mpr
        ⟨h.pages_nodup q List.mem_cons_self, fun r hr => h.pages_nodup r (.tail _ hr)⟩
      pages_lt := List.forall_mem_cons.mpr
        ⟨h.pages_lt q List.mem_cons_self, fun r hr => h.pages_lt r (.tail _ hr)⟩
      node_page_lt := h.node_page_lt
      refs_eq := fun p pg hp => by simpa using h.refs_eq p pg hp
      cached_iff := h.cached_iff
      nodeRefs_le := h.nodeRefs_le
      unique_edges := h.unique_edges
      tail_exclusive := List.forall_mem_cons.mpr
        ⟨fun _ p hp => h.tail_exclusive q List.mem_cons_self hm p hp,
          fun r hr => h.tail_exclusive r (.tail _ hr)⟩
      lab_seq := List.forall_mem_cons.mpr ⟨fun j p hj hlen' => ?_, fun r hr j p hj hlen' => ?_⟩
      lab_node := fun j m hj => ?_
      lab_le := fun j m hj => ?_ }⟩
  · simp only [List.length_append, List.length_singleton]
    omega
  · simp only [List.length_append, List.length_singleton]
    omega
  · simp only [List.length_append, List.length_singleton] at hlen'
    have hjlt := (List.getElem?_eq_some_iff.mp hj).1
    by_cases hjl : 16 * (j + 1) ≤ q.tokens.length
    · have hne := h.complete_ne_tail hjl hj List.mem_cons_self hm ha
      rw [Function.update_of_ne hne, List.take_append_of_le_length hjl]
      exact h.lab_seq q List.mem_cons_self j p hj hjl
    · have hje : j = q.tokens.length / 16 := by
        simp only at hjlt
        omega
      obtain rfl : a = p := by simpa [hje, hai] using hj
      rw [Function.update_self, List.take_of_length_le]
      simp only [List.length_append, List.length_singleton]
      omega
  · have hne : p ≠ a := by
      rintro rfl
      have h₁ := count_le_seqRefs (p := p) hr
      have h₂ := List.count_pos_iff.mpr (List.mem_of_getElem? hj)
      omega
    rw [Function.update_of_ne hne]
    exact h.lab_seq r (.tail _ hr) j p hj hlen'
  · have hne : m.page ≠ a := by
      rintro rfl
      have := nodeRefs_pos.mpr ⟨j, m, hj, rfl⟩
      omega
    rw [Function.update_of_ne hne]
    exact h.lab_node j m hj
  · have hne : m.page ≠ a := by
      rintro rfl
      have := nodeRefs_pos.mpr ⟨j, m, hj, rfl⟩
      omega
    rw [Function.update_of_ne hne]
    exact h.lab_le j m hj

/-! ### Publication -/

/-- A complete page whose edge is missing from the tree is not cached elsewhere in it: a node that
held it would spell the same path, and would be that edge. -/
theorem not_cached_of_missing (h : Coherent ctx pages nodes seqs lab) (hq : q ∈ seqs) {l : ℕ}
    (hl : 16 * (l + 1) ≤ q.tokens.length) (hp : q.pages[l]? = some p) {parent : Option ℕ}
    (hpath : PathTo nodes parent (q.tokens.take (16 * l))) {e : Edge}
    (he : e.1 = (q.tokens.drop (16 * l)).take 16)
    (hno : ∀ j m, NodeAt nodes j m → m.parent = parent → m.edge ≠ e) : nodeRefs nodes p = 0 := by
  by_contra hne
  obtain ⟨j, m, hj, rfl⟩ := nodeRefs_pos.mp (Nat.pos_of_ne_zero hne)
  obtain ⟨t, ht, hlab⟩ := (h.lab_node j m hj).of_node hj
  have hspell : q.tokens.take (16 * l) ++ e.1 = t ++ m.edge.1 := by
    rw [← hlab, h.lab_seq q hq l m.page hp hl, he, take_append_chunk]
  obtain ⟨rfl, rfl⟩ := append_edge_inj hspell
  exact hno j m hj (ht.injective h.unique_edges hpath) rfl

/-- Publish a complete page of the first sequence under the node that spells what precedes it. -/
theorem publish (h : Coherent ctx pages nodes (q :: seqs) lab) {l : ℕ}
    (hl : 16 * (l + 1) ≤ q.tokens.length) (hp : q.pages[l]? = some n.page)
    (hpath : PathTo nodes n.parent (q.tokens.take (16 * l)))
    (he : n.edge.1 = (q.tokens.drop (16 * l)).take 16)
    (hno : ∀ j m, NodeAt nodes j m → m.parent = n.parent → m.edge ≠ n.edge)
    (hfree : nodes[i]? = some none) (hpg : pages[n.page]? = some pg) :
    Coherent ctx (pages.set n.page ⟨pg.refs + 1, true⟩) (nodes.set i (some n)) (q :: seqs)
      lab := by
  have h0 := h.not_cached_of_missing List.mem_cons_self hl hp hpath he hno
  have hilt := (List.getElem?_eq_some_iff.mp hfree).1
  have hplt := (List.getElem?_eq_some_iff.mp hpg).1
  have hset : ∀ j m, NodeAt (nodes.set i (some n)) j m → (j = i ∧ m = n) ∨ NodeAt nodes j m := by
    intro j m hj
    rcases nodeAt_set.mp hj with ⟨rfl, -, ho⟩ | ⟨-, hj⟩
    · exact .inl ⟨rfl, (Option.some.inj ho).symm⟩
    · exact .inr hj
  have hlab : lab n.page = q.tokens.take (16 * l) ++ n.edge.1 := by
    rw [h.lab_seq q List.mem_cons_self l n.page hp hl, he, take_append_chunk]
  refine
    { nodes_length := by simpa using h.nodes_length
      pages_length := h.pages_length
      tokens_le := h.tokens_le
      pages_nodup := h.pages_nodup
      pages_lt := by simpa using h.pages_lt
      node_page_lt := fun j m hj => ?_
      refs_eq := fun p pg' hp' => ?_
      cached_iff := fun p pg' hp' => ?_
      nodeRefs_le := fun p => ?_
      unique_edges := fun j k m m' hj hk hpar hedge => ?_
      tail_exclusive := fun r hr hm a ha => ?_
      lab_seq := h.lab_seq
      lab_node := fun j m hj => ?_
      lab_le := fun j m hj => ?_ }
  · rw [List.length_set]
    rcases hset j m hj with ⟨-, rfl⟩ | hj
    · exact hplt
    · exact h.node_page_lt j m hj
  · rw [nodeRefs_set_some hfree]
    rcases getElem?_set_eq_some.mp hp' with ⟨rfl, -, rfl⟩ | ⟨hne, hp'⟩
    · rw [if_pos rfl]
      have := h.refs_eq _ _ hpg
      simp only
      omega
    · rw [if_neg hne]
      have := h.refs_eq _ _ hp'
      omega
  · rw [nodeRefs_set_some hfree]
    rcases getElem?_set_eq_some.mp hp' with ⟨rfl, -, rfl⟩ | ⟨hne, hp'⟩
    · simp
    · rw [if_neg hne]
      exact h.cached_iff _ _ hp'
  · rw [nodeRefs_set_some hfree]
    have := h.nodeRefs_le p
    split
    · next hpe =>
      subst hpe
      omega
    · omega
  · rcases hset j m hj with ⟨rfl, rfl⟩ | hj' <;> rcases hset k m' hk with ⟨rfl, rfl⟩ | hk'
    · rfl
    · exact absurd hedge.symm (hno k m' hk' hpar.symm)
    · exact absurd hedge (hno j m hj' hpar)
    · exact h.unique_edges hj' hk' hpar hedge
  · rw [List.getElem?_set_ne (h.complete_ne_tail hl hp hr hm ha)]
    exact h.tail_exclusive r hr hm a ha
  · rcases hset j m hj with ⟨rfl, rfl⟩ | hj
    · rw [hlab]
      exact .node (nodeAt_set_self hilt) (hpath.set_some hfree)
    · exact (h.lab_node j m hj).set_some hfree
  · rcases hset j m hj with ⟨rfl, rfl⟩ | hj
    · rw [hlab, he, take_append_chunk, List.length_take]
      have := h.tokens_le q List.mem_cons_self
      omega
    · exact h.lab_le j m hj

end Coherent

/-- A pool without requests and without cached pages. -/
theorem coherent_fresh (ctx count : ℕ) :
    Coherent ctx (List.replicate count ⟨0, false⟩) (List.replicate count none) []
      fun _ => [] := by
  have hnone : ∀ i n, ¬ NodeAt (List.replicate count none) i n := by
    intro i n h
    rw [NodeAt, List.getElem?_replicate] at h
    split at h <;> simp at h
  have hrefs : ∀ p, nodeRefs (List.replicate count none) p = 0 := fun p => by
    by_contra hne
    obtain ⟨i, n, hi, -⟩ := nodeRefs_pos.mp (Nat.pos_of_ne_zero hne)
    exact hnone i n hi
  refine
    { nodes_length := by simp
      pages_length := by simp
      tokens_le := by simp
      pages_nodup := by simp
      pages_lt := by simp
      node_page_lt := fun i n hi => absurd hi (hnone i n)
      refs_eq := fun p pg hp => ?_
      cached_iff := fun p pg hp => ?_
      nodeRefs_le := fun p => by rw [hrefs]; omega
      unique_edges := fun i j n m hi => absurd hi (hnone i n)
      tail_exclusive := by simp
      lab_seq := by simp
      lab_node := fun i n hi => absurd hi (hnone i n)
      lab_le := fun i n hi => absurd hi (hnone i n) }
  · rw [List.getElem?_replicate] at hp
    split at hp
    · rw [← Option.some.inj hp, hrefs]
      rfl
    · simp at hp
  · rw [List.getElem?_replicate] at hp
    split at hp
    · rw [← Option.some.inj hp, hrefs]
      simp
    · simp at hp

end TpPaged

end Ferric
