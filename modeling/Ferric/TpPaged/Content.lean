import Ferric.TpPaged.Heap

/-!
# What the pages hold

The device is a memory of page slots. `Content mem nodes seqs lab` says that the slots of committed
positions hold the *tag* of the position: the token prefix up to and including it. A tag names
everything the key and value of a position depend on, so a request that reads the right tags reads
the right attention state, whoever computed it.

The changes of `Ferric.TpPaged.Heap` that do not write to the device carry content over. Sharing
turns what a node promises about its page into what a sequence promises, and publication turns it
back.
-/

namespace Ferric

namespace TpPaged

/-- A memory of page slots, each holding a tag. -/
abbrev Memory := ℕ × ℕ → List Token

/-- The slot a row writes. -/
def PreparedRow.slot (x : PreparedRow) : ℕ × ℕ := (x.writePage, x.writableTokenOffset)

/-- The tag of a row in the state its batch commits: the tokens of the row's sequence, up to and
including the row's position. -/
def State.tag (s : State) (x : PreparedRow) : List Token :=
  match s.sequences.get? x.input.sequence.serial with
  | some q => q.tokens.take (x.input.position + 1)
  | none => []

/-- Committed slots hold the tag of their position, and cached pages the tags of their path. -/
structure Content (mem : Memory) (nodes : List (Option RadixNode)) (seqs : List Sequence)
    (lab : ℕ → List Token) : Prop where
  /-- Position `i` of a sequence lies in slot `i % 16` of its page `i / 16`. -/
  seq : ∀ q ∈ seqs, ∀ i p, i < q.tokens.length → q.pages[i / 16]? = some p →
    mem (p, i % 16) = q.tokens.take (i + 1)
  /-- Slot `j` of a cached page is position `j` of the last page of its path. -/
  node : ∀ i n, NodeAt nodes i n → ∀ j, j < 16 →
    mem (n.page, j) = (lab n.page).take ((lab n.page).length - 16 + j + 1)

namespace Content

variable {mem : Memory} {nodes : List (Option RadixNode)} {seqs seqs' : List Sequence}
  {lab : ℕ → List Token} {n : RadixNode} {i : ℕ} {q : Sequence} {ctx : ℕ}
  {pages : List PhysicalPage}

theorem perm (h : Content mem nodes seqs lab) (hp : seqs.Perm seqs') :
    Content mem nodes seqs' lab :=
  ⟨fun q hq => h.seq q (hp.mem_iff.mpr hq), h.node⟩

theorem evictNode (h : Content mem nodes seqs lab) : Content mem (nodes.set i none) seqs lab :=
  ⟨h.seq, fun j m hj => h.node j m (nodeAt_set_none.mp hj).2⟩

theorem retouch {n' : RadixNode} (h : Content mem nodes seqs lab) (hi : NodeAt nodes i n)
    (hpage : n'.page = n.page) : Content mem (nodes.set i (some n')) seqs lab := by
  refine ⟨h.seq, fun j m hj => ?_⟩
  rcases nodeAt_set.mp hj with ⟨rfl, -, ho⟩ | ⟨-, hj⟩
  · obtain rfl := Option.some.inj ho
    exact hpage ▸ h.node i n hi
  · exact h.node j m hj

theorem admitEmpty (h : Content mem nodes seqs lab) : Content mem nodes (⟨[], []⟩ :: seqs) lab :=
  ⟨List.forall_mem_cons.mpr ⟨fun i _ hi => absurd hi (Nat.not_lt_zero i), h.seq⟩, h.node⟩

theorem drop (h : Content mem nodes (q :: seqs) lab) : Content mem nodes seqs lab :=
  ⟨fun r hr => h.seq r (.tail _ hr), h.node⟩

theorem share (h : Content mem nodes (q :: seqs) lab)
    (hc : Coherent ctx pages nodes (q :: seqs) lab) (hi : NodeAt nodes i n)
    (hpath : PathTo nodes n.parent q.tokens) :
    Content mem nodes (⟨q.tokens ++ n.edge.1, q.pages ++ [n.page]⟩ :: seqs) lab := by
  have hlab : lab n.page = q.tokens ++ n.edge.1 := (hc.lab_node i n hi).unique (.node hi hpath)
  have hplen := hc.pages_length q List.mem_cons_self
  obtain ⟨c, hc⟩ := hpath.dvd_length
  refine ⟨List.forall_mem_cons.mpr ⟨fun j p hj hp => ?_, fun r hr => h.seq r (.tail _ hr)⟩, h.node⟩
  simp only [List.length_append, n.edge.2] at hj
  rw [List.getElem?_append] at hp
  split at hp
  · rw [h.seq q List.mem_cons_self j p (by omega) hp, List.take_append_of_le_length (by omega)]
  · obtain ⟨hj0, rfl⟩ : j / 16 - q.pages.length = 0 ∧ n.page = p := by
      simpa [List.getElem?_singleton] using hp
    rw [h.node i n hi _ (Nat.mod_lt _ (by omega)), hlab, List.length_append, n.edge.2]
    congr 1
    omega

theorem publish (h : Content mem nodes (q :: seqs) lab)
    (hc : Coherent ctx pages nodes (q :: seqs) lab) {l : ℕ}
    (hl : 16 * (l + 1) ≤ q.tokens.length) (hp : q.pages[l]? = some n.page) :
    Content mem (nodes.set i (some n)) (q :: seqs) lab := by
  refine ⟨h.seq, fun j m hj k hk => ?_⟩
  rcases nodeAt_set.mp hj with ⟨rfl, -, ho⟩ | ⟨-, hj⟩
  · obtain rfl := Option.some.inj ho
    have hseq := h.seq q List.mem_cons_self (16 * l + k) n.page (by omega)
      (by rw [show (16 * l + k) / 16 = l by omega, hp])
    rw [show (16 * l + k) % 16 = k by omega] at hseq
    have hlen : (q.tokens.take (16 * (l + 1))).length = 16 * (l + 1) := by
      rw [List.length_take]
      omega
    rw [hseq, hc.lab_seq q List.mem_cons_self l n.page hp hl, List.take_take, hlen]
    congr 1
    omega
  · exact h.node j m hj k hk

/-- The slot an incomplete or new page is written at: only the slot's own tag is touched. -/
theorem congr {mem' : Memory} (h : Content mem nodes seqs lab)
    (hseq : ∀ q ∈ seqs, ∀ i p, i < q.tokens.length → q.pages[i / 16]? = some p →
      mem' (p, i % 16) = mem (p, i % 16))
    (hnode : ∀ i n, NodeAt nodes i n → ∀ j, j < 16 → mem' (n.page, j) = mem (n.page, j)) :
    Content mem' nodes seqs lab :=
  ⟨fun q hq i p hi hp => (hseq q hq i p hi hp).trans (h.seq q hq i p hi hp),
    fun i n hi j hj => (hnode i n hi j hj).trans (h.node i n hi j hj)⟩

end Content

end TpPaged

end Ferric
