import Ferric.TpPaged.Heap

/-!
# The pool's check accepts coherent states

`validateState` recounts every reference and walks every radix node to the root. On a state that
satisfies `StateInv` it returns without an error and without a panic.

The recount is two loops. The first runs over the sequences and the second over the node table;
in each, the table of counts built so far is `tabulate` of a count over the entries already seen,
so the loop invariant is an equation. The walk to the root follows the path of the node, and is
shorter than the node table because the nodes on a path are distinct.

## Main results

* `StateInv` — what holds of every committed and every proposed state
* `validateState_of_inv` — such a state passes the check
-/

namespace Ferric

namespace TpPaged

/-- The bounds that `PagedLimits.newBounded` checks. -/
structure PagedLimits.Valid (l : PagedLimits) : Prop where
  context_le : l.contextTokens ≤ 8192
  sequences_le : l.sequences ≤ 32
  pages_le : l.physicalPages ≤ 16384
  ttl_pos : 0 < l.cacheTtl

theorem PagedLimits.valid_of_newBounded {c s p t : ℕ} {profile : KvPoolProfile} {l : PagedLimits}
    (h : PagedLimits.newBounded c s p t profile = .ok l) : l.Valid := by
  obtain ⟨_, hc, hl⟩ := bind_eq_ok.mp h
  rw [failIf_eq_ok] at hc
  obtain rfl := Except.ok.inj hl
  have hmax : profile.maximum ≤ 16384 := by cases profile <;> decide
  constructor <;> simp only <;> omega

/-- Times of cached nodes lie in the past and lifetimes are positive. -/
def Timed (nodes : List (Option RadixNode)) (clock : ℕ) : Prop :=
  ∀ i n, NodeAt nodes i n → n.touched ≤ clock ∧ n.touched < n.expires

/-- The invariant of a committed or proposed state. -/
structure StateInv (limits : PagedLimits) (s : State) : Prop where
  pages_length : s.pages.length = limits.physicalPages
  size_le : s.sequences.size ≤ limits.sequences
  next_pos : 0 < s.nextSequence
  serial : ∀ k q, s.sequences.get? k = some q → 0 < k ∧ k < s.nextSequence
  timed : Timed s.nodes s.clock
  coherent : ∃ lab, Coherent limits.contextTokens s.pages s.nodes s.sequences.values lab

/-! ### Walking to the root -/

variable {nodes : List (Option RadixNode)} {limits : PagedLimits} {s : State}

/-- The nodes on a path are distinct slots of the table. -/
theorem PathTo.exists_slots {o : Option ℕ} {t : List Token} (h : PathTo nodes o t) :
    ∃ l : List ℕ, l.length = t.length / 16 ∧ l.Nodup ∧
      ∀ a ∈ l, a < nodes.length ∧ ∃ u, PathTo nodes (some a) u ∧ u.length ≤ t.length := by
  induction h with
  | root => exact ⟨[], rfl, List.nodup_nil, fun a ha => absurd ha List.not_mem_nil⟩
  | @node i n t hi ht ih =>
    obtain ⟨l, hlen, hnd, hl⟩ := ih
    refine ⟨i :: l, ?_, List.nodup_cons.mpr ⟨fun hmem => ?_, hnd⟩,
      List.forall_mem_cons.mpr ⟨⟨hi.lt, _, .node hi ht, Nat.le_refl _⟩, fun a ha => ?_⟩⟩
    · simp only [List.length_cons, List.length_append, n.edge.2, hlen]
      omega
    · obtain ⟨-, u, hu, hule⟩ := hl i hmem
      rw [hu.unique (.node hi ht), List.length_append, n.edge.2] at hule
      omega
    · obtain ⟨hlt, u, hu, hule⟩ := hl a ha
      exact ⟨hlt, u, hu, hule.trans (by simp)⟩

/-- A path has at most as many nodes as the table. -/
theorem PathTo.depth_le {o : Option ℕ} {t : List Token} (h : PathTo nodes o t) :
    t.length / 16 ≤ nodes.length := by
  obtain ⟨l, hlen, hnd, hl⟩ := h.exists_slots
  exact hlen ▸ length_le_of_nodup_of_lt hnd fun a ha => (hl a ha).1

/-- The walk from a node's parent counts the nodes above it. -/
theorem ancestorDepth_eq {index : ℕ} {whole : List Token}
    (hw : PathTo nodes (some index) whole) {o : Option ℕ} {t : List Token}
    (h : PathTo nodes o t) {fuel depth : ℕ} (hlt : t.length < whole.length)
    (hfuel : t.length / 16 ≤ fuel) (hdepth : depth + t.length / 16 ≤ nodes.length) :
    ancestorDepth nodes index fuel depth o = .ok (depth + t.length / 16) := by
  induction h generalizing fuel depth with
  | root =>
    rw [ancestorDepth]
    rfl
  | @node i n t hi ht ih =>
    have hlen : (t ++ n.edge.1).length = t.length + 16 := by rw [List.length_append, n.edge.2]
    rw [hlen] at hlt hfuel hdepth ⊢
    obtain ⟨fuel, rfl⟩ : ∃ f, fuel = f + 1 := ⟨fuel - 1, by omega⟩
    have hne : i ≠ index := by
      rintro rfl
      rw [hw.unique (.node hi ht), hlen] at hlt
      omega
    have hjoin : nodes[i]?.join = some n := by rw [hi]; rfl
    rw [ancestorDepth, failIf, if_neg (by omega), hjoin]
    simp only [orErr, ok_bind]
    rw [ih (by omega) (by omega) (by omega)]
    congr 1
    omega

/-! ### Counting the sequences -/

/-- The inner loop over one sequence's pages adds that sequence's references. -/
theorem validatePage_loop {N : ℕ} {f : ℕ → ℕ} {pages : List ℕ} (hnd : pages.Nodup)
    (hlt : ∀ p ∈ pages, p < N) :
    Ensures (pages.foldlM validatePage (tabulate N f, [])) (fun _ => False) fun acc =>
      acc.1 = tabulate N fun p => f p + pages.count p := by
  refine (ensures_foldlM (d := [])
    (I := fun done rest acc => done ++ rest = pages ∧
      acc = (tabulate N fun p => f p + done.count p, done.reverse))
    ⟨rfl, by simp⟩ ?_).mono (fun _ h => h) ?_
  · rintro done p rest acc ⟨hpages, rfl⟩
    have hp : p ∈ pages := hpages ▸ by simp
    have hpd : p ∉ done := by
      rw [← hpages] at hnd
      exact fun hmem => (List.nodup_append.mp hnd).2.2 p hmem p List.mem_cons_self rfl
    rw [validatePage]
    refine (ensures_failIf (Q := fun _ => True) (fun hc => ?_) fun _ => trivial).bind
      fun _ _ _ => ensures_pure.mpr ⟨by simpa using hpages, ?_⟩
    · rcases hc with hc | hc
      · rw [length_tabulate] at hc
        exact absurd (hlt p hp) (by omega)
      · exact hpd (by simpa using hc)
    · simp only [modify_tabulate, List.reverse_append, List.reverse_singleton,
        List.singleton_append, Prod.mk.injEq, and_true]
      congr 1
      funext a
      rw [List.count_append, List.count_singleton]
      by_cases hap : a = p
      · simp [hap]
        omega
      · simp [hap, Ne.symm hap]
  · rintro acc - ⟨-, rfl⟩
    simp

/-- One sequence of a coherent state passes its checks. -/
theorem validateSequence_ensures (h : StateInv limits s) {entry : ℕ × Sequence}
    (he : entry ∈ s.sequences.entries) {f : ℕ → ℕ} :
    Ensures (validateSequence s limits (tabulate s.pages.length f) entry) (fun _ => False)
      fun refs => refs = tabulate s.pages.length fun p => f p + entry.2.pages.count p := by
  obtain ⟨lab, hc⟩ := h.coherent
  obtain ⟨k, q⟩ := entry
  have hget := BTreeMap.mem_entries.mp he
  have hq : q ∈ s.sequences.values := BTreeMap.mem_values.mpr ⟨k, hget⟩
  have hk := h.serial k q hget
  have hlen := hc.pages_length q hq
  have hctx := hc.tokens_le q hq
  rw [validateSequence]
  refine (ensures_failIf (Q := fun _ => True) (fun hbad => by simp only at hbad; omega)
    fun _ => trivial).bind fun _ _ _ => ?_
  refine (validatePage_loop (hc.pages_nodup q hq) (hc.pages_lt q hq)).bind fun acc _ hacc => ?_
  split
  · next hm =>
    obtain ⟨p, hlast, -, -⟩ := hc.tail_index hq hm
    have hpg := hc.tail_exclusive q hq hm p hlast
    simp only [hlast, hpg, orErr, orPanic, ok_bind, failIf]
    rw [if_neg (by simp)]
    exact hacc
  · exact hacc

/-! ### Counting the nodes -/

theorem nodeRefs_append_singleton {done : List (Option RadixNode)} {o : Option RadixNode} {p : ℕ} :
    nodeRefs (done ++ [o]) p = nodeRefs done p + if o.any (fun n => n.page = p) then 1 else 0 := by
  simp [nodeRefs, List.countP_append, List.countP_singleton]

/-- What a split of the indexed table says about its parts. -/
theorem zipIdx_split {done rest : List (Option RadixNode × ℕ)} {a : Option RadixNode × ℕ}
    (h : done ++ a :: rest = nodes.zipIdx) :
    nodes[a.2]? = some a.1 ∧
      ∀ o j, (o, j) ∈ done → j ≠ a.2 ∧ nodes[j]? = some o := by
  have hget : ∀ (i : ℕ) (x : Option RadixNode × ℕ), nodes.zipIdx[i]? = some x →
      nodes[i]? = some x.1 ∧ x.2 = i := by
    intro i x hx
    rw [List.getElem?_zipIdx] at hx
    obtain ⟨o, ho, rfl⟩ := Option.map_eq_some_iff.mp hx
    exact ⟨ho, by simp⟩
  have ha := hget done.length a (by rw [← h]; simp)
  refine ⟨ha.2 ▸ ha.1, fun o j hj => ?_⟩
  obtain ⟨i, hi, hij⟩ := List.getElem_of_mem hj
  have hx := hget i (o, j) (by
    rw [← h, List.getElem?_append_left hi, List.getElem?_eq_getElem hi, hij])
  obtain ⟨hx, rfl⟩ := hx
  exact ⟨by rw [ha.2]; simpa using Nat.ne_of_lt hi, hx⟩

/-- The audit after some nodes: references and flags count the nodes seen, and the edges are
theirs. -/
structure AuditInv (seqs : List Sequence) (N : ℕ) (done : List (Option RadixNode × ℕ))
    (acc : NodeAudit) : Prop where
  refs : acc.refs = tabulate N fun p => seqRefs seqs p + nodeRefs (done.map (·.1)) p
  cached : acc.cached = tabulate N fun p => decide (0 < nodeRefs (done.map (·.1)) p)
  edges : ∀ x ∈ acc.edges, ∃ n j, (some n, j) ∈ done ∧ x = (n.parent, n.edge)

/-- One node of a coherent state passes its checks. -/
theorem validateNode_ensures (h : StateInv limits s) {lab : ℕ → List Token}
    (hc : Coherent limits.contextTokens s.pages s.nodes s.sequences.values lab)
    {done rest : List (Option RadixNode × ℕ)} {entry : Option RadixNode × ℕ}
    (hsplit : done ++ entry :: rest = s.nodes.zipIdx) {acc : NodeAudit}
    (hacc : AuditInv s.sequences.values s.pages.length done acc) :
    Ensures (validateNode s limits acc entry) (fun _ => False)
      (AuditInv s.sequences.values s.pages.length (done ++ [entry])) := by
  obtain ⟨hentry, hdone⟩ := zipIdx_split hsplit
  obtain ⟨o, index⟩ := entry
  rw [validateNode]
  cases o with
  | none =>
    refine ensures_ok.mpr ⟨?_, ?_, fun x hx => ?_⟩
    · rw [hacc.refs]
      simp [nodeRefs_append_singleton]
    · rw [hacc.cached]
      simp [nodeRefs_append_singleton]
    · obtain ⟨n, j, hj, rfl⟩ := hacc.edges x hx
      exact ⟨n, j, List.mem_append_left _ hj, rfl⟩
  | some node =>
    have hnode : NodeAt s.nodes index node := hentry
    have hpage := hc.node_page_lt index node hnode
    have htimes := h.timed index node hnode
    have hpath := hc.lab_node index node hnode
    -- Nodes already audited are other slots, so neither their pages nor their edges repeat.
    have hfresh : nodeRefs (done.map (·.1)) node.page = 0 := by
      by_contra hne
      obtain ⟨i, n, hi, hp⟩ := nodeRefs_pos.mp (Nat.pos_of_ne_zero hne)
      obtain ⟨⟨o, j⟩, hj, ho⟩ := List.mem_map.mp (List.mem_of_getElem? hi)
      obtain ⟨hne', hj'⟩ := hdone o j hj
      exact hne' (hc.node_of_page (hj'.trans (congrArg some ho)) hnode hp)
    have hedge : (node.parent, node.edge) ∉ acc.edges := by
      intro hmem
      obtain ⟨n, j, hj, heq⟩ := hacc.edges _ hmem
      obtain ⟨hne', hj'⟩ := hdone _ j hj
      obtain ⟨hpar, hed⟩ := Prod.mk.inj heq
      exact hne' (hc.unique_edges hj' hnode hpar.symm hed.symm)
    refine (ensures_failIf (Q := fun _ => True) (fun hbad => ?_) fun _ => trivial).bind
      fun _ _ _ => ?_
    · rw [hacc.refs, hacc.cached, length_tabulate, getElem?_tabulate _ hpage, hfresh] at hbad
      simp only [Nat.lt_irrefl, decide_false, Option.some.injEq, Bool.false_eq_true, false_or,
        hedge] at hbad
      omega
    · obtain ⟨t, ht, hwhole⟩ := hpath.of_node hnode
      have hlen : (lab node.page).length = t.length + 16 := by
        rw [hwhole, List.length_append, node.edge.2]
      have hdepth := hpath.depth_le
      have hctx := hc.lab_le index node hnode
      rw [ancestorDepth_eq hpath ht (by omega) (by omega) (by omega), ok_bind]
      refine (ensures_failIf (Q := fun _ => True) (fun hbad => ?_) fun _ => trivial).bind
        fun _ _ _ => ensures_pure.mpr ⟨?_, ?_, ?_⟩
      · rw [PagedLimits.pageTableStride] at hbad
        omega
      · rw [hacc.refs, modify_tabulate]
        refine congrArg (tabulate _) (funext fun p => ?_)
        simp only [List.map_append, List.map_cons, List.map_nil, nodeRefs_append_singleton,
          Option.any_some, decide_eq_true_eq]
        by_cases hp : p = node.page
        · simp [hp]
          omega
        · simp [hp, Ne.symm hp]
      · rw [hacc.cached, set_tabulate]
        refine congrArg (tabulate _) (funext fun p => ?_)
        simp only [List.map_append, List.map_cons, List.map_nil, nodeRefs_append_singleton,
          Option.any_some, decide_eq_true_eq]
        by_cases hp : p = node.page
        · simp [hp]
        · simp [hp, Ne.symm hp]
      · intro x hx
        rcases List.mem_cons.mp hx with rfl | hx
        · exact ⟨node, index, by simp, rfl⟩
        · obtain ⟨n, j, hj, rfl⟩ := hacc.edges x hx
          exact ⟨n, j, List.mem_append_left _ hj, rfl⟩

/-! ### The whole check -/

/-- **A coherent state passes the pool's own check.** -/
theorem validateState_of_inv (h : StateInv limits s) : validateState s limits = .ok () := by
  obtain ⟨lab, hc⟩ := h.coherent
  have hsize := h.size_le
  have hplen := h.pages_length
  have hnlen := hc.nodes_length
  have key : Ensures (validateState s limits) (fun _ => False) fun _ => True := by
    rw [validateState]
    refine (ensures_failIf (Q := fun _ => True) (fun hbad => by omega) fun _ => trivial).bind
      fun _ _ _ => ?_
    rw [replicate_eq_tabulate]
    refine (ensures_foldlM (d := [])
      (I := fun done rest refs => done ++ rest = s.sequences.entries ∧
        refs = tabulate s.pages.length fun p => seqRefs (done.map (·.2)) p)
      ⟨rfl, by simp [seqRefs]⟩ ?_).bind fun refs _ hrefs => ?_
    · rintro done entry rest refs ⟨hsplit, rfl⟩
      refine (validateSequence_ensures h (hsplit ▸ by simp)).mono (fun _ h => h)
        fun refs' _ hrefs' => ⟨by simpa using hsplit, ?_⟩
      rw [hrefs']
      congr 1
      funext p
      simp [seqRefs]
    · obtain ⟨-, rfl⟩ := hrefs
      refine (ensures_foldlM (d := [])
        (I := fun done rest acc => done ++ rest = s.nodes.zipIdx ∧
          AuditInv s.sequences.values s.pages.length done acc)
        ⟨rfl, ⟨by simp [nodeRefs, BTreeMap.values], by simp [nodeRefs, replicate_eq_tabulate],
          by simp⟩⟩ ?_).bind fun acc _ hacc => ?_
      · rintro done entry rest acc ⟨hsplit, hacc⟩
        exact (validateNode_ensures h hc hsplit hacc).mono (fun _ h => h)
          fun _ _ hacc' => ⟨by simpa using hsplit, hacc'⟩
      · obtain ⟨-, hacc⟩ := hacc
        refine ensures_failIf (fun hbad => ?_) fun _ => trivial
        obtain ⟨⟨page, index⟩, hmem, hbad⟩ := List.any_eq_true.mp hbad
        have hpg : s.pages[index]? = some page := by
          simpa [List.mk_mem_zipIdx_iff_getElem?] using hmem
        have hlt := (List.getElem?_eq_some_iff.mp hpg).1
        have hr := hc.refs_eq index page hpg
        have hcached := hc.cached_iff index page hpg
        rw [hacc.refs, hacc.cached, getElem?_tabulate _ hlt, getElem?_tabulate _ hlt] at hbad
        have hflag : page.cached = decide (0 < nodeRefs s.nodes index) := by
          rw [Bool.eq_iff_iff, hcached, decide_eq_true_iff]
        simp [hr, hflag] at hbad
  obtain ⟨_, hok, -⟩ := key.exists_ok
  exact hok

end TpPaged

end Ferric
