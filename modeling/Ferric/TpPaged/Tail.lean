import Ferric.TpPaged.Pool

/-!
# Rewriting the tail of a reservation

What a reservation adds to a sequence lies in pages that the sequence holds alone: a page that is
not wholly inside the committed tokens has one reference and no node. So the tokens behind the
committed ones may be replaced, and pages at the end given back, without anyone else noticing. Only
the labels of the exclusive pages change.

## Main definitions

* `TailRewrite` — what is changed, and what it needs
* `relabel` — the labels after the change

## Main results

* `Coherent.rewriteTail` — the change to the heap, from one lemma for each of its invariants
* `Reserved.truncate` — the state that keeps a beginning of what was reserved
* `Minted.retoken` — a reservation with other tokens at the same positions
-/

namespace Ferric

namespace TpPaged

variable {ctx : ℕ} {pages pages' : List PhysicalPage} {nodes : List (Option RadixNode)}
  {seqs : List Sequence} {lab : ℕ → List Token} {q q' : Sequence} {m p : ℕ}

namespace Coherent

/-- A page of the first sequence with one reference belongs to nobody else. -/
theorem exclusive_refs (h : Coherent ctx pages nodes (q :: seqs) lab) (hp : p ∈ q.pages)
    (hpg : pages[p]? = some ⟨1, false⟩) : seqRefs seqs p = 0 ∧ nodeRefs nodes p = 0 := by
  have hrefs := h.refs_eq p _ hpg
  have hcount := List.count_pos_iff.mpr hp
  simp only [seqRefs_cons] at hrefs
  omega

end Coherent

/-- `q'` has other tokens than `q` behind position `m`, and gives back the pages at the end that it
does not need. No one else has the pages of `q` that reach behind `m`. -/
structure TailRewrite (pages pages' : List PhysicalPage) (q q' : Sequence) (m : ℕ) : Prop where
  kept : m ≤ q'.tokens.length
  shorter : q'.tokens.length ≤ q.tokens.length
  same : q'.tokens.take m = q.tokens.take m
  pages_eq : q'.pages = q.pages.take ((q'.tokens.length + 15) / 16)
  exclusive : ∀ i p, q.pages[i]? = some p → m < 16 * (i + 1) → pages[p]? = some ⟨1, false⟩
  length_eq : pages'.length = pages.length
  released : ∀ p pg, pages[p]? = some pg → pages'[p]? =
    some (if p ∈ q.pages.drop ((q'.tokens.length + 15) / 16) then ⟨0, false⟩ else pg)

/-- The labels after the change: only the pages behind position `m` have new ones. -/
def relabel (q q' : Sequence) (m : ℕ) (lab : ℕ → List Token) (p : ℕ) : List Token :=
  if p ∈ q.pages.drop (m / 16) then q'.tokens.take (16 * (q.pages.idxOf p + 1)) else lab p

namespace TailRewrite

variable {pg' : PhysicalPage} {r : Sequence} {i : ℕ}

/-- A page after the change is one from before, unless it was given back. -/
theorem exists_page (hr : TailRewrite pages pages' q q' m) (hp : pages'[p]? = some pg') :
    ∃ pg, pages[p]? = some pg ∧
      pg' = if p ∈ q.pages.drop ((q'.tokens.length + 15) / 16) then ⟨0, false⟩ else pg := by
  have hlt : p < pages.length := hr.length_eq ▸ (List.getElem?_eq_some_iff.mp hp).1
  have hget := List.getElem?_eq_getElem hlt
  exact ⟨_, hget, Option.some.inj (hp.symm.trans (hr.released p _ hget))⟩

theorem exclusive_of_mem (hr : TailRewrite pages pages' q q' m) (hp : p ∈ q.pages.drop (m / 16)) :
    pages[p]? = some ⟨1, false⟩ := by
  obtain ⟨i, hi⟩ := List.mem_iff_getElem?.mp hp
  rw [List.getElem?_drop] at hi
  exact hr.exclusive _ p hi (by omega)

/-- The pages that are given back lie behind position `m`. -/
theorem mem_of_released (hr : TailRewrite pages pages' q q' m)
    (hp : p ∈ q.pages.drop ((q'.tokens.length + 15) / 16)) : p ∈ q.pages.drop (m / 16) := by
  have hkept := hr.kept
  have hsplit :
      (q'.tokens.length + 15) / 16 = m / 16 + ((q'.tokens.length + 15) / 16 - m / 16) := by
    omega
  rw [hsplit, ← List.drop_drop] at hp
  exact List.mem_of_mem_drop hp

section Coherent

variable (h : Coherent ctx pages nodes (q :: seqs) lab) (hr : TailRewrite pages pages' q q' m)

include h hr

theorem length_pages : q'.pages.length = (q'.tokens.length + 15) / 16 := by
  have hlen := h.pages_length q List.mem_cons_self
  have hshorter := hr.shorter
  rw [hr.pages_eq, List.length_take]
  omega

theorem unshared (hp : p ∈ q.pages.drop (m / 16)) : seqRefs seqs p = 0 ∧ nodeRefs nodes p = 0 :=
  h.exclusive_refs (List.mem_of_mem_drop hp) (hr.exclusive_of_mem hp)

theorem not_mem_of_sequence (hmem : r ∈ seqs) (hp : p ∈ r.pages) : p ∉ q.pages.drop (m / 16) := by
  intro hdrop
  have hle := count_le_seqRefs (p := p) hmem
  have hpos := List.count_pos_iff.mpr hp
  have hzero := (unshared h hr hdrop).1
  omega

theorem not_mem_of_node {n : RadixNode} (hn : NodeAt nodes i n) :
    n.page ∉ q.pages.drop (m / 16) := by
  intro hdrop
  have hpos := nodeRefs_pos.mpr ⟨i, n, hn, rfl⟩
  have hzero := (unshared h hr hdrop).2
  omega

theorem refs_eq (hp : pages'[p]? = some pg') :
    pg'.refs = seqRefs (q' :: seqs) p + nodeRefs nodes p := by
  obtain ⟨pg, hpg, rfl⟩ := hr.exists_page hp
  have hrefs := h.refs_eq p pg hpg
  have hcount : q.pages.count p = q'.pages.count p +
      (q.pages.drop ((q'.tokens.length + 15) / 16)).count p := by
    rw [hr.pages_eq, ← List.count_append, List.take_append_drop]
  rw [seqRefs_cons] at hrefs ⊢
  split
  · next hmem =>
    have hone := hr.exclusive_of_mem (hr.mem_of_released hmem)
    obtain rfl := Option.some.inj (hpg.symm.trans hone)
    have hpos := List.count_pos_iff.mpr hmem
    simp only at hrefs ⊢
    omega
  · next hmem =>
    have hzero := List.count_eq_zero.mpr hmem
    omega

theorem cached_iff (hp : pages'[p]? = some pg') : pg'.cached = true ↔ 0 < nodeRefs nodes p := by
  obtain ⟨pg, hpg, rfl⟩ := hr.exists_page hp
  split
  · next hmem =>
    have hzero := (unshared h hr (hr.mem_of_released hmem)).2
    simp [hzero]
  · exact h.cached_iff p pg hpg

/-- The last page of the rewritten sequence was not given back. -/
theorem tail_exclusive (hmod : q'.tokens.length % 16 ≠ 0) (hp : q'.pages.getLast? = some p) :
    pages'[p]? = some ⟨1, false⟩ := by
  have hkept := hr.kept
  have hlast : q.pages[(q'.tokens.length + 15) / 16 - 1]? = some p := by
    rw [List.getLast?_eq_getElem?, length_pages h hr, hr.pages_eq,
      List.getElem?_take_of_lt (by omega)] at hp
    exact hp
  have hone := hr.exclusive _ p hlast (by omega)
  have hnot : p ∉ q.pages.drop ((q'.tokens.length + 15) / 16) := by
    intro hmem
    obtain ⟨i, hi⟩ := List.mem_iff_getElem?.mp hmem
    rw [List.getElem?_drop] at hi
    obtain ⟨hlt₁, heq₁⟩ := List.getElem?_eq_some_iff.mp hlast
    obtain ⟨hlt₂, heq₂⟩ := List.getElem?_eq_some_iff.mp hi
    have hnodup := h.pages_nodup q List.mem_cons_self
    have := hnodup.getElem_inj_iff.mp (heq₁.trans heq₂.symm)
    omega
  rw [hr.released p _ hone, if_neg hnot]

theorem tail_exclusive_of_mem (hmem : r ∈ seqs) (hmod : r.tokens.length % 16 ≠ 0)
    (hp : r.pages.getLast? = some p) : pages'[p]? = some ⟨1, false⟩ := by
  have hnot := not_mem_of_sequence h hr hmem (List.mem_of_getLast? hp)
  have hone := h.tail_exclusive r (.tail _ hmem) hmod p hp
  rw [hr.released p _ hone, if_neg fun hdrop => hnot (hr.mem_of_released hdrop)]

/-- A complete page has the tokens of the rewritten sequence: those behind `m` by their new labels,
and the others because nothing changed before `m`. -/
theorem lab_eq (hp : q'.pages[i]? = some p) (hi : 16 * (i + 1) ≤ q'.tokens.length) :
    relabel q q' m lab p = q'.tokens.take (16 * (i + 1)) := by
  have hshorter := hr.shorter
  rw [hr.pages_eq, List.getElem?_take_of_lt (by omega)] at hp
  obtain ⟨hlt, heq⟩ := List.getElem?_eq_some_iff.mp hp
  rw [relabel]
  split
  · rw [← heq, (h.pages_nodup q List.mem_cons_self).idxOf_getElem]
  · next hmem =>
    have hbefore : 16 * (i + 1) ≤ m := by
      by_contra hgt
      refine hmem (List.mem_iff_getElem?.mpr ⟨i - m / 16, ?_⟩)
      rw [List.getElem?_drop, ← hp]
      congr 1
      omega
    have htake := congrArg (List.take (16 * (i + 1))) hr.same
    rw [List.take_take, List.take_take, Nat.min_eq_left hbefore] at htake
    rw [htake]
    exact h.lab_seq q List.mem_cons_self i p hp (by omega)

theorem relabel_of_mem (hmem : r ∈ seqs) (hp : r.pages[i]? = some p) :
    relabel q q' m lab p = lab p :=
  if_neg (not_mem_of_sequence h hr hmem (List.mem_of_getElem? hp))

theorem relabel_of_node {n : RadixNode} (hn : NodeAt nodes i n) :
    relabel q q' m lab n.page = lab n.page :=
  if_neg (not_mem_of_node h hr hn)

end Coherent

end TailRewrite

/-- Replace the tokens of the first sequence behind position `m`, and give back pages at its end. -/
theorem Coherent.rewriteTail (h : Coherent ctx pages nodes (q :: seqs) lab)
    (hr : TailRewrite pages pages' q q' m) :
    Coherent ctx pages' nodes (q' :: seqs) (relabel q q' m lab) := by
  have hq : q ∈ q :: seqs := List.mem_cons_self
  constructor
  case nodes_length => exact h.nodes_length.trans hr.length_eq.symm
  case pages_length =>
    exact List.forall_mem_cons.mpr
      ⟨hr.length_pages h, fun r hmem => h.pages_length r (.tail _ hmem)⟩
  case tokens_le =>
    exact List.forall_mem_cons.mpr ⟨hr.shorter.trans (h.tokens_le q hq),
      fun r hmem => h.tokens_le r (.tail _ hmem)⟩
  case pages_nodup =>
    have hsublist := List.take_sublist ((q'.tokens.length + 15) / 16) q.pages
    exact List.forall_mem_cons.mpr ⟨hr.pages_eq ▸ (h.pages_nodup q hq).sublist hsublist,
      fun r hmem => h.pages_nodup r (.tail _ hmem)⟩
  case pages_lt =>
    rw [hr.length_eq]
    exact List.forall_mem_cons.mpr
      ⟨fun p hp => h.pages_lt q hq p (List.mem_of_mem_take (hr.pages_eq ▸ hp)),
        fun r hmem => h.pages_lt r (.tail _ hmem)⟩
  case node_page_lt => exact fun i n hn => hr.length_eq ▸ h.node_page_lt i n hn
  case refs_eq => exact fun p pg' hp => hr.refs_eq h hp
  case cached_iff => exact fun p pg' hp => hr.cached_iff h hp
  case nodeRefs_le => exact h.nodeRefs_le
  case unique_edges => exact h.unique_edges
  case tail_exclusive =>
    exact List.forall_mem_cons.mpr ⟨fun hmod p hp => hr.tail_exclusive h hmod hp,
      fun r hmem hmod p hp => hr.tail_exclusive_of_mem h hmem hmod hp⟩
  case lab_seq =>
    refine List.forall_mem_cons.mpr ⟨fun i p hp hi => hr.lab_eq h hp hi, fun r hmem i p hp hi => ?_⟩
    rw [hr.relabel_of_mem h hmem hp]
    exact h.lab_seq r (.tail _ hmem) i p hp hi
  case lab_node =>
    intro i n hn
    rw [hr.relabel_of_node h hn]
    exact h.lab_node i n hn
  case lab_le =>
    intro i n hn
    rw [hr.relabel_of_node h hn]
    exact h.lab_le i n hn

namespace PagedPool

variable {p : PagedPool} {r : State} {rows : List PageRow} {k : ℕ} {q q' : Sequence}

/-- Pages that reach behind the committed tokens are exclusive to the sequence. -/
theorem Reserved.tail_exclusive (h : Reserved p rows r) (hq : p.state.sequences.get? k = some q)
    (hq' : r.sequences.get? k = some q') (hlt : q.tokens.length < q'.tokens.length) {i w : ℕ}
    (hw : q'.pages[i]? = some w) (hi : q.tokens.length < 16 * (i + 1)) :
    r.pages[w]? = some ⟨1, false⟩ := by
  obtain ⟨lab, hc⟩ := h.inv.coherent
  have hplen := hc.pages_length q' (BTreeMap.mem_values.mpr ⟨k, hq'⟩)
  have hilt := (List.getElem?_eq_some_iff.mp hw).1
  -- Some reserved row lies in the page: the first one behind what was committed.
  obtain ⟨row, hrow, rfl, hpos⟩ := h.covered (i := max q.tokens.length (16 * i)) hq hq'
    (le_max_left _ _) (by omega)
  obtain ⟨w', hw', hpg⟩ := h.write_exclusive row hrow q' hq'
  have hidx : row.position / 16 = i := by omega
  rw [hidx, hw] at hw'
  exact Option.some.inj hw' ▸ hpg

/-- **Truncation.** The state that keeps the first `stop` tokens of a reserved sequence, with the
pages behind them given back. -/
theorem Reserved.truncate (h : Reserved p rows r) (hq : p.state.sequences.get? k = some q)
    (hq' : r.sequences.get? k = some q') (hlt : q.tokens.length < q'.tokens.length) {stop : ℕ}
    (hlo : q.tokens.length ≤ stop) (hhi : stop ≤ q'.tokens.length) {pages' : List PhysicalPage}
    (hplen : pages'.length = r.pages.length)
    (hpg : ∀ a pg, r.pages[a]? = some pg → pages'[a]? =
      some (if a ∈ q'.pages.drop ((stop + 15) / 16) then ⟨0, false⟩ else pg)) :
    StateInv p.limits { r with
      pages := pages'
      sequences := r.sequences.insert k
        ⟨q'.tokens.take stop, q'.pages.take ((stop + 15) / 16)⟩ } := by
  obtain ⟨lab, hc⟩ := h.inv.coherent
  have hc' := hc.perm (BTreeMap.perm_values_of_get? hq')
  have hlen : (q'.tokens.take stop).length = stop := by
    rw [List.length_take]
    omega
  have hrewrite : TailRewrite r.pages pages' q'
      ⟨q'.tokens.take stop, q'.pages.take ((stop + 15) / 16)⟩ q.tokens.length := by
    constructor
    case kept => simpa [hlen] using hlo
    case shorter => simpa [hlen] using hhi
    case same => simp only [List.take_take, Nat.min_eq_left hlo]
    case pages_eq => simp only [hlen]
    case exclusive =>
      intro i w hw hi
      exact h.tail_exclusive hq hq' hlt hw hi
    case length_eq => exact hplen
    case released => simpa only [hlen] using hpg
  exact stateInv_replace h.inv hq' hplen rfl rfl rfl rfl (hc'.rewriteTail hrewrite)

/-- Rows of one sequence are all of that sequence's rows. -/
theorem rowsOf_eq_self (h : ∀ row ∈ rows, row.sequence.serial = k) : rowsOf k rows = rows :=
  List.filter_eq_self.mpr fun row hrow => by simpa using h row hrow

theorem rowsOf_eq_nil {k' : ℕ} (h : ∀ row ∈ rows, row.sequence.serial = k) (hne : k' ≠ k) :
    rowsOf k' rows = [] :=
  List.filter_eq_nil_iff.mpr fun row hrow => by simpa [h row hrow] using Ne.symm hne

/-- Everything of a prepared row but its token. -/
def shape (x : PreparedRow) : SequenceId × ℕ × List ℕ × ℕ :=
  (x.input.sequence, x.input.position, x.pages, x.writePage)

section Retoken

variable {prepared prepared' : List PreparedRow}

theorem exists_of_shape (hshape : prepared'.map shape = prepared.map shape) {x' : PreparedRow}
    (hx' : x' ∈ prepared') : ∃ x ∈ prepared, shape x = shape x' := by
  have hmem := List.mem_map_of_mem (f := shape) hx'
  rw [hshape] at hmem
  exact List.mem_map.mp hmem

/-- Rows of one shape are for the same sequences at the same positions. -/
theorem input_of_shape (hshape : prepared'.map shape = prepared.map shape) {row : PageRow}
    (hr : row ∈ prepared'.map (·.input)) :
    ∃ a ∈ prepared.map (·.input), a.sequence = row.sequence ∧ a.position = row.position := by
  obtain ⟨x', hx', rfl⟩ := List.mem_map.mp hr
  obtain ⟨x, hx, he⟩ := exists_of_shape hshape hx'
  simp only [shape, Prod.mk.injEq] at he
  exact ⟨x.input, List.mem_map_of_mem hx, he.1, he.2.1⟩

theorem length_of_shape (hshape : prepared'.map shape = prepared.map shape) :
    prepared'.length = prepared.length := by
  simpa using congrArg List.length hshape

theorem positions_of_shape (hshape : prepared'.map shape = prepared.map shape) :
    prepared'.map (·.input.position) = prepared.map (·.input.position) := by
  have hposs := congrArg (List.map fun x => x.2.1) hshape
  simpa only [List.map_map, Function.comp_def, shape] using hposs

theorem serial_of_mem (hk : ∀ x ∈ prepared, x.input.sequence.serial = k) :
    ∀ row ∈ prepared.map (·.input), row.sequence.serial = k := by
  intro row hr
  obtain ⟨x, hx, rfl⟩ := List.mem_map.mp hr
  exact hk x hx

theorem serial_of_shape (hk : ∀ x ∈ prepared, x.input.sequence.serial = k)
    (hshape : prepared'.map shape = prepared.map shape) :
    ∀ row ∈ prepared'.map (·.input), row.sequence.serial = k := by
  intro row hr
  obtain ⟨a, ha, hs, -⟩ := input_of_shape hshape hr
  exact hs ▸ serial_of_mem hk a ha

/-- What a reservation for one sequence has made of it. -/
theorem Minted.grown (h : Minted p prepared r)
    (hk : ∀ x ∈ prepared, x.input.sequence.serial = k)
    (hq : p.state.sequences.get? k = some q) (hq' : r.sequences.get? k = some q') :
    q'.tokens = q.tokens ++ prepared.map (·.input.token) ∧ q.pages <+: q'.pages ∧
      (prepared.map (·.input)).map (·.position) =
        List.range' q.tokens.length (prepared.map (·.input)).length := by
  obtain ⟨q₁, hq₁, htok, hpages, hrange⟩ := h.reserved.grow k q hq
  obtain rfl : q₁ = q' := Option.some.inj (hq₁.symm.trans hq')
  rw [rowsOf_eq_self (serial_of_mem hk)] at htok hrange
  rw [List.map_map] at htok
  exact ⟨htok, hpages, hrange⟩

/-- The tail is rewritten with other tokens, and no page is given back. -/
theorem Minted.stateInv_retoken (h : Minted p prepared r)
    (hk : ∀ x ∈ prepared, x.input.sequence.serial = k) (hne : prepared ≠ [])
    (hq : p.state.sequences.get? k = some q) (hq' : r.sequences.get? k = some q')
    (hlen : prepared'.length = prepared.length) :
    StateInv p.limits { r with
      sequences := r.sequences.insert k
        { q' with tokens := q.tokens ++ prepared'.map (·.input.token) } } := by
  obtain ⟨htok, -, -⟩ := h.grown hk hq hq'
  have hpos : 0 < prepared.length := List.length_pos_iff.mpr hne
  have htlen : q'.tokens.length = q.tokens.length + prepared.length := by simp [htok]
  have hnew : (q.tokens ++ prepared'.map (·.input.token)).length = q'.tokens.length := by
    simp [htlen, hlen]
  obtain ⟨lab, hc⟩ := h.reserved.inv.coherent
  have hplen := hc.pages_length q' (BTreeMap.mem_values.mpr ⟨k, hq'⟩)
  have hrewrite : TailRewrite r.pages r.pages q'
      { q' with tokens := q.tokens ++ prepared'.map (·.input.token) } q.tokens.length := by
    constructor
    case kept => simp only [hnew]; omega
    case shorter => simp only [hnew]; omega
    case same => rw [htok, List.take_left, List.take_left]
    case pages_eq => simp only [hnew, ← hplen, List.take_length]
    case exclusive =>
      intro i w hw hi
      exact h.reserved.tail_exclusive hq hq' (by omega) hw hi
    case length_eq => rfl
    case released => simp only [hnew, ← hplen, List.drop_length]; simp
  exact stateInv_replace h.reserved.inv hq' rfl rfl rfl rfl rfl
    ((hc.perm (BTreeMap.perm_values_of_get? hq')).rewriteTail hrewrite)

/-- The rows are still those of the pages of their sequence. -/
theorem Minted.preparedFrom_retoken (h : Minted p prepared r)
    (hk : ∀ x ∈ prepared, x.input.sequence.serial = k) (hq' : r.sequences.get? k = some q')
    (hshape : prepared'.map shape = prepared.map shape) {tokens : List Token} {x' : PreparedRow}
    (hx' : x' ∈ prepared') :
    PreparedFrom { r with sequences := r.sequences.insert k { q' with tokens := tokens } } x' := by
  obtain ⟨x, hx, he⟩ := exists_of_shape hshape hx'
  simp only [shape, Prod.mk.injEq] at he
  obtain ⟨hs, hp, hpgs, hw⟩ := he
  obtain ⟨⟨q₂, hq₂, hqp⟩, hwp⟩ := h.rows x hx
  rw [hk x hx, hq'] at hq₂
  obtain rfl := Option.some.inj hq₂
  constructor
  · refine ⟨{ q' with tokens := tokens }, ?_, ?_⟩
    · rw [← hs, hk x hx, BTreeMap.get?_insert_self]
    · rw [← hpgs, hqp]
  · rw [← hpgs, ← hp, ← hw]
    exact hwp

/-- **Other tokens.** A reservation for one sequence, with other tokens at the same positions. -/
theorem Minted.retoken (h : Minted p prepared r)
    (hk : ∀ x ∈ prepared, x.input.sequence.serial = k) (hne : prepared ≠ [])
    (hq : p.state.sequences.get? k = some q) (hq' : r.sequences.get? k = some q')
    (hshape : prepared'.map shape = prepared.map shape) :
    Minted p prepared' { r with
      sequences := r.sequences.insert k
        { q' with tokens := q.tokens ++ prepared'.map (·.input.token) } } := by
  have hlen := length_of_shape hshape
  have hposs := positions_of_shape hshape
  have hserial := serial_of_mem hk
  have hserial' := serial_of_shape hk hshape
  obtain ⟨-, hpages, hrange⟩ := h.grown hk hq hq'
  refine ⟨⟨h.stateInv_retoken hk hne hq hq' hlen, h.reserved.nodes, h.reserved.clock,
    h.reserved.nextSequence, fun row hr => ?_, fun k₁ q₂ hq₂ => ?_, fun k₁ hk₁ => ?_,
    fun row hr q₂ hq₂ => ?_, ?_⟩, fun x' hx' => h.preparedFrom_retoken hk hq' hshape hx'⟩
  · obtain ⟨a, ha, hs, -⟩ := input_of_shape hshape hr
    exact hs ▸ h.reserved.live a ha
  · by_cases hkk : k₁ = k
    · subst hkk
      obtain rfl : q = q₂ := Option.some.inj (hq.symm.trans hq₂)
      refine ⟨_, BTreeMap.get?_insert_self, ?_, hpages, ?_⟩
      · rw [rowsOf_eq_self hserial']
        simp
      · rw [rowsOf_eq_self hserial']
        simpa only [List.map_map, Function.comp_def, List.length_map, hlen, hposs] using hrange
    · obtain ⟨q₃, hq₃, htok₃, hpages₃, -⟩ := h.reserved.grow k₁ q₂ hq₂
      rw [rowsOf_eq_nil hserial hkk] at htok₃
      refine ⟨q₃, ?_, ?_, hpages₃, ?_⟩
      · rw [BTreeMap.get?_insert_of_ne hkk, hq₃]
      · rw [rowsOf_eq_nil hserial' hkk, htok₃]
      · rw [rowsOf_eq_nil hserial' hkk]
        simp
  · have hkk : k₁ ≠ k := by
      rintro rfl
      simp [hq] at hk₁
    rw [BTreeMap.get?_insert_of_ne hkk]
    exact h.reserved.absent k₁ hk₁
  · obtain ⟨a, ha, hs, hp⟩ := input_of_shape hshape hr
    rw [hserial' row hr, BTreeMap.get?_insert_self] at hq₂
    obtain rfl := Option.some.inj hq₂
    have hwrite := h.reserved.write_exclusive a ha q' (by rw [hserial a ha, hq'])
    rwa [hp] at hwrite
  · have hfree := h.reserved.free
    have hcount : (prepared'.map (·.input)).countP (·.position % 16 = 0) =
        (prepared.map (·.input)).countP (·.position % 16 = 0) := by
      have hboundaries := congrArg (List.countP (· % 16 = 0)) hposs
      simpa [List.countP_map, Function.comp_def] using hboundaries
    rw [hcount]
    exact hfree

end Retoken

end PagedPool

end TpPaged

end Ferric
