import Ferric.TpPaged.Transactions
import Ferric.Lib.Slots

/-!
# Reservations

`reserveBatch` extends a copy of the state row by row: the tokens of the selected rows are appended
to their sequences, and a sequence at a page boundary takes a free page. The copy becomes the
committed state when the batch completes.

`Reserved` relates the state, the rows, and the copy. From it follow the two facts a driver relies
on: the slot of every row lies in a page that no other request and no cached prefix references,
and no two rows share a slot. Writing the rows' tags therefore turns a faithful memory of the
state into a faithful memory of the copy.

## Main results

* `reserveRow_ensures` — one row, with the exact reasons for failure
* `reserveRows_ensures` — a batch of rows
* `Minted.exclusive`, `Minted.slots_distinct`
* `Minted.read_written`, `Minted.faithful_write`
-/

namespace Ferric

namespace TpPaged

namespace PagedPool

/-! ### One row -/

/-- Why a row is rejected. -/
inductive RowError (p : PagedPool) (r : State) (row : PageRow) : PagedError → Prop
  /-- The sequence is foreign or absent. -/
  | unknownSequence (h : row.sequence.pool ≠ p.identity ∨
      p.state.sequences.get? row.sequence.serial = none ∨
      r.sequences.get? row.sequence.serial = none) : RowError p r row .unknownSequence
  /-- The position is not the next one, or is beyond the context. -/
  | invalidRows {q : Sequence} (hq : r.sequences.get? row.sequence.serial = some q)
      (h : p.limits.contextTokens ≤ row.position ∨ row.position ≠ q.tokens.length) :
      RowError p r row .invalidRows
  /-- A new page is needed and none is free. -/
  | outOfPages (hm : row.position % 16 = 0) (h : r.pages.countP (·.refs = 0) = 0) :
      RowError p r row .outOfPages

theorem RowError.benign {p : PagedPool} {r : State} {row : PageRow} {e : PagedError}
    (h : RowError p r row e) : Benign e := by
  cases h <;> decide

/-- What reserving one row does. -/
structure RowStep (p : PagedPool) (r : State) (row : PageRow) (r' : State) (q q' : Sequence)
    (w : ℕ) : Prop where
  pool : row.sequence.pool = p.identity
  known : p.state.sequences.get? row.sequence.serial ≠ none
  get : r.sequences.get? row.sequence.serial = some q
  position : row.position = q.tokens.length
  position_lt : row.position < p.limits.contextTokens
  nodes : r'.nodes = r.nodes
  clock : r'.clock = r.clock
  nextSequence : r'.nextSequence = r.nextSequence
  length : r'.pages.length = r.pages.length
  sequences : r'.sequences = r.sequences.insert row.sequence.serial q'
  tokens : q'.tokens = q.tokens ++ [row.token]
  pages : q.pages <+: q'.pages
  writePage : q'.pages[row.position / 16]? = some w
  write_exclusive : r'.pages[w]? = some ⟨1, false⟩
  other : ∀ (a : ℕ) (pg : PhysicalPage), r.pages[a]? = some pg → pg.refs ≠ 0 →
    r'.pages[a]? = some pg
  free : r'.pages.countP (·.refs = 0) + (if row.position % 16 = 0 then 1 else 0) =
    r.pages.countP (·.refs = 0)

variable {p : PagedPool} {r : State} {row : PageRow}

/-- Replacing a sequence by one that is coherent with the rest keeps the state's invariant. -/
theorem stateInv_replace {limits : PagedLimits} {k : ℕ} {q q' : Sequence} {r' : State}
    {lab : ℕ → List Token} (h : StateInv limits r) (hq : r.sequences.get? k = some q)
    (hlen : r'.pages.length = r.pages.length) (hnodes : r'.nodes = r.nodes)
    (hclock : r'.clock = r.clock) (hnext : r'.nextSequence = r.nextSequence)
    (hseqs : r'.sequences = r.sequences.insert k q')
    (hc : Coherent limits.contextTokens r'.pages r.nodes (q' :: (r.sequences.erase k).values)
      lab) : StateInv limits r' where
  pages_length := hlen.trans h.pages_length
  size_le := by rw [hseqs, BTreeMap.size_insert_of_get?_eq_some hq]; exact h.size_le
  next_pos := hnext ▸ h.next_pos
  serial k' q'' hk' := by
    rw [hseqs, BTreeMap.get?_insert] at hk'
    rw [hnext]
    split at hk'
    · next he => exact he ▸ h.serial k q hq
    · exact h.serial k' q'' hk'
  timed := by rw [hnodes, hclock]; exact h.timed
  coherent := ⟨lab, by rw [hseqs, hnodes]; exact hc.perm BTreeMap.perm_values_replace.symm⟩

/-- **One row.** It is rejected for one of three reasons, or takes its slot. -/
theorem reserveRow_ensures (hl : p.limits.Valid) (h : StateInv p.limits r) :
    Ensures (reserveRow p r row) (RowError p r row) fun r' =>
      StateInv p.limits r' ∧ ∃ q q' w, RowStep p r row r' q q' w := by
  obtain ⟨lab, hc⟩ := h.coherent
  rw [reserveRow, requireSequence]
  refine (ensures_failIf (Q := fun _ => row.sequence.pool = p.identity ∧
    p.state.sequences.get? row.sequence.serial ≠ none) (fun hbad => ?_) fun hok => ?_).bind
    fun _ _ ⟨hpool, hknown⟩ => ?_
  · exact .unknownSequence (hbad.imp_right .inl)
  · simpa [not_or] using hok
  refine (ensures_orErr (Q := fun q => r.sequences.get? row.sequence.serial = some q)
    (fun hn => .unknownSequence (.inr (.inr hn))) fun q hq => hq).bind fun q _ hq => ?_
  refine (ensures_failIf (Q := fun _ => row.position < p.limits.contextTokens ∧
    row.position = q.tokens.length) (fun hbad => .invalidRows hq hbad) fun hok => ?_).bind
    fun _ _ ⟨hlt, hpos⟩ => ?_
  · omega
  have hqmem : q ∈ r.sequences.values := BTreeMap.mem_values.mpr ⟨_, hq⟩
  have hc' := hc.perm (BTreeMap.perm_values_of_get? hq)
  have hplen := hc.pages_length q hqmem
  rw [reservePage]
  split
  · next hm =>
    -- At a page boundary the row takes the first free page.
    cases hfind : r.pages.findIdx? fun page => page.refs = 0 ∧ ¬ page.cached with
    | none =>
      refine RowError.outOfPages hm ?_
      rw [List.countP_eq_zero]
      intro pg hpg
      have hno := List.findIdx?_eq_none_iff.mp hfind pg hpg
      obtain ⟨a, ha⟩ := List.mem_iff_getElem?.mp hpg
      have hcached := hc.cached_iff a pg ha
      have hrefs := hc.refs_eq a pg ha
      simp only [decide_eq_true_eq]
      intro h0
      simp only [h0, decide_eq_false_iff_not, not_and, forall_const, Bool.not_eq_true,
        Bool.not_eq_false] at hno
      have := hcached.mp (by simpa using hno)
      omega
    | some free =>
      obtain ⟨hfree, hpred, -⟩ := List.findIdx?_eq_some_iff_getElem.mp hfind
      have hpg : r.pages[free]? = some ⟨0, false⟩ := by
        rw [List.getElem?_eq_getElem hfree]
        cases hpage : r.pages[free] with
        | mk refs cached =>
          rw [hpage] at hpred
          simpa using hpred
      have hcount : free < 2 ^ 32 := by
        have := hl.pages_le
        have := h.pages_length
        omega
      have hindex : row.position / 16 = q.pages.length := by omega
      have hget : (q.pages ++ [free])[row.position / 16]? = some free := by simp [hindex]
      simp only [orErr, hpg, orPanic, ok_bind, count, if_pos hcount, pure, Except.pure, hget,
        List.getElem?_set_self hfree, failIf]
      rw [if_neg (by simp), ok_bind]
      refine ensures_ok.mpr ?_
      have hstep := hc'.appendPage (by omega) (by omega) hpg row.token
      refine ⟨stateInv_replace h hq (List.length_set) rfl rfl rfl rfl hstep, q, _, free, hpool,
        hknown, hq, hpos, hlt, rfl, rfl, rfl, List.length_set, rfl, rfl, List.prefix_append _ _,
        hget, by simp [hfree], fun a pg ha hne => ?_, ?_⟩
      · have hne' : free ≠ a := by
          rintro rfl
          rw [hpg] at ha
          exact hne (Option.some.inj ha ▸ rfl)
        rw [List.getElem?_set_ne hne', ha]
      · have := countP_set_add (f := fun page : PhysicalPage => decide (page.refs = 0))
          (b := ⟨1, false⟩) hpg
        simpa [hm] using this
  · next hm =>
    obtain ⟨w, hw, hwi, -⟩ := hc.tail_index hqmem (by omega)
    have hpg := hc.tail_exclusive q hqmem (by omega) w hw
    have hget : q.pages[row.position / 16]? = some w := by rw [hpos, hwi]
    simp only [pure, Except.pure, ok_bind, orPanic, hget, hpg, failIf]
    rw [if_neg (by simp), ok_bind]
    refine ensures_ok.mpr ?_
    obtain ⟨lab', hstep⟩ := hc'.appendToken (by omega) (by omega) row.token
    refine ⟨stateInv_replace h hq rfl rfl rfl rfl rfl hstep, q, _, w, hpool, hknown, hq, hpos, hlt,
      rfl, rfl, rfl, rfl, rfl, rfl, List.prefix_rfl, hget, hpg, fun a pg ha _ => ha, ?_⟩
    simp [hm]

/-! ### A batch of rows -/

/-- The rows of one sequence, in order. -/
def rowsOf (k : ℕ) (rows : List PageRow) : List PageRow :=
  rows.filter fun row => row.sequence.serial = k

theorem rowsOf_append_self {k : ℕ} {rows : List PageRow} (h : row.sequence.serial = k) :
    rowsOf k (rows ++ [row]) = rowsOf k rows ++ [row] := by
  simp [rowsOf, h]

theorem rowsOf_append_of_ne {k : ℕ} {rows : List PageRow} (h : row.sequence.serial ≠ k) :
    rowsOf k (rows ++ [row]) = rowsOf k rows := by
  simp [rowsOf, h]

theorem mem_rowsOf {k : ℕ} {rows : List PageRow} :
    row ∈ rowsOf k rows ↔ row ∈ rows ∧ row.sequence.serial = k := by
  simp [rowsOf]

/-- `r` is the committed state of `p` extended by `rows`. -/
structure Reserved (p : PagedPool) (rows : List PageRow) (r : State) : Prop where
  inv : StateInv p.limits r
  nodes : r.nodes = p.state.nodes
  clock : r.clock = p.state.clock
  nextSequence : r.nextSequence = p.state.nextSequence
  live : ∀ row ∈ rows, row.sequence.pool = p.identity ∧
    p.state.sequences.get? row.sequence.serial ≠ none
  /-- A sequence grows by its own rows, which continue its committed positions. -/
  grow : ∀ k q, p.state.sequences.get? k = some q → ∃ q', r.sequences.get? k = some q' ∧
    q'.tokens = q.tokens ++ (rowsOf k rows).map (·.token) ∧ q.pages <+: q'.pages ∧
    (rowsOf k rows).map (·.position) = List.range' q.tokens.length (rowsOf k rows).length
  absent : ∀ k, p.state.sequences.get? k = none → r.sequences.get? k = none
  /-- The page of a row's slot has one reference and is not cached. -/
  write_exclusive : ∀ row ∈ rows, ∀ q', r.sequences.get? row.sequence.serial = some q' →
    ∃ w, q'.pages[row.position / 16]? = some w ∧ r.pages[w]? = some ⟨1, false⟩
  free : r.pages.countP (·.refs = 0) + rows.countP (·.position % 16 = 0) =
    p.state.pages.countP (·.refs = 0)

theorem Reserved.refl (h : StateInv p.limits p.state) : Reserved p [] p.state where
  inv := h
  nodes := rfl
  clock := rfl
  nextSequence := rfl
  live := by simp
  grow k q hq := ⟨q, hq, by simp [rowsOf], List.prefix_rfl, by simp [rowsOf]⟩
  absent _ h := h
  write_exclusive := by simp
  free := by simp

/-- One more row. -/
theorem Reserved.snoc {rows : List PageRow} {r' : State} {q q' : Sequence} {w : ℕ}
    (h : Reserved p rows r) (hinv : StateInv p.limits r') (hs : RowStep p r row r' q q' w) :
    Reserved p (rows ++ [row]) r' where
  inv := hinv
  nodes := hs.nodes.trans h.nodes
  clock := hs.clock.trans h.clock
  nextSequence := hs.nextSequence.trans h.nextSequence
  live a ha := by
    rcases List.mem_append.mp ha with ha | ha
    · exact h.live a ha
    · exact List.mem_singleton.mp ha ▸ ⟨hs.pool, hs.known⟩
  grow k q₀ hq₀ := by
    obtain ⟨q₁, hq₁, htok, hpages, hposs⟩ := h.grow k q₀ hq₀
    by_cases hk : row.sequence.serial = k
    · subst hk
      obtain rfl : q = q₁ := Option.some.inj (hs.get.symm.trans hq₁)
      refine ⟨q', by rw [hs.sequences, BTreeMap.get?_insert_self], ?_, hpages.trans hs.pages, ?_⟩
      · rw [hs.tokens, htok, rowsOf_append_self rfl]
        simp
      · have hpos := hs.position
        rw [htok, List.length_append, List.length_map] at hpos
        rw [rowsOf_append_self rfl, List.map_append, hposs, List.length_append]
        simp [List.range'_concat, hpos]
    · refine ⟨q₁, ?_, ?_, hpages, ?_⟩
      · rw [hs.sequences, BTreeMap.get?_insert_of_ne (Ne.symm hk), hq₁]
      · rw [rowsOf_append_of_ne hk, htok]
      · rw [rowsOf_append_of_ne hk, hposs]
  absent k hk := by
    have hne : k ≠ row.sequence.serial := by
      rintro rfl
      exact hs.known hk
    rw [hs.sequences, BTreeMap.get?_insert_of_ne hne]
    exact h.absent k hk
  write_exclusive a ha qa hqa := by
    rcases List.mem_append.mp ha with ha | ha
    · rw [hs.sequences, BTreeMap.get?_insert] at hqa
      split at hqa
      · next hser =>
        obtain rfl := Option.some.inj hqa
        obtain ⟨w', hw', hpg⟩ := h.write_exclusive a ha q (hser ▸ hs.get)
        refine ⟨w', ?_, hs.other w' _ hpg (by simp)⟩
        obtain ⟨more, hmore⟩ := hs.pages
        rw [← hmore, List.getElem?_append_left (List.getElem?_eq_some_iff.mp hw').1, hw']
      · obtain ⟨w', hw', hpg⟩ := h.write_exclusive a ha qa hqa
        exact ⟨w', hw', hs.other w' _ hpg (by simp)⟩
    · obtain rfl := List.mem_singleton.mp ha
      rw [hs.sequences, BTreeMap.get?_insert_self] at hqa
      obtain rfl := Option.some.inj hqa
      exact ⟨w, hs.writePage, hs.write_exclusive⟩
  free := by
    have h₁ := h.free
    have h₂ := hs.free
    rw [List.countP_append, List.countP_singleton]
    simp only [decide_eq_true_eq]
    omega

/-- **A batch of rows.** It fails at some row for that row's reason, or extends the state. -/
theorem reserveRows_ensures {rows : List PageRow} (hl : p.limits.Valid)
    (h : StateInv p.limits p.state) :
    Ensures (rows.foldlM (reserveRow p) p.state)
      (fun e => ∃ done row rest r, rows = done ++ row :: rest ∧ Reserved p done r ∧
        RowError p r row e) (Reserved p rows) := by
  refine (ensures_foldlM (d := [])
    (I := fun done rest r => done ++ rest = rows ∧ Reserved p done r)
    ⟨rfl, .refl h⟩ ?_).mono (fun _ h => h) fun r _ hr => ?_
  · rintro done row rest r ⟨hsplit, hr⟩
    refine (reserveRow_ensures hl hr.inv).mono
      (fun e he => ⟨done, row, rest, r, hsplit.symm, hr, he⟩) ?_
    rintro r' - ⟨hinv, q, q', w, hs⟩
    exact ⟨by simpa using hsplit, hr.snoc hinv hs⟩
  · simpa using hr.2

/-! ### Consequences of a reservation -/

namespace Reserved

variable {rows : List PageRow}

/-- A row's token stands at the row's position, beyond what was committed. -/
theorem row_token (h : Reserved p rows r) (hrow : row ∈ rows) :
    ∃ q q', p.state.sequences.get? row.sequence.serial = some q ∧
      r.sequences.get? row.sequence.serial = some q' ∧ q.tokens.length ≤ row.position ∧
      q'.tokens[row.position]? = some row.token := by
  obtain ⟨q, hq⟩ := Option.ne_none_iff_exists'.mp (h.live row hrow).2
  obtain ⟨q', hq', htok, -, hposs⟩ := h.grow _ q hq
  obtain ⟨j, hj, hjrow⟩ := List.getElem_of_mem (mem_rowsOf.mpr ⟨hrow, rfl⟩)
  have hjpos := congrArg (·[j]?) hposs
  simp only [List.getElem?_map, List.getElem?_eq_getElem hj, Option.map_some, hjrow,
    List.getElem?_range' hj] at hjpos
  have hposition : row.position = q.tokens.length + j := by simpa using hjpos
  refine ⟨q, q', hq, hq', by omega, ?_⟩
  rw [htok, hposition, List.getElem?_append_right (by omega), Nat.add_sub_cancel_left,
    List.getElem?_map, List.getElem?_eq_getElem hj, hjrow]
  rfl

/-- Every position added to a sequence is some row's. -/
theorem covered (h : Reserved p rows r) {k i : ℕ} {q q' : Sequence}
    (hq : p.state.sequences.get? k = some q) (hq' : r.sequences.get? k = some q')
    (hlo : q.tokens.length ≤ i) (hhi : i < q'.tokens.length) :
    ∃ row ∈ rows, row.sequence.serial = k ∧ row.position = i := by
  obtain ⟨q₁, hq₁, htok, -, hposs⟩ := h.grow k q hq
  obtain rfl := Option.some.inj (hq₁.symm.trans hq')
  rw [htok, List.length_append, List.length_map] at hhi
  have hmem : i ∈ (rowsOf k rows).map (·.position) := by
    rw [hposs, List.mem_range'_1]
    omega
  obtain ⟨row, hrow, rfl⟩ := List.mem_map.mp hmem
  obtain ⟨hrow, hk⟩ := mem_rowsOf.mp hrow
  exact ⟨row, hrow, hk, rfl⟩

/-- No two rows of one sequence have the same position. -/
theorem positions_distinct (h : Reserved p rows r) :
    rows.Pairwise fun a b => a.sequence.serial = b.sequence.serial → a.position ≠ b.position := by
  refine List.pairwise_iff_forall_sublist.mpr fun {a b} hsub hser => ?_
  have ha : a ∈ rows := hsub.subset List.mem_cons_self
  obtain ⟨q, hq⟩ := Option.ne_none_iff_exists'.mp (h.live a ha).2
  obtain ⟨q', -, -, -, hposs⟩ := h.grow _ q hq
  have hsub' : List.Sublist [a, b] (rowsOf a.sequence.serial rows) := by
    have := hsub.filter fun row => decide (row.sequence.serial = a.sequence.serial)
    simpa [rowsOf, hser] using this
  have hnd : ((rowsOf a.sequence.serial rows).map (·.position)).Nodup := by
    rw [hposs]
    exact List.nodup_range'
  have := (hsub'.map (·.position)).nodup hnd
  simpa using this

end Reserved

/-- A page with one reference that is not cached has one owner, and no node. -/
theorem owner_unique {limits : PagedLimits} (h : StateInv limits r) {w : ℕ}
    (hw : r.pages[w]? = some ⟨1, false⟩) :
    (∀ i n, NodeAt r.nodes i n → n.page ≠ w) ∧
      ∀ k k' q q', r.sequences.get? k = some q → r.sequences.get? k' = some q' → w ∈ q.pages →
        w ∈ q'.pages → k = k' := by
  obtain ⟨lab, hc⟩ := h.coherent
  have hcached := hc.cached_iff w _ hw
  have hrefs := hc.refs_eq w _ hw
  simp only at hrefs
  constructor
  · rintro i n hn rfl
    have := hcached.mpr (nodeRefs_pos.mpr ⟨i, n, hn, rfl⟩)
    simp at this
  · intro k k' q q' hk hk' hq hq'
    by_contra hne
    have hmem : q' ∈ (r.sequences.erase k).values :=
      BTreeMap.mem_values.mpr ⟨k', by rw [BTreeMap.get?_erase, if_neg (Ne.symm hne), hk']⟩
    have h₁ := count_le_seqRefs (p := w) hmem
    have h₂ := List.count_pos_iff.mpr hq
    have h₃ := List.count_pos_iff.mpr hq'
    rw [seqRefs_perm (BTreeMap.perm_values_of_get? hk), seqRefs_cons] at hrefs
    omega

/-- A prepared row reads its page list and its slot from the reserved state. -/
structure PreparedFrom (r : State) (x : PreparedRow) : Prop where
  get : ∃ q, r.sequences.get? x.input.sequence.serial = some q ∧ x.pages = q.pages
  writePage : x.pages[x.input.position / 16]? = some x.writePage

/-- The rows a reservation hands to the driver. -/
theorem prepareRows_ensures {rows : List PageRow} {E : PagedError → Prop}
    (h : Reserved p rows r) :
    Ensures (rows.mapM (prepareRow r)) E fun prepared =>
      prepared.map (·.input) = rows ∧ ∀ x ∈ prepared, PreparedFrom r x := by
  refine (ensures_mapM (R := fun row x => x.input = row ∧ PreparedFrom r x)
    fun row hrow => ?_).mono (fun _ h => h) fun prepared _ hp => ?_
  · obtain ⟨_, q', -, hq', -, -⟩ := h.row_token hrow
    obtain ⟨w, hw, -⟩ := h.write_exclusive row hrow q' hq'
    rw [prepareRow]
    simp only [hq', hw, orPanic, ok_bind]
    exact ensures_pure.mpr ⟨rfl, ⟨q', hq', rfl⟩, hw⟩
  · exact map_eq_of_forall₂ hp

/-- What `reserveBatch` minted the rows from. -/
structure Minted (p : PagedPool) (prepared : List PreparedRow) (r : State) : Prop where
  reserved : Reserved p (prepared.map (·.input)) r
  rows : ∀ x ∈ prepared, PreparedFrom r x

namespace Minted

variable {prepared : List PreparedRow} {x : PreparedRow}

/-- **Exclusive slots.** The page a row writes is referenced once, by the row's own sequence. -/
theorem exclusive (h : Minted p prepared r) (hx : x ∈ prepared) :
    ∃ q, r.sequences.get? x.input.sequence.serial = some q ∧
      q.pages[x.input.position / 16]? = some x.writePage ∧
      (∀ i n, NodeAt r.nodes i n → n.page ≠ x.writePage) ∧
      ∀ k q', r.sequences.get? k = some q' → x.writePage ∈ q'.pages →
        k = x.input.sequence.serial := by
  obtain ⟨q, hq, hpages⟩ := (h.rows x hx).get
  have hw := hpages ▸ (h.rows x hx).writePage
  obtain ⟨w, hw', hpg⟩ := h.reserved.write_exclusive _ (List.mem_map_of_mem hx) q hq
  obtain rfl : w = x.writePage := Option.some.inj (hw'.symm.trans hw)
  obtain ⟨hnode, hown⟩ := owner_unique h.reserved.inv hpg
  exact ⟨q, hq, hw, hnode, fun k q' hk hmem =>
    hown k _ q' q hk hq hmem (List.mem_of_getElem? hw)⟩

/-- A position whose slot is a row's slot is the row's position. -/
theorem slot_inj (h : Minted p prepared r) (hx : x ∈ prepared) {k i : ℕ} {q : Sequence}
    (hk : r.sequences.get? k = some q) (hi : q.pages[i / 16]? = some x.writePage)
    (ho : x.writableTokenOffset = i % 16) :
    k = x.input.sequence.serial ∧ i = x.input.position := by
  obtain ⟨q', hq', hw, -, hown⟩ := h.exclusive hx
  obtain rfl := hown k q hk (List.mem_of_getElem? hi)
  obtain rfl : q = q' := Option.some.inj (hk.symm.trans hq')
  obtain ⟨lab, hc⟩ := h.reserved.inv.coherent
  have hnd := hc.pages_nodup q (BTreeMap.mem_values.mpr ⟨_, hk⟩)
  have hidx : i / 16 = x.input.position / 16 := by
    obtain ⟨_, hi⟩ := List.getElem?_eq_some_iff.mp hi
    obtain ⟨_, hw⟩ := List.getElem?_eq_some_iff.mp hw
    exact hnd.getElem_inj_iff.mp (hi.trans hw.symm)
  rw [PreparedRow.writableTokenOffset] at ho
  exact ⟨rfl, by omega⟩

/-- **Distinct slots.** No two rows of a batch write the same slot. -/
theorem slots_distinct (h : Minted p prepared r) :
    prepared.Pairwise fun a b => a.slot ≠ b.slot := by
  have hd := List.pairwise_map.mp h.reserved.positions_distinct
  refine hd.imp_of_mem fun {a b} ha hb hne heq => ?_
  obtain ⟨hpage, ho⟩ := Prod.mk.inj heq
  obtain ⟨q, hq, hw, -, -⟩ := h.exclusive ha
  obtain ⟨hser, hpos⟩ := h.slot_inj hb hq (hpage ▸ hw) ho.symm
  exact hne hser hpos

/-- A slot of committed contents is no row's slot. -/
theorem slot_ne (h : Minted p prepared r) (hx : x ∈ prepared) {k i w : ℕ} {q q' : Sequence}
    (hq : p.state.sequences.get? k = some q) (hq' : r.sequences.get? k = some q')
    (hi : i < q.tokens.length) (hw : q'.pages[i / 16]? = some w) : x.slot ≠ (w, i % 16) := by
  intro heq
  obtain ⟨rfl, ho⟩ := Prod.mk.inj heq
  obtain ⟨rfl, rfl⟩ := h.slot_inj hx hq' hw ho
  obtain ⟨q₀, _, hq₀, -, hle, -⟩ := h.reserved.row_token (List.mem_map_of_mem hx)
  obtain rfl : q = q₀ := Option.some.inj (hq.symm.trans hq₀)
  omega

/-- A committed position keeps its page. -/
theorem page_kept (h : Minted p prepared r) (hp : StateInv p.limits p.state) {k i w : ℕ}
    {q q' : Sequence} (hq : p.state.sequences.get? k = some q)
    (hq' : r.sequences.get? k = some q') (hi : i < q.tokens.length)
    (hw : q'.pages[i / 16]? = some w) :
    q.pages[i / 16]? = some w ∧ q'.tokens.take (i + 1) = q.tokens.take (i + 1) := by
  obtain ⟨lab, hc⟩ := hp.coherent
  have hlen := hc.pages_length q (BTreeMap.mem_values.mpr ⟨k, hq⟩)
  obtain ⟨q₁, hq₁, htok, ⟨more, hmore⟩, -⟩ := h.reserved.grow k q hq
  obtain rfl := Option.some.inj (hq₁.symm.trans hq')
  rw [← hmore, List.getElem?_append_left (by omega)] at hw
  exact ⟨hw, by rw [htok, List.take_append_of_le_length (by omega)]⟩

/-- **Reads during a batch.** Once the first rows of a batch are written, every position that was
committed or belongs to one of them holds its tag. -/
theorem read_written (h : Minted p prepared r) (hp : StateInv p.limits p.state) {mem : Memory}
    (hm : Faithful mem p.state) {done : List PreparedRow} (hdone : done <+: prepared)
    {k i w : ℕ} {q q' : Sequence} (hq : p.state.sequences.get? k = some q)
    (hq' : r.sequences.get? k = some q') (hw : q'.pages[i / 16]? = some w)
    (hi : i < q.tokens.length ∨
      ∃ x ∈ done, x.input.sequence.serial = k ∧ x.input.position = i) :
    writeAll PreparedRow.slot (r.tag ·) mem done (w, i % 16) = q'.tokens.take (i + 1) := by
  have hsub := hdone.subset
  by_cases hlt : i < q.tokens.length
  · rw [writeAll_of_forall_ne fun x hx => h.slot_ne (hsub hx) hq hq' hlt hw]
    obtain ⟨hw', htake⟩ := h.page_kept hp hq hq' hlt hw
    rw [htake, hm.seq k q hq i w hlt hw']
  · obtain ⟨x, hx, rfl, rfl⟩ := hi.resolve_left hlt
    obtain ⟨q₁, hq₁, hw₁, -, -⟩ := h.exclusive (hsub hx)
    obtain rfl : q₁ = q' := Option.some.inj (hq₁.symm.trans hq')
    obtain rfl : w = x.writePage := Option.some.inj (hw.symm.trans hw₁)
    have hslot : (x.writePage, x.input.position % 16) = x.slot := rfl
    rw [hslot, writeAll_of_mem (h.slots_distinct.sublist hdone.sublist) hx, State.tag, hq₁]

/-- **Committing.** Writing the tags of a batch makes the memory faithful to the reserved state. -/
theorem faithful_write (h : Minted p prepared r) (hp : StateInv p.limits p.state) {mem : Memory}
    (hm : Faithful mem p.state) :
    Faithful (writeAll PreparedRow.slot (r.tag ·) mem prepared) r where
  seq k q' hq' i w hi hw := by
    cases hq : p.state.sequences.get? k with
    | none => simp [h.reserved.absent k hq] at hq'
    | some q =>
      refine h.read_written hp hm List.prefix_rfl hq hq' hw ?_
      refine or_iff_not_imp_left.mpr fun hlt => ?_
      obtain ⟨row, hrow, hk, hpos⟩ := h.reserved.covered hq hq' (Nat.not_lt.mp hlt) hi
      obtain ⟨x, hx, rfl⟩ := List.mem_map.mp hrow
      exact ⟨x, hx, hk, hpos⟩
  node i n t hn ht j hj := by
    rw [writeAll_of_forall_ne]
    · exact hm.node i n t (h.reserved.nodes ▸ hn) (h.reserved.nodes ▸ ht) j hj
    · intro x hx heq
      obtain ⟨-, -, -, hnode, -⟩ := h.exclusive hx
      exact hnode i n hn (Prod.mk.inj heq).1.symm

end Minted

end PagedPool

end TpPaged

end Ferric
