import Ferric.TpPaged.Pool

/-!
# Times along the tree

An admission or a retirement walks from the root and touches every node it passes. A node was
therefore last touched no earlier than the nodes below it, and, since every node lives for the same
time after it was last touched, it does not expire before them either. `Aged` states both, and holds
of every reachable pool.

## Main definitions

* `places` — the tree without its times
* `Aged` — times do not decrease towards the root

## Main results

* `exists_leaf_below` — what passes to children holds of a leaf
* `hitLoop_times`, `publishLoop_times` — what the two walks do to the tree
-/

namespace Ferric

namespace TpPaged

variable {nodes nodes' : List (Option RadixNode)} {n m : RadixNode} {i j : ℕ} {ttl now : ℕ}

/-- Where a node hangs, what it spells and the page it holds. -/
def RadixNode.place (n : RadixNode) : Option ℕ × Edge × ℕ := (n.parent, n.edge, n.page)

/-- The node table without the times. -/
def places (nodes : List (Option RadixNode)) : List (Option (Option ℕ × Edge × ℕ)) :=
  nodes.map (Option.map RadixNode.place)

theorem places_set (hi : NodeAt nodes i n) (h : m.place = n.place) :
    places (nodes.set i (some m)) = places nodes := by
  rw [places, places, List.map_set]
  refine List.ext_getElem? fun j => ?_
  by_cases hij : i = j
  · subst hij
    have hget : nodes[i]? = some (some n) := hi
    rw [List.getElem?_set_self (by simpa using hi.lt), List.getElem?_map, hget]
    simp [h]
  · rw [List.getElem?_set_ne hij]

theorem NodeAt.of_places (hi : NodeAt nodes i n) (h : places nodes = places nodes') :
    ∃ m, NodeAt nodes' i m ∧ m.place = n.place := by
  have hget := congrArg (·[i]?) h
  rw [NodeAt] at hi
  simp only [places, List.getElem?_map, hi, Option.map_some] at hget
  obtain ⟨o, ho, hplace⟩ := Option.map_eq_some_iff.mp hget.symm
  obtain ⟨m, rfl, hm⟩ := Option.map_eq_some_iff.mp hplace
  exact ⟨m, ho, hm⟩

theorem PathTo.congr {o : Option ℕ} {t : List Token} (h : PathTo nodes o t)
    (hp : places nodes = places nodes') : PathTo nodes' o t := by
  refine h.mono fun j m hj => ?_
  obtain ⟨m', hm', hplace⟩ := hj.of_places hp
  simp only [RadixNode.place, Prod.mk.injEq] at hplace
  exact ⟨m', hm', hplace.1, hplace.2.1⟩

/-- Every page boundary of a path is the path of a node, or of the root. -/
theorem PathTo.take {o : Option ℕ} {t : List Token} (h : PathTo nodes o t) (k : ℕ) :
    ∃ o', PathTo nodes o' (t.take (16 * k)) := by
  induction h with
  | root => exact ⟨none, by simpa using PathTo.root⟩
  | @node i n t hi ht ih =>
    obtain ⟨c, hc⟩ := ht.dvd_length
    by_cases hk : k ≤ c
    · rw [List.take_append_of_le_length (by omega)]
      exact ih
    · refine ⟨some i, ?_⟩
      rw [List.take_of_length_le (by rw [List.length_append, n.edge.2]; omega)]
      exact .node hi ht

/-! ### Times -/

/-- Every node lives for `ttl` after it was touched, and its parent was not touched before it. -/
structure Aged (ttl : ℕ) (nodes : List (Option RadixNode)) : Prop where
  lifetime : ∀ i n, NodeAt nodes i n → n.expires = n.touched + ttl
  touched_le : ∀ i n j m, NodeAt nodes i n → n.parent = some j → NodeAt nodes j m →
    n.touched ≤ m.touched

namespace Aged

theorem expires_le (h : Aged ttl nodes) (hi : NodeAt nodes i n) (hp : n.parent = some j)
    (hj : NodeAt nodes j m) : n.expires ≤ m.expires := by
  rw [h.lifetime i n hi, h.lifetime j m hj]
  exact Nat.add_le_add_right (h.touched_le i n j m hi hp hj) ttl

theorem set_none (h : Aged ttl nodes) : Aged ttl (nodes.set i none) where
  lifetime j m hj := h.lifetime j m (nodeAt_set_none.mp hj).2
  touched_le j m k m' hj hp hk :=
    h.touched_le j m k m' (nodeAt_set_none.mp hj).2 hp (nodeAt_set_none.mp hk).2

/-- Touching a node whose parent has been touched. -/
theorem touch (h : Aged ttl nodes) (hnow : ∀ j m, NodeAt nodes j m → m.touched ≤ now)
    (htouched : n.touched = now) (hexpires : n.expires = now + ttl)
    (hparent : ∀ j m, n.parent = some j → NodeAt nodes j m → m.touched = now) :
    Aged ttl (nodes.set i (some n)) where
  lifetime j m hj := by
    rcases nodeAt_set.mp hj with ⟨rfl, -, ho⟩ | ⟨-, hj⟩
    · obtain rfl := Option.some.inj ho
      rw [hexpires, htouched]
    · exact h.lifetime j m hj
  touched_le j m k m' hj hp hk := by
    rcases nodeAt_set.mp hj with ⟨rfl, -, ho⟩ | ⟨-, hj⟩ <;>
      rcases nodeAt_set.mp hk with ⟨rfl, -, ho'⟩ | ⟨-, hk⟩
    · obtain rfl := Option.some.inj ho
      obtain rfl := Option.some.inj ho'
      exact le_refl _
    · obtain rfl := Option.some.inj ho
      rw [htouched, hparent k m' hp hk]
    · obtain rfl := Option.some.inj ho'
      rw [htouched]
      exact hnow j m hj
    · exact h.touched_le j m k m' hj hp hk

end Aged

/-- What a child has whenever its parent has it, some leaf has. -/
theorem exists_leaf_below {ctx : ℕ} {pages : List PhysicalPage} {seqs : List Sequence}
    {lab : ℕ → List Token} (hc : Coherent ctx pages nodes seqs lab) {P : ℕ → RadixNode → Prop}
    (hdown : ∀ i n j m, NodeAt nodes i n → P i n → NodeAt nodes j m → m.parent = some i → P j m)
    (hi : NodeAt nodes i n) (hP : P i n) :
    ∃ j m, NodeAt nodes j m ∧ P j m ∧ Leaf nodes j := by
  -- children have longer paths, and paths are bounded
  induction hk : nodes.length - (lab n.page).length / 16 generalizing i n with
  | zero =>
    refine ⟨i, n, hi, hP, fun j m hj hp => ?_⟩
    have hle := (hc.lab_node j m hj).depth_le
    obtain ⟨t, ht, hlab⟩ := (hc.lab_node j m hj).of_node hj
    rw [hp] at ht
    rw [hlab, ht.unique (hc.lab_node i n hi), List.length_append, m.edge.2] at hle
    omega
  | succ k ih =>
    by_cases hl : Leaf nodes i
    · exact ⟨i, n, hi, hP, hl⟩
    simp only [Leaf, not_forall, not_not] at hl
    obtain ⟨j, m, hj, hp⟩ := hl
    refine ih hj (hdown i n j m hi hP hj hp) ?_
    obtain ⟨t, ht, hlab⟩ := (hc.lab_node j m hj).of_node hj
    rw [hp] at ht
    rw [hlab, ht.unique (hc.lab_node i n hi), List.length_append, m.edge.2]
    omega

/-! ### The walks -/

namespace PagedPool

variable {expires : ℕ} {s : State} {parent : Option ℕ}

/-- One round of an admission's walk. -/
theorem hitLoop_cons {chunk : List Token} {rest : List (List Token)} {pages : List ℕ}
    {r : State × List ℕ} (h : hitLoop now expires (chunk :: rest) s parent pages = .ok r) :
    ∃ edge, toEdge chunk = some edge ∧
      ((r = (s, pages) ∧ (findChild s parent edge = none ∨
          ∃ index n, NodeAt s.nodes index n ∧ n.expires ≤ now)) ∨
        ∃ index n, ∃ pg : PhysicalPage, ∃ refs,
          findChild s parent edge = some index ∧ NodeAt s.nodes index n ∧ now < n.expires ∧
          hitLoop now expires rest { s with
            nodes := s.nodes.set index (some { n with touched := now, expires })
            pages := s.pages.set n.page { pg with refs } } (some index)
            (pages ++ [n.page]) = .ok r) := by
  rw [hitLoop] at h
  obtain ⟨edge, hedge, h⟩ := bind_eq_ok.mp h
  refine ⟨edge, orErr_eq_ok.mp hedge, ?_⟩
  cases hfind : findChild s parent edge with
  | none =>
    rw [hfind] at h
    exact .inl ⟨(Except.ok.inj h).symm, .inl rfl⟩
  | some index =>
    rw [hfind] at h
    obtain ⟨slot, hslot, hread⟩ := bind_eq_ok.mp h
    obtain ⟨n, hn, hround⟩ := bind_eq_ok.mp hread
    rw [orPanic_eq_ok] at hslot
    obtain rfl := orErr_eq_ok.mp hn
    by_cases hexp : n.expires ≤ now
    · rw [if_pos hexp] at hround
      exact .inl ⟨(Except.ok.inj hround).symm, .inr ⟨index, n, hslot, hexp⟩⟩
    · rw [if_neg hexp] at hround
      obtain ⟨pg, -, hround⟩ := bind_eq_ok.mp hround
      obtain ⟨refs, -, h⟩ := bind_eq_ok.mp hround
      exact .inr ⟨index, n, pg, refs, rfl, hslot, not_le.mp hexp, h⟩

/-- The walk of an admission changes times only, to the present. -/
theorem hitLoop_times {chunks : List (List Token)} {pages : List ℕ} {r : State × List ℕ}
    (hage : Aged ttl s.nodes) (hnow : ∀ j m, NodeAt s.nodes j m → m.touched ≤ now)
    (hparent : ∀ j m, parent = some j → NodeAt s.nodes j m → m.touched = now)
    (h : hitLoop now (now + ttl) chunks s parent pages = .ok r) :
    places r.1.nodes = places s.nodes ∧ Aged ttl r.1.nodes ∧
      ∀ i n, NodeAt r.1.nodes i n → NodeAt s.nodes i n ∨ n.touched = now := by
  induction chunks generalizing s parent pages with
  | nil =>
    obtain rfl := Except.ok.inj h
    exact ⟨rfl, hage, fun i n hi => .inl hi⟩
  | cons chunk rest ih =>
    obtain ⟨edge, -, ⟨rfl, -⟩ | ⟨index, n, pg, refs, hfind, hn, -, h⟩⟩ := hitLoop_cons h
    · exact ⟨rfl, hage, fun i n hi => .inl hi⟩
    obtain ⟨n', hn', hpar, -⟩ := findChild_eq_some hfind
    obtain rfl := hn'.inj hn
    have hset : ∀ j m, NodeAt (s.nodes.set index
        (some { n' with touched := now, expires := now + ttl })) j m →
        NodeAt s.nodes j m ∨ m.touched = now := by
      intro j m hj
      rcases nodeAt_set.mp hj with ⟨-, -, ho⟩ | ⟨-, hj⟩
      · exact .inr (Option.some.inj ho ▸ rfl)
      · exact .inl hj
    have hage' := hage.touch (i := index) (n := { n' with touched := now, expires := now + ttl })
      hnow rfl rfl fun j m hp hj => hparent j m (hpar ▸ hp) hj
    obtain ⟨hplaces, hr, htouched⟩ := ih hage'
      (fun j m hj => (hset j m hj).elim (hnow j m) (fun he => he.le))
      (fun j m hp hj => by
        obtain rfl := Option.some.inj hp
        rw [hj.inj (nodeAt_set_self hn.lt)]) h
    refine ⟨hplaces.trans (places_set hn rfl), hr, fun i m hi => ?_⟩
    exact (htouched i m hi).elim (hset i m) .inr

/-- One round of a retirement's walk. -/
theorem publishLoop_cons {retired : Sequence} {chunk : List Token} {logical : ℕ}
    {rest : List (List Token × ℕ)} {r : State}
    (h : publishLoop now expires retired ((chunk, logical) :: rest) s parent = .ok r) :
    (∃ index n edge, findChild s parent edge = some index ∧ NodeAt s.nodes index n ∧
      publishLoop now expires retired rest { s with
        nodes := s.nodes.set index (some { n with touched := now, expires }) }
        (some index) = .ok r) ∨
    ∃ index edge page pg, s.nodes[index]? = some none ∧ page ∈ retired.pages ∧
      publishLoop now expires retired rest { s with
        nodes := s.nodes.set index (some { parent, edge, page, touched := now, expires })
        pages := s.pages.set page pg } (some index) = .ok r := by
  rw [publishLoop] at h
  obtain ⟨edge, -, h⟩ := bind_eq_ok.mp h
  cases hfind : findChild s parent edge with
  | some index =>
    rw [hfind] at h
    obtain ⟨slot, hslot, hread⟩ := bind_eq_ok.mp h
    obtain ⟨n, hn, hround⟩ := bind_eq_ok.mp hread
    rw [orPanic_eq_ok] at hslot
    obtain rfl := orErr_eq_ok.mp hn
    exact .inl ⟨index, n, edge, hfind, hslot, hround⟩
  | none =>
    rw [hfind] at h
    obtain ⟨page, hpage, h⟩ := bind_eq_ok.mp h
    obtain ⟨pg, -, h⟩ := bind_eq_ok.mp h
    obtain ⟨-, -, h⟩ := bind_eq_ok.mp h
    obtain ⟨index, hindex, h⟩ := bind_eq_ok.mp h
    obtain ⟨refs, -, h⟩ := bind_eq_ok.mp h
    rw [orPanic_eq_ok] at hpage
    rw [orErr_eq_ok] at hindex
    obtain ⟨hlt, hnone, -⟩ := List.findIdx?_eq_some_iff_getElem.mp hindex
    refine .inr ⟨index, edge, page, ⟨refs, true⟩, ?_, List.mem_of_getElem? hpage, h⟩
    rw [List.getElem?_eq_getElem hlt, Option.isNone_iff_eq_none.mp hnone]

/-- The walk of a retirement keeps every node in its place, and adds nodes for pages of the retired
sequence in slots that were free. -/
theorem publishLoop_times {retired : Sequence} {entries : List (List Token × ℕ)} {r : State}
    (hage : Aged ttl s.nodes) (hnow : ∀ j m, NodeAt s.nodes j m → m.touched ≤ now)
    (hparent : ∀ j m, parent = some j → NodeAt s.nodes j m → m.touched = now)
    (h : publishLoop now (now + ttl) retired entries s parent = .ok r) :
    Aged ttl r.nodes ∧
      (∀ i n, NodeAt s.nodes i n → ∃ n', NodeAt r.nodes i n' ∧ n'.place = n.place) ∧
      ∀ i n, NodeAt r.nodes i n → NodeAt s.nodes i n ∨ n.touched = now ∧
        ((∃ n', NodeAt s.nodes i n' ∧ n.place = n'.place) ∨
          s.nodes[i]? = some none ∧ n.page ∈ retired.pages) := by
  induction entries generalizing s parent with
  | nil =>
    obtain rfl := Except.ok.inj h
    exact ⟨hage, fun i n hi => ⟨n, hi, rfl⟩, fun i n hi => .inl hi⟩
  | cons entry rest ih =>
    obtain ⟨index, n, edge, hfind, hn, h⟩ | ⟨index, edge, page, pg, hfree, hmem, h⟩ :=
      publishLoop_cons h
    · obtain ⟨n', hn', hpar, -⟩ := findChild_eq_some hfind
      obtain rfl := hn'.inj hn
      set touched : RadixNode := { n' with touched := now, expires := now + ttl } with htouched
      have hset : ∀ j m, NodeAt (s.nodes.set index (some touched)) j m →
          NodeAt s.nodes j m ∨
          m.touched = now ∧ ∃ m', NodeAt s.nodes j m' ∧ m.place = m'.place := by
        intro j m hj
        rcases nodeAt_set.mp hj with ⟨rfl, -, ho⟩ | ⟨-, hj⟩
        · obtain rfl := Option.some.inj ho
          exact .inr ⟨rfl, n', hn, rfl⟩
        · exact .inl hj
      have hplaces := places_set (m := touched) hn rfl
      have hage' := hage.touch (i := index) (n := touched) hnow rfl rfl
        fun j m hp hj => hparent j m (hpar ▸ hp) hj
      obtain ⟨hr, hkept, hfrom⟩ := ih hage'
        (fun j m hj => (hset j m hj).elim (hnow j m) fun he => he.1.le)
        (fun j m hp hj => by
          obtain rfl := Option.some.inj hp
          rw [hj.inj (nodeAt_set_self hn.lt)]) h
      refine ⟨hr, fun i m hi => ?_, fun i m hi => ?_⟩
      · obtain ⟨m', hm', hplace⟩ := hi.of_places hplaces.symm
        obtain ⟨m'', hm'', hplace'⟩ := hkept i m' hm'
        exact ⟨m'', hm'', hplace'.trans hplace⟩
      · rcases hfrom i m hi with hi | ⟨ht, ⟨m', hm', hplace⟩ | ⟨hfree, hmem⟩⟩
        · exact (hset i m hi).imp_right fun h => ⟨h.1, .inl h.2⟩
        · obtain ⟨m'', hm'', hplace'⟩ := hm'.of_places hplaces
          exact .inr ⟨ht, .inl ⟨m'', hm'', hplace.trans hplace'.symm⟩⟩
        · refine .inr ⟨ht, .inr ⟨?_, hmem⟩⟩
          have hne : index ≠ i := by
            rintro rfl
            rw [List.getElem?_set_self hn.lt] at hfree
            cases hfree
          rwa [List.getElem?_set_ne hne] at hfree
    · have hlt := (List.getElem?_eq_some_iff.mp hfree).1
      set added : RadixNode := ⟨parent, edge, page, now, now + ttl⟩ with hadded
      have hne : ∀ i n, NodeAt s.nodes i n → index ≠ i := by
        rintro i n hi rfl
        rw [NodeAt, hfree] at hi
        cases hi
      have hset : ∀ j m, NodeAt (s.nodes.set index (some added)) j m →
          NodeAt s.nodes j m ∨ j = index ∧ m = added := by
        intro j m hj
        rcases nodeAt_set.mp hj with ⟨rfl, -, ho⟩ | ⟨-, hj⟩
        · exact .inr ⟨rfl, (Option.some.inj ho).symm⟩
        · exact .inl hj
      have hage' := hage.touch (i := index) (n := added) hnow rfl rfl hparent
      obtain ⟨hr, hkept, hfrom⟩ := ih hage'
        (fun j m hj => (hset j m hj).elim (hnow j m) fun he => he.2 ▸ le_refl _)
        (fun j m hp hj => by
          obtain rfl := Option.some.inj hp
          rw [hj.inj (nodeAt_set_self hlt)]) h
      refine ⟨hr, fun i m hi => hkept i m ((nodeAt_set_of_ne (hne i m hi)).mpr hi),
        fun i m hi => ?_⟩
      rcases hfrom i m hi with hi | ⟨ht, ⟨m', hm', hplace⟩ | ⟨hfree', hmem'⟩⟩
      · rcases hset i m hi with hi | ⟨rfl, rfl⟩
        · exact .inl hi
        · exact .inr ⟨rfl, .inr ⟨hfree, hmem⟩⟩
      · rcases hset i m' hm' with hi' | ⟨rfl, rfl⟩
        · exact .inr ⟨ht, .inl ⟨m', hi', hplace⟩⟩
        · have hpage : m.page = page := congrArg (fun p => p.2.2) hplace
          exact .inr ⟨ht, .inr ⟨hfree, hpage ▸ hmem⟩⟩
      · have hne' : index ≠ i := by
          rintro rfl
          rw [List.getElem?_set_self hlt] at hfree'
          cases hfree'
        rw [List.getElem?_set_ne hne'] at hfree'
        exact .inr ⟨ht, .inr ⟨hfree', hmem'⟩⟩

end PagedPool

end TpPaged

end Ferric
