import Ferric.RadixPrefix.Shape

/-!
# Linking nodes in and out

`insertChild` puts a node into a free slot and at the head of its parent's children; `unlinkChild`
followed by clearing the slot takes a childless node out. Both keep `Shape`, for a path function
and lists of children that change at the slots concerned and nowhere else.
-/

namespace Ferric

namespace RadixPrefix

open Spec

variable {nodes nodes' : List (Option Node)} {path : ℕ → List Token} {kids : ℕ → List ℕ}
  {i j slot p : ℕ} {n : Node} {t : Token}

/-- The node array after `insertChild`. -/
def linkIn (nodes : List (Option Node)) (slot p : ℕ) (n : Node) (t : Token) :
    List (Option Node) :=
  (nodes.set slot (some
    { token := t, parent := p, firstChild := none, nextSibling := n.firstChild,
      depth := n.depth + 1 })).set p (some { n with firstChild := some slot })

section LinkIn

variable (hslot : nodes[slot]? = some none) (hp : cell nodes p = some n)

include hslot hp

theorem slot_ne_of_cell : slot ≠ p := by
  rintro rfl
  rw [cell_eq_some, hslot] at hp
  simp at hp

theorem cell_linkIn_slot : cell (linkIn nodes slot p n t) slot = some
    { token := t, parent := p, firstChild := none, nextSibling := n.firstChild,
      depth := n.depth + 1 } := by
  rw [linkIn, cell_set_of_ne (slot_ne_of_cell hslot hp),
    cell_set_self (List.getElem?_eq_some_iff.mp hslot).1]

omit hslot in
theorem cell_linkIn_parent :
    cell (linkIn nodes slot p n t) p = some { n with firstChild := some slot } := by
  rw [linkIn, cell_set_self]
  rw [List.length_set]
  exact lt_length_of_cell hp

omit hslot hp in
theorem cell_linkIn_of_ne (hs : i ≠ slot) (hip : i ≠ p) :
    cell (linkIn nodes slot p n t) i = cell nodes i := by
  rw [linkIn, cell_set_of_ne hip, cell_set_of_ne hs]

theorem upLink_linkIn :
    upLink (linkIn nodes slot p n t) = Function.update (upLink nodes) slot (some (p, t)) := by
  funext i
  by_cases hs : i = slot
  · subst hs
    rw [Function.update_self, upLink_of_cell (cell_linkIn_slot hslot hp)]
  rw [Function.update_of_ne hs]
  by_cases hip : i = p
  · subst hip
    rw [upLink_of_cell (cell_linkIn_parent hp), upLink_of_cell hp]
  · rw [upLink, cell_linkIn_of_ne hs hip, upLink]

theorem sibling_linkIn_slot : sibling (linkIn nodes slot p n t) slot = n.firstChild :=
  sibling_of_cell (cell_linkIn_slot hslot hp)

omit hslot in
theorem sibling_linkIn_of_ne (hs : i ≠ slot) :
    sibling (linkIn nodes slot p n t) i = sibling nodes i := by
  by_cases hip : i = p
  · subst hip
    rw [sibling_of_cell (cell_linkIn_parent hp), sibling_of_cell hp]
  · rw [sibling, cell_linkIn_of_ne hs hip, sibling]

/-- A node of the new array is the new node, or an old one with the same links upwards. -/
theorem cell_linkIn_cases {m : Node} (hi : cell (linkIn nodes slot p n t) i = some m) :
    (i = slot ∧ m.parent = p ∧ m.firstChild = none ∧ m.depth = n.depth + 1) ∨
      i ≠ slot ∧ ∃ m', cell nodes i = some m' ∧ m.parent = m'.parent ∧ m.depth = m'.depth ∧
        (i = p ∧ m.firstChild = some slot ∨ i ≠ p ∧ m.firstChild = m'.firstChild) := by
  by_cases hs : i = slot
  · subst hs
    rw [cell_linkIn_slot hslot hp] at hi
    obtain rfl := Option.some.inj hi
    exact .inl ⟨rfl, rfl, rfl, rfl⟩
  refine .inr ⟨hs, ?_⟩
  by_cases hip : i = p
  · subst hip
    rw [cell_linkIn_parent hp] at hi
    obtain rfl := Option.some.inj hi
    exact ⟨n, hp, rfl, rfl, .inl ⟨rfl, rfl⟩⟩
  · rw [cell_linkIn_of_ne hs hip] at hi
    exact ⟨m, hi, rfl, rfl, .inr ⟨hip, rfl⟩⟩

theorem exists_cell_linkIn :
    (∃ m, cell (linkIn nodes slot p n t) i = some m) ↔ i = slot ∨ ∃ m, cell nodes i = some m := by
  rw [← upLink_isSome, ← upLink_isSome, upLink_linkIn hslot hp]
  by_cases hs : i = slot
  · simp [hs]
  · simp [hs]

/-- The children of the new array: the new node below `p`, and the old ones. -/
theorem isKid_linkIn (hroot : slot ≠ rootNode) :
    (∃ m, cell (linkIn nodes slot p n t) j = some m ∧ j ≠ rootNode ∧ m.parent = i) ↔
      (j = slot ∧ i = p) ∨ ∃ m, cell nodes j = some m ∧ j ≠ rootNode ∧ m.parent = i := by
  by_cases hs : j = slot
  · subst hs
    have hfree : cell nodes j = none := by rw [cell, hslot]; rfl
    rw [cell_linkIn_slot hslot hp]
    simp [hfree, hroot, eq_comm]
  by_cases hjp : j = p
  · subst hjp
    rw [cell_linkIn_parent hp]
    simp [hp, hs]
  · rw [cell_linkIn_of_ne hs hjp]
    simp [hs]

theorem length_live_linkIn :
    (live (linkIn nodes slot p n t)).length = (live nodes).length + 1 := by
  rw [linkIn, length_live_set (a := n)]
  · rw [(live_set_perm hslot).length_eq, List.length_cons]
  · rw [cell_set_of_ne (slot_ne_of_cell hslot hp).symm, hp]

theorem Shape.linkIn (h : Shape nodes path kids)
    (hfresh : ∀ j m, cell nodes j = some m → path j ≠ path p ++ [t]) :
    Shape (linkIn nodes slot p n t) (Function.update path slot (path p ++ [t]))
      (Function.update (Function.update kids slot []) p (slot :: kids p)) := by
  have hne := slot_ne_of_cell hslot hp
  have hfree : cell nodes slot = none := by rw [cell, hslot]; rfl
  have hkids : ∀ i m, cell nodes i = some m → slot ∉ kids i := by
    intro i m hi hmem
    obtain ⟨c, hc, -⟩ := h.exists_of_mem_kids hi hmem
    simp [hfree] at hc
  -- a chain that avoids the new slot is read as before
  have hchain : ∀ i m, cell nodes i = some m →
      Chain (sibling (RadixPrefix.linkIn nodes slot p n t)) m.firstChild (kids i) := by
    intro i m hi
    refine (h.chain hi).congr fun j hj => sibling_linkIn_of_ne hp ?_
    rintro rfl
    exact hkids i m hi hj
  refine ⟨?_, ?_, ?_, ?_, ?_⟩
  · rw [upLink_linkIn hslot hp]
    refine h.tree.insert ?_ (upLink_isSome.mpr ⟨n, hp⟩) fun j hj => ?_
    · rw [upLink, hfree]
      rfl
    · obtain ⟨m, hm⟩ := upLink_isSome.mp hj
      exact hfresh j m hm
  · intro i m hi
    obtain ⟨rfl, -, -, hd⟩ | ⟨hs, m', hm', -, hd, -⟩ := cell_linkIn_cases hslot hp hi
    · rw [hd, Function.update_self, List.length_append, List.length_singleton, h.depth hp]
    · rw [hd, Function.update_of_ne hs, h.depth hm']
  · intro i m hi
    obtain ⟨rfl, -, hf, -⟩ | ⟨hs, m', hm', -, -, ⟨rfl, hf⟩ | ⟨hip, hf⟩⟩ :=
      cell_linkIn_cases hslot hp hi
    · rw [Function.update_of_ne hne, Function.update_self, hf]
      rfl
    · rw [Function.update_self, hf]
      refine ⟨rfl, ?_⟩
      rw [sibling_linkIn_slot hslot hp]
      exact hchain _ n hp
    · rw [Function.update_of_ne hip, Function.update_of_ne hs, hf]
      exact hchain i m' hm'
  · intro i m hi
    obtain ⟨rfl, -⟩ | ⟨hs, m', hm', -, -, ⟨rfl, -⟩ | ⟨hip, -⟩⟩ := cell_linkIn_cases hslot hp hi
    · rw [Function.update_of_ne hne, Function.update_self]
      exact List.nodup_nil
    · rw [Function.update_self]
      exact List.nodup_cons.mpr ⟨hkids _ n hp, h.nodup hp⟩
    · rw [Function.update_of_ne hip, Function.update_of_ne hs]
      exact h.nodup hm'
  · intro i m j hi
    have hroot : slot ≠ rootNode := by
      rintro rfl
      obtain ⟨r, hr⟩ := h.root
      simp [hfree] at hr
    rw [isKid_linkIn hslot hp hroot]
    obtain ⟨rfl, -⟩ | ⟨hs, m', hm', -, -, ⟨rfl, -⟩ | ⟨hip, -⟩⟩ := cell_linkIn_cases hslot hp hi
    · rw [Function.update_of_ne hne, Function.update_self]
      refine iff_of_false (by simp) ?_
      rintro (⟨-, he⟩ | ⟨c, hc, hcr, rfl⟩)
      · exact hne he
      · obtain ⟨⟨q, hq⟩, -⟩ := h.path_step hc hcr
        simp [hfree] at hq
    · rw [Function.update_self, List.mem_cons, h.mem_kids hp]
      simp
    · rw [Function.update_of_ne hip, Function.update_of_ne hs, h.mem_kids hm']
      simp [hip]

end LinkIn

/-! ### Inserting -/

namespace Index

variable {ix : Index}

theorem freeNode_spec (h : Shape ix.nodes path kids)
    (hfree : (live ix.nodes).length < ix.nodes.length) :
    ∃ slot, ix.freeNode = some slot ∧ ix.nodes[slot]? = some none := by
  cases hfind : (ix.nodes.drop 1).findIdx? (·.isNone) with
  | some k =>
    refine ⟨k + 1, by rw [freeNode, hfind]; rfl, ?_⟩
    obtain ⟨hk, hnone, -⟩ := List.findIdx?_eq_some_iff_getElem.mp hfind
    rw [List.getElem_drop, Option.isNone_iff_eq_none] at hnone
    rw [Nat.add_comm, List.getElem?_eq_some_iff]
    exact ⟨by rw [List.length_drop] at hk; omega, hnone⟩
  | none =>
    -- the root's slot is not free, and no other one is
    obtain ⟨k, hk⟩ := exists_free hfree
    obtain ⟨r, hr⟩ := h.root
    rw [List.findIdx?_eq_none_iff] at hfind
    cases k with
    | zero =>
      have hr' : ix.nodes[0]? = some (some r) := cell_eq_some.mp hr
      simp [hk] at hr'
    | succ k =>
      have : none ∈ ix.nodes.drop 1 := by
        rw [List.mem_iff_getElem?]
        exact ⟨k, by rw [List.getElem?_drop, Nat.add_comm, hk]⟩
      simpa using hfind none this

/-- A child with a new path goes into a free slot. -/
theorem insertChild_ensures (h : Shape ix.nodes path kids) (hp : ix.node p = some n)
    (hfree : (live ix.nodes).length < ix.nodes.length) (hfits : ix.nodes.length < 2 ^ 64)
    (hcount : ix.nodeCount = (live ix.nodes).length) :
    Ensures (ix.insertChild p t) (fun _ => False) fun r =>
      ix.nodes[r.1]? = some none ∧
        r.2 = { ix with nodes := linkIn ix.nodes r.1 p n t, nodeCount := ix.nodeCount + 1 } := by
  obtain ⟨slot, hsome, hslot⟩ := freeNode_spec h hfree
  have hdepth : n.depth < ix.nodes.length := by
    rw [h.depth hp]
    exact h.length_lt hp
  have hd : checkedAdd 64 n.depth 1 = some (n.depth + 1) := checkedAdd_eq_some.mpr ⟨by omega, rfl⟩
  have hc : checkedAdd 64 ix.nodeCount 1 = some (ix.nodeCount + 1) :=
    checkedAdd_eq_some.mpr ⟨by omega, rfl⟩
  rw [insertChild, hsome, hp]
  simp only [orErr, ok_bind, hd, hc, cell_set_of_ne (slot_ne_of_cell hslot hp).symm, hp]
  exact ensures_pure.mpr ⟨hslot, rfl⟩

end Index

/-! ### Removing -/

/-- What relinking leaves alone. -/
def Node.skeleton (n : Node) : Token × ℕ × ℕ := (n.token, n.parent, n.depth)

theorem exists_cell_of_skeleton (h : (cell nodes' i).map Node.skeleton =
    (cell nodes i).map Node.skeleton) (hi : cell nodes' i = some n) :
    ∃ m, cell nodes i = some m ∧ n.token = m.token ∧ n.parent = m.parent ∧ n.depth = m.depth := by
  rw [hi, Option.map_some, eq_comm, Option.map_eq_some_iff] at h
  obtain ⟨m, hm, hs⟩ := h
  simp only [Node.skeleton, Prod.mk.injEq] at hs
  exact ⟨m, hm, hs.1.symm, hs.2.1.symm, hs.2.2.symm⟩

/-- Taking a childless node out keeps the shape, if the parent's chain now skips it and nothing
else has changed. -/
theorem Shape.takeOut (h : Shape nodes path kids) {c : ℕ} {e : Node} (hc : cell nodes c = some e)
    (hroot : c ≠ rootNode) (hleaf : kids c = []) (hdel : cell nodes' c = none)
    (hsame : ∀ i, i ≠ c → (cell nodes' i).map Node.skeleton = (cell nodes i).map Node.skeleton)
    (hparent : ∀ n, cell nodes' e.parent = some n →
      Chain (sibling nodes') n.firstChild ((kids e.parent).erase c))
    (hfirst : ∀ i n n', i ≠ e.parent → cell nodes i = some n → cell nodes' i = some n' →
      n'.firstChild = n.firstChild)
    (hnext : ∀ i, i ∉ kids e.parent → sibling nodes' i = sibling nodes i) :
    Shape nodes' path (Function.update kids e.parent ((kids e.parent).erase c)) := by
  obtain ⟨⟨q, hq⟩, -⟩ := h.path_step hc hroot
  have hne : ∀ i n, cell nodes' i = some n → i ≠ c := by
    rintro i n hi rfl
    simp [hdel] at hi
  have hold : ∀ {i n}, cell nodes' i = some n → ∃ m, cell nodes i = some m ∧ n.token = m.token ∧
      n.parent = m.parent ∧ n.depth = m.depth :=
    fun {i n} hi => exists_cell_of_skeleton (hsame i (hne i n hi)) hi
  have hlinks : upLink nodes' = Function.update (upLink nodes) c none := by
    funext i
    by_cases hic : i = c
    · subst hic
      rw [Function.update_self, upLink, hdel]
      rfl
    · rw [Function.update_of_ne hic, upLink, upLink]
      have := congrArg (Option.map fun s : Token × ℕ × ℕ => (s.2.1, s.1)) (hsame i hic)
      rw [Option.map_map, Option.map_map] at this
      exact this
  have hnotkid : ∀ k t, upLink nodes k = some (c, t) → k = rootNode := by
    intro k t hk
    obtain ⟨m, hm, hpar, -⟩ := upLink_eq_some.mp hk
    by_contra hkr
    have : k ∈ kids c := (h.mem_kids hc).mpr ⟨m, hm, hkr, hpar⟩
    simp [hleaf] at this
  refine ⟨?_, ?_, ?_, ?_, ?_⟩
  · rw [hlinks]
    exact h.tree.remove hroot hnotkid
  · intro i n hi
    obtain ⟨m, hm, -, -, hd⟩ := hold hi
    rw [hd, h.depth hm]
  · intro i n hi
    by_cases hip : i = e.parent
    · subst hip
      rw [Function.update_self]
      exact hparent n hi
    · obtain ⟨m, hm, -⟩ := hold hi
      rw [Function.update_of_ne hip, hfirst i m n hip hm hi]
      -- the chains of two parents visit different slots
      refine (h.chain hm).congr fun j hj => hnext j fun hj' => hip ?_
      obtain ⟨k, hk, -, hki⟩ := h.exists_of_mem_kids hm hj
      obtain ⟨k', hk', -, hkp⟩ := h.exists_of_mem_kids hq hj'
      rw [← hki, ← hkp, Option.some.inj (hk.symm.trans hk')]
  · intro i n hi
    obtain ⟨m, hm, -⟩ := hold hi
    by_cases hip : i = e.parent
    · subst hip
      rw [Function.update_self]
      exact (h.nodup hm).erase c
    · rw [Function.update_of_ne hip]
      exact h.nodup hm
  · intro i n j hi
    obtain ⟨m, hm, -⟩ := hold hi
    have hkid : (∃ k, cell nodes' j = some k ∧ j ≠ rootNode ∧ k.parent = i) ↔
        j ≠ c ∧ j ∈ kids i := by
      rw [h.mem_kids hm]
      constructor
      · rintro ⟨k, hk, hjr, hki⟩
        obtain ⟨k', hk', -, hpar, -⟩ := hold hk
        exact ⟨hne j k hk, k', hk', hjr, hpar ▸ hki⟩
      · rintro ⟨hjc, k, hk, hjr, hki⟩
        obtain ⟨k', hk', -, hpar, -⟩ := exists_cell_of_skeleton (hsame j hjc).symm hk
        exact ⟨k', hk', hjr, hpar ▸ hki⟩
    rw [hkid]
    by_cases hip : i = e.parent
    · subst hip
      rw [Function.update_self]
      exact (h.nodup hm).mem_erase_iff
    · rw [Function.update_of_ne hip]
      refine ⟨fun hj => ⟨?_, hj⟩, fun hj => hj.2⟩
      rintro rfl
      obtain ⟨k, hk, -, hki⟩ := h.exists_of_mem_kids hm hj
      exact hip (by rw [← hki, Option.some.inj (hk.symm.trans hc)])

namespace Index

variable {ix : Index}

/-- The scan stops at the sibling before `c`. -/
theorem unlinkAfter_eq {l l' : List ℕ} {q c fuel : ℕ} {start r : Option ℕ}
    (h : Chain (sibling ix.nodes) start (l ++ q :: c :: l')) (hnd : (l ++ q :: c :: l').Nodup)
    (hl : ∀ i ∈ l, ∃ n, ix.node i = some n) (hq : ix.node q = some n) (hf : l.length < fuel) :
    ix.unlinkAfter c r fuel start =
      .ok { ix with nodes := ix.nodes.set q (some { n with nextSibling := r }) } := by
  induction l generalizing start fuel with
  | nil =>
    obtain ⟨rfl, hnext, -⟩ := h
    obtain ⟨fuel, rfl⟩ : ∃ k, fuel = k + 1 := ⟨fuel - 1, by simp at hf; omega⟩
    rw [sibling_of_cell hq] at hnext
    rw [unlinkAfter, hq, orErr, ok_bind, if_pos hnext]
    rfl
  | cons i l ih =>
    obtain ⟨rfl, hrest⟩ := h
    obtain ⟨m, hm⟩ := hl i List.mem_cons_self
    obtain ⟨fuel, rfl⟩ : ∃ k, fuel = k + 1 := ⟨fuel - 1, by simp at hf; omega⟩
    rw [sibling_of_cell hm] at hrest
    rw [List.cons_append, List.nodup_cons] at hnd
    -- what follows `i` is an earlier element of the chain than `c`
    have hne : m.nextSibling ≠ some c := by
      intro hmc
      rw [hmc] at hrest
      cases l with
      | nil =>
        obtain rfl : c = q := Option.some.inj hrest.1
        simp at hnd
      | cons k l =>
        obtain rfl : c = k := Option.some.inj hrest.1
        simp at hnd
    rw [unlinkAfter, hm, orErr, ok_bind, if_neg hne]
    exact ih hrest hnd.2 (fun j hj => hl j (.tail _ hj)) (by simpa using hf)

/-- The node array after `unlinkChild` and clearing the slot. -/
structure TakenOut (nodes nodes' : List (Option Node)) (path : ℕ → List Token)
    (kids : ℕ → List ℕ) (c p : ℕ) : Prop where
  length_eq : nodes'.length = nodes.length
  length_live : (live nodes').length + 1 = (live nodes).length
  shape : Shape nodes' path (Function.update kids p ((kids p).erase c))
  cells : ∀ i, (∃ n, cell nodes' i = some n) ↔ i ≠ c ∧ ∃ n, cell nodes i = some n

/-- One overwritten node, then the cleared slot. -/
theorem takenOut_of_set (h : Shape nodes path kids) {c q : ℕ} {e a b : Node}
    (hc : cell nodes c = some e) (hroot : c ≠ rootNode) (hleaf : kids c = [])
    (hqc : q ≠ c) (hq : cell nodes q = some a) (hab : b.skeleton = a.skeleton)
    (hfirst : q ≠ e.parent → b.firstChild = a.firstChild)
    (hnext : q ∉ kids e.parent → b.nextSibling = a.nextSibling)
    (hchain : ∀ n, cell ((nodes.set q (some b)).set c none) e.parent = some n →
      Chain (sibling ((nodes.set q (some b)).set c none)) n.firstChild ((kids e.parent).erase c)) :
    TakenOut nodes ((nodes.set q (some b)).set c none) path kids c e.parent := by
  have hset : cell (nodes.set q (some b)) q = some b := cell_set_self (lt_length_of_cell hq)
  have hcset : cell (nodes.set q (some b)) c = some e := by rw [cell_set_of_ne hqc.symm, hc]
  have hcell : ∀ i, i ≠ c → cell ((nodes.set q (some b)).set c none) i =
      if i = q then some b else cell nodes i := by
    intro i hic
    rw [cell_set_of_ne hic]
    by_cases hiq : i = q
    · rw [if_pos hiq, hiq, hset]
    · rw [if_neg hiq, cell_set_of_ne hiq]
  have hdel : cell ((nodes.set q (some b)).set c none) c = none := by
    rw [cell_set_self]
    rw [List.length_set]
    exact lt_length_of_cell hc
  have hsame : ∀ i, i ≠ c → (cell ((nodes.set q (some b)).set c none) i).map Node.skeleton =
      (cell nodes i).map Node.skeleton := by
    intro i hic
    rw [hcell i hic]
    by_cases hiq : i = q
    · subst hiq
      rw [if_pos rfl, hq, Option.map_some, Option.map_some, hab]
    · rw [if_neg hiq]
  refine ⟨by simp, ?_, ?_, fun i => ?_⟩
  · have hlen := (live_perm_of_cell hcset).length_eq
    rw [length_live_set hq] at hlen
    rw [hlen, List.length_cons]
  · refine h.takeOut hc hroot hleaf hdel hsame hchain ?_ ?_
    · intro i n n' hip hn hn'
      by_cases hic : i = c
      · subst hic
        rw [hdel] at hn'
        simp at hn'
      rw [hcell i hic] at hn'
      by_cases hiq : i = q
      · subst hiq
        rw [if_pos rfl] at hn'
        rw [← Option.some.inj hn', hfirst hip, Option.some.inj (hq.symm.trans hn)]
      · rw [if_neg hiq, hn] at hn'
        rw [Option.some.inj hn']
    · intro i hi
      have hic : i ≠ c := by
        rintro rfl
        obtain ⟨⟨r, hr⟩, -⟩ := h.path_step hc hroot
        exact hi ((h.mem_kids hr).mpr ⟨e, hc, hroot, rfl⟩)
      rw [sibling, hcell i hic]
      by_cases hiq : i = q
      · subst hiq
        rw [if_pos rfl, sibling_of_cell hq]
        exact hnext hi
      · rw [if_neg hiq, sibling]
  · by_cases hic : i = c
    · subst hic
      simp [hdel]
    · rw [hcell i hic]
      by_cases hiq : i = q
      · subst hiq
        simp [hic, hq]
      · simp [hic, hiq]

/-- `unlinkChild` prepares a childless node for being cleared. -/
theorem unlinkChild_spec (h : Shape ix.nodes path kids) {c : ℕ} {e : Node}
    (hc : ix.node c = some e) (hroot : c ≠ rootNode) (hleaf : kids c = []) :
    ∃ nodes, ix.unlinkChild e.parent c = .ok { ix with nodes } ∧
      TakenOut ix.nodes (nodes.set c none) path kids c e.parent := by
  obtain ⟨⟨pn, hp⟩, hstep⟩ := h.path_step hc hroot
  have hpc : e.parent ≠ c := by
    intro he
    rw [he] at hstep
    simpa using congrArg List.length hstep
  have hmem : c ∈ kids e.parent := (h.mem_kids hp).mpr ⟨e, hc, hroot, rfl⟩
  have hnd := h.nodup hp
  have hchain := h.chain hp
  obtain ⟨l, l', hkids⟩ := List.append_of_mem hmem
  rcases List.eq_nil_or_concat l with rfl | ⟨l, q, rfl⟩
  · -- the first child: the parent's reference moves on
    rw [List.nil_append] at hkids
    rw [hkids] at hchain hnd
    obtain ⟨hfirst, hrest⟩ := hchain
    rw [sibling_of_cell hc] at hrest
    refine ⟨ix.nodes.set e.parent (some { pn with firstChild := e.nextSibling }), ?_, ?_⟩
    · rw [unlinkChild, hc, show ix.node e.parent = some pn from hp]
      simp only [orErr, ok_bind, if_pos hfirst]
      rfl
    · refine takenOut_of_set (a := pn) h hc hroot hleaf hpc hp rfl (fun hne => absurd rfl hne)
        (fun _ => rfl) fun n hn => ?_
      rw [cell_set_of_ne hpc, cell_set_self (lt_length_of_cell hp)] at hn
      obtain rfl := Option.some.inj hn
      rw [hkids, List.erase_cons_head]
      refine hrest.congr fun i hi => ?_
      have hic : i ≠ c := by
        rintro rfl
        exact (List.nodup_cons.mp hnd).1 hi
      rw [sibling, cell_set_of_ne hic]
      by_cases hip : i = e.parent
      · subst hip
        rw [cell_set_self (lt_length_of_cell hp), sibling_of_cell hp]
        rfl
      · rw [cell_set_of_ne hip, sibling]
  · -- a later child: the reference of the sibling before it moves on
    rw [List.concat_eq_append, List.append_assoc, List.singleton_append] at hkids
    rw [hkids] at hchain hnd
    have hocc : ∀ i ∈ kids e.parent, ∃ n, ix.node i = some n := fun i hi =>
      (h.exists_of_mem_kids hp hi).imp fun _ hm => hm.1
    obtain ⟨qn, hq⟩ := hocc q (by simp [hkids])
    have hqc : q ≠ c := by
      intro hqc
      simp [hqc, List.nodup_append] at hnd
    have hfirst : pn.firstChild ≠ some c := by
      intro hf
      rw [hf] at hchain
      cases l with
      | nil => exact hqc (Option.some.inj hchain.1).symm
      | cons k l =>
        have hck : c = k := Option.some.inj hchain.1
        simp [hck] at hnd
    have hlen := h.length_kids_le hp
    refine ⟨ix.nodes.set q (some { qn with nextSibling := e.nextSibling }), ?_, ?_⟩
    · rw [unlinkChild, hc, show ix.node e.parent = some pn from hp]
      simp only [orErr, ok_bind, if_neg hfirst]
      refine unlinkAfter_eq hchain hnd (fun i hi => hocc i (by simp [hkids, hi])) hq ?_
      rw [hkids, List.length_append, List.length_cons] at hlen
      omega
    · refine takenOut_of_set (a := qn) h hc hroot hleaf hqc hq rfl (fun _ => rfl)
        (fun hnot => absurd (by simp [hkids]) hnot) fun n hn => ?_
      have hnfirst : n.firstChild = pn.firstChild := by
        rw [cell_set_of_ne hpc] at hn
        by_cases hpq : e.parent = q
        · rw [hpq, cell_set_self (lt_length_of_cell hq)] at hn
          rw [hpq] at hp
          rw [← Option.some.inj hn, ← Option.some.inj (hq.symm.trans hp)]
        · rw [cell_set_of_ne hpq, hp] at hn
          rw [Option.some.inj hn]
      have herase : (kids e.parent).erase c = l ++ q :: l' := by
        have hcl : c ∉ l := by
          intro hcl
          rw [List.nodup_append] at hnd
          exact hnd.2.2 c hcl c (by simp) rfl
        rw [hkids, List.erase_append_right _ hcl, List.erase_cons_tail (by simpa using hqc),
          List.erase_cons_head]
      rw [hnfirst, herase]
      refine hchain.unlink hnd ?_ fun i hiq hic => ?_
      · rw [sibling_of_cell hc, sibling, cell_set_of_ne hqc,
          cell_set_self (lt_length_of_cell hq)]
        rfl
      · rw [sibling, cell_set_of_ne hic, cell_set_of_ne hiq, sibling]

end Index

end RadixPrefix

end Ferric
