import Ferric.Lib.PathTree
import Ferric.RadixPrefix.Model

/-!
# The shape of the trie

What the node array has to look like for the index to be a trie. The invariant mentions two things
that the array does not store: the tokens that spell each node, and the children of each node as a
list. `Shape` ties them to the links: parents and tokens are a `PathTree`, depths are path lengths,
and the chain that starts at `firstChild` visits exactly the children.

The reading functions of the index are then what they look like: `findChild` looks a path up,
`nodeIsAncestor` compares paths, and no loop runs out of fuel.
-/

namespace Ferric

namespace RadixPrefix

open Spec

/-- Parent and token of a node, as the links of a tree. -/
def upLink (nodes : List (Option Node)) (i : ℕ) : Option (ℕ × Token) :=
  (cell nodes i).map fun n => (n.parent, n.token)

/-- The sibling after a node. -/
def sibling (nodes : List (Option Node)) (i : ℕ) : Option ℕ := (cell nodes i).bind (·.nextSibling)

/-- The node array is the trie in which `path i` spells node `i` and `kids i` are its children. -/
structure Shape (nodes : List (Option Node)) (path : ℕ → List Token) (kids : ℕ → List ℕ) :
    Prop where
  tree : PathTree rootNode (upLink nodes) path
  depth : ∀ {i n}, cell nodes i = some n → n.depth = (path i).length
  chain : ∀ {i n}, cell nodes i = some n → Chain (sibling nodes) n.firstChild (kids i)
  nodup : ∀ {i n}, cell nodes i = some n → (kids i).Nodup
  mem_kids : ∀ {i n j}, cell nodes i = some n →
    (j ∈ kids i ↔ ∃ m, cell nodes j = some m ∧ j ≠ rootNode ∧ m.parent = i)

variable {nodes : List (Option Node)} {path : ℕ → List Token} {kids : ℕ → List ℕ}
  {i j : ℕ} {n m : Node} {t : Token} {w : List Token}

theorem upLink_of_cell (h : cell nodes i = some n) : upLink nodes i = some (n.parent, n.token) := by
  rw [upLink, h]
  rfl

theorem upLink_isSome : (upLink nodes i).isSome ↔ ∃ n, cell nodes i = some n := by
  rw [upLink, Option.isSome_map, Option.isSome_iff_exists]

theorem upLink_eq_some {p : ℕ} :
    upLink nodes i = some (p, t) ↔ ∃ n, cell nodes i = some n ∧ n.parent = p ∧ n.token = t := by
  simp [upLink]

theorem sibling_of_cell (h : cell nodes i = some n) : sibling nodes i = n.nextSibling := by
  rw [sibling, h]
  rfl

namespace Shape

theorem root (h : Shape nodes path kids) : ∃ n, cell nodes rootNode = some n :=
  upLink_isSome.mp h.tree.root_isSome

/-- Below the root, a path is the parent's path and the node's token. -/
theorem path_step (h : Shape nodes path kids) (hi : cell nodes i = some n) (hne : i ≠ rootNode) :
    (∃ p, cell nodes n.parent = some p) ∧ path i = path n.parent ++ [n.token] := by
  obtain ⟨hp, hpath⟩ := h.tree.step (upLink_of_cell hi) hne
  exact ⟨upLink_isSome.mp hp, hpath⟩

theorem path_inj (h : Shape nodes path kids) (hi : cell nodes i = some n)
    (hj : cell nodes j = some m) (hp : path i = path j) : i = j :=
  h.tree.inj (upLink_isSome.mpr ⟨n, hi⟩) (upLink_isSome.mpr ⟨m, hj⟩) hp

theorem path_eq_nil_iff (h : Shape nodes path kids) (hi : cell nodes i = some n) :
    path i = [] ↔ i = rootNode :=
  h.tree.path_eq_nil_iff (upLink_isSome.mpr ⟨n, hi⟩)

theorem exists_of_isPrefix (h : Shape nodes path kids) (hi : cell nodes i = some n)
    (hw : w <+: path i) : ∃ j m, cell nodes j = some m ∧ path j = w := by
  obtain ⟨j, hj, hpath⟩ := h.tree.exists_of_isPrefix (upLink_isSome.mpr ⟨n, hi⟩) hw
  obtain ⟨m, hm⟩ := upLink_isSome.mp hj
  exact ⟨j, m, hm, hpath⟩

/-- Paths are shorter than the array. -/
theorem length_lt (h : Shape nodes path kids) (hi : cell nodes i = some n) :
    (path i).length < nodes.length := by
  refine h.tree.length_lt (fun j hj => ?_) (upLink_isSome.mpr ⟨n, hi⟩)
  obtain ⟨m, hm⟩ := upLink_isSome.mp hj
  exact lt_length_of_cell hm

/-- The child along a token is the node whose path is one token longer. -/
theorem kid_iff_path (h : Shape nodes path kids) (hi : cell nodes i = some n)
    (hj : cell nodes j = some m) : j ∈ kids i ∧ m.token = t ↔ path j = path i ++ [t] := by
  constructor
  · rintro ⟨hkid, rfl⟩
    obtain ⟨m', hm', hne, rfl⟩ := (h.mem_kids hi).mp hkid
    obtain rfl := Option.some.inj (hm'.symm.trans hj)
    exact (h.path_step hj hne).2
  · intro hpath
    have hne : j ≠ rootNode := by
      rintro rfl
      rw [(h.path_eq_nil_iff hj).mpr rfl] at hpath
      simp at hpath
    obtain ⟨⟨p, hp⟩, hstep⟩ := h.path_step hj hne
    rw [hpath] at hstep
    obtain ⟨hparent, htoken⟩ := List.append_inj' hstep rfl
    exact ⟨(h.mem_kids hi).mpr ⟨m, hj, hne, h.path_inj hp hi hparent.symm⟩,
      (List.singleton_inj.mp htoken).symm⟩

theorem exists_of_mem_kids (h : Shape nodes path kids) (hi : cell nodes i = some n)
    (hj : j ∈ kids i) : ∃ m, cell nodes j = some m ∧ j ≠ rootNode ∧ m.parent = i :=
  (h.mem_kids hi).mp hj

theorem length_kids_le (h : Shape nodes path kids) (hi : cell nodes i = some n) :
    (kids i).length ≤ nodes.length := by
  refine length_le_of_nodup_of_lt (h.nodup hi) fun j hj => ?_
  obtain ⟨m, hm, -⟩ := h.exists_of_mem_kids hi hj
  exact lt_length_of_cell hm

/-- Below every node there is one without children. -/
theorem exists_leaf (h : Shape nodes path kids) (hi : cell nodes i = some n) :
    ∃ j m, cell nodes j = some m ∧ path i <+: path j ∧ kids j = [] := by
  obtain ⟨j, hj, hpre, hleaf⟩ := h.tree.exists_leaf (n := nodes.length) (fun k hk => by
    obtain ⟨m, hm⟩ := upLink_isSome.mp hk
    exact h.length_lt hm) (upLink_isSome.mpr ⟨n, hi⟩)
  obtain ⟨m, hm⟩ := upLink_isSome.mp hj
  refine ⟨j, m, hm, hpre, List.eq_nil_iff_forall_not_mem.mpr fun k hk => ?_⟩
  obtain ⟨c, hc, hne, hparent⟩ := h.exists_of_mem_kids hm hk
  exact hne (hleaf k c.token (upLink_eq_some.mpr ⟨c, hc, hparent, rfl⟩))

/-- A node has children exactly when it has a first one. -/
theorem kids_eq_nil_iff (h : Shape nodes path kids) (hi : cell nodes i = some n) :
    kids i = [] ↔ n.firstChild = none :=
  (h.chain hi).eq_nil_iff

end Shape

/-! ### Reading the trie -/

namespace Index

variable {ix : Index}

/-- Along a chain, `findSibling` finds the first node with the token. -/
theorem findSibling_eq {start : Option ℕ} {l : List ℕ} {fuel : ℕ}
    (h : Chain (sibling ix.nodes) start l) (hl : ∀ i ∈ l, ∃ n, ix.node i = some n)
    (hf : l.length ≤ fuel) :
    ix.findSibling t fuel start =
      .ok (l.find? fun i => (ix.node i).any (·.token = t)) := by
  induction l generalizing start fuel with
  | nil =>
    obtain rfl : start = none := h
    cases fuel <;> rfl
  | cons i l ih =>
    obtain ⟨rfl, hrest⟩ := h
    obtain ⟨n, hn⟩ := hl i List.mem_cons_self
    obtain ⟨fuel, rfl⟩ : ∃ k, fuel = k + 1 := ⟨fuel - 1, by simp at hf; omega⟩
    rw [sibling_of_cell hn] at hrest
    simp only [findSibling, hn]
    by_cases ht : n.token = t
    · simp [ht, hn]
    · rw [if_neg ht, ih hrest (fun j hj => hl j (.tail _ hj)) (by simpa using hf),
        List.find?_cons_of_neg (by simpa [hn] using ht)]

/-- `findChild` looks up the path that is one token longer. -/
theorem findChild_spec (h : Shape ix.nodes path kids) (hi : ix.node i = some n) (t : Token) :
    ∃ r, ix.findChild i t = .ok r ∧
      ∀ c, r = some c ↔ ∃ m, ix.node c = some m ∧ path c = path i ++ [t] := by
  have hocc : ∀ j ∈ kids i, ∃ m, ix.node j = some m := fun j hj =>
    (h.exists_of_mem_kids hi hj).imp fun _ hm => hm.1
  refine ⟨(kids i).find? fun j => (ix.node j).any (·.token = t), ?_, fun c => ?_⟩
  · rw [findChild, hi]
    exact findSibling_eq (h.chain hi) hocc (h.length_kids_le hi)
  · constructor
    · intro hfind
      obtain ⟨m, hm⟩ := hocc c (List.mem_of_find?_eq_some hfind)
      have ht : m.token = t := by simpa [hm] using List.find?_some hfind
      exact ⟨m, hm, (h.kid_iff_path hi hm).mp ⟨List.mem_of_find?_eq_some hfind, ht⟩⟩
    · rintro ⟨m, hm, hpath⟩
      obtain ⟨hkid, ht⟩ := (h.kid_iff_path hi hm).mpr hpath
      -- some child has the token; it is `c` because paths are injective
      have hsome : ((kids i).find? fun j => (ix.node j).any (·.token = t)).isSome := by
        rw [List.find?_isSome]
        exact ⟨c, hkid, by simpa [hm] using ht⟩
      obtain ⟨c', hc'⟩ := Option.isSome_iff_exists.mp hsome
      obtain ⟨m', hm'⟩ := hocc c' (List.mem_of_find?_eq_some hc')
      have ht' : m'.token = t := by simpa [hm'] using List.find?_some hc'
      have hpath' := (h.kid_iff_path hi hm').mp ⟨List.mem_of_find?_eq_some hc', ht'⟩
      rw [hc', h.path_inj hm' hm (hpath'.trans hpath.symm)]

/-- The walk stops at the longest prefix of the tokens that the trie spells. -/
theorem existingPrefixFrom_ensures (h : Shape ix.nodes path kids) (hfits : ix.nodes.length < 2 ^ 64)
    {done tokens : List Token} (hi : ix.node i = some n) (hpath : path i = done) :
    Ensures (ix.existingPrefixFrom tokens i done.length) (fun _ => False) fun r =>
      ∃ m rest, ix.node r.1 = some m ∧ path r.1 ++ rest = done ++ tokens ∧
        r.2 = (path r.1).length ∧
        ∀ t, rest.head? = some t → ∀ j m, ix.node j = some m → path j ≠ path r.1 ++ [t] := by
  induction tokens generalizing i n done with
  | nil => exact ⟨n, [], hi, by simp [hpath], by simp [hpath], by simp⟩
  | cons t tokens ih =>
    obtain ⟨r, hr, hspec⟩ := findChild_spec h hi t
    rw [existingPrefixFrom, hr, ok_bind]
    cases r with
    | none =>
      refine ensures_pure.mpr ⟨n, t :: tokens, hi, by rw [hpath], by rw [hpath], ?_⟩
      intro t' ht j m hj hp
      obtain rfl : t = t' := by simpa using ht
      exact absurd ((hspec j).mpr ⟨m, hj, hp⟩) (by simp)
    | some c =>
      obtain ⟨m, hc, hcpath⟩ := (hspec c).mp rfl
      rw [hpath] at hcpath
      have hlen := h.length_lt hc
      rw [hcpath, List.length_append, List.length_singleton] at hlen
      have hadd : checkedAdd 64 done.length 1 = some (done.length + 1) :=
        checkedAdd_eq_some.mpr ⟨by omega, rfl⟩
      simp only [hadd, orErr, ok_bind]
      have := ih hc hcpath
      rw [List.length_append, List.length_singleton] at this
      simpa using this

theorem existingPrefix_ensures (h : Shape ix.nodes path kids) (hfits : ix.nodes.length < 2 ^ 64)
    {tokens : List Token} :
    Ensures (ix.existingPrefix tokens) (fun _ => False) fun r =>
      ∃ m rest, ix.node r.1 = some m ∧ path r.1 ++ rest = tokens ∧ r.2 = (path r.1).length ∧
        ∀ t, rest.head? = some t → ∀ j m, ix.node j = some m → path j ≠ path r.1 ++ [t] := by
  obtain ⟨n, hn⟩ := h.root
  exact existingPrefixFrom_ensures h hfits hn h.tree.path_root

/-- From a node as deep as the list is long, the climb compares the path with the list. -/
theorem climbsToRoot_iff (h : Shape ix.nodes path kids) {ts : List Token}
    (hi : ix.node i = some n) (hlen : (path i).length = ts.length) :
    ix.climbsToRoot ts i ↔ path i = ts.reverse := by
  induction ts generalizing i n with
  | nil => simpa [climbsToRoot] using (h.path_eq_nil_iff hi).symm
  | cons t ts ih =>
    have hne : i ≠ rootNode := by
      rintro rfl
      simp [(h.path_eq_nil_iff hi).mpr rfl] at hlen
    obtain ⟨⟨p, hp⟩, hstep⟩ := h.path_step hi hne
    simp only [climbsToRoot, hi]
    rw [hstep] at hlen ⊢
    by_cases ht : n.token = t
    · rw [if_neg (not_not.mpr ht), ih hp (by simpa using hlen), ht]
      simp
    · rw [if_pos ht]
      refine iff_of_false (by simp) fun heq => ht ?_
      rw [List.reverse_cons] at heq
      simpa using (List.append_inj' heq rfl).2

/-- A record's tokens are the path of its endpoint. -/
theorem sourceTokensEqual_iff (h : Shape ix.nodes path kids) {source : Source} {ts : List Token}
    (hi : ix.node source.endpoint = some n)
    (hlen : (path source.endpoint).length = source.tokenCount) :
    ix.sourceTokensEqual source ts ↔ path source.endpoint = ts := by
  rw [sourceTokensEqual]
  by_cases hcount : source.tokenCount = ts.length
  · rw [if_neg (not_not.mpr hcount),
      climbsToRoot_iff h hi (by rw [hlen, hcount, List.length_reverse]), List.reverse_reverse]
  · rw [if_pos hcount]
    refine iff_of_false (by simp) ?_
    rintro rfl
    exact hcount hlen.symm

/-- The climb reaches `a` exactly from the nodes whose path `a`'s path is a prefix of. -/
theorem climbsTo_eq (h : Shape ix.nodes path kids) {a : ℕ} (ha : ix.node a = some m)
    (hi : ix.node i = some n) {fuel : ℕ} (hf : (path i).length < fuel) :
    ix.climbsTo a m.depth fuel i = .ok (decide (path a <+: path i)) := by
  induction fuel generalizing i n with
  | zero => simp at hf
  | succ fuel ih =>
    simp only [climbsTo, hi, h.depth hi, h.depth ha]
    by_cases hdepth : (path i).length < (path a).length
    · rw [if_pos hdepth, decide_eq_false fun hpre => absurd hpre.length_le (by omega)]
    rw [if_neg hdepth]
    by_cases hia : i = a
    · subst hia
      simp
    rw [if_neg hia]
    -- `a` is not the root, or the climb would have started at it
    have hne : i ≠ rootNode := by
      rintro rfl
      rw [(h.path_eq_nil_iff hi).mpr rfl] at hdepth
      have hnil : path a = [] := List.eq_nil_of_length_eq_zero (by simpa using hdepth)
      exact hia ((h.path_eq_nil_iff ha).mp hnil).symm
    obtain ⟨⟨p, hp⟩, hstep⟩ := h.path_step hi hne
    have hlen : (path i).length = (path n.parent).length + 1 := by simp [hstep]
    rw [← h.depth ha, ih hp (by omega)]
    congr 1
    refine decide_eq_decide.mpr ⟨fun hpre => hpre.trans ?_, fun hpre => ?_⟩
    · rw [hstep]
      exact List.prefix_append _ _
    · rw [hstep] at hpre
      refine (List.prefix_concat_iff.mp hpre).resolve_left fun heq => hia ?_
      exact h.path_inj hi ha (hstep.trans heq.symm)

theorem nodeIsAncestor_eq (h : Shape ix.nodes path kids) {a : ℕ} (ha : ix.node a = some m)
    (hi : ix.node i = some n) :
    ix.nodeIsAncestor a i = .ok (decide (path a <+: path i)) := by
  rw [nodeIsAncestor, ha]
  exact climbsTo_eq h ha hi (h.length_lt hi)

end Index

end RadixPrefix

end Ferric
