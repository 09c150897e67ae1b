import Ferric.RadixPrefix.Register

/-!
# The registry

What the index is for: a list of registrations, oldest first, and a lookup that finds the longest
whole number of pages on which a query agrees with a registration. The index stores neither the
list nor the tokens of a registration; `Index.registrations` reads both back, ordering the records
by ticket and climbing from each endpoint to the root.

## Main definitions

* `Registration`, `Registry` — the abstract state and its three operations
* `Agrees`, `IsLongestMatch` — what a lookup finds
* `Index.registrations` — the list that an index holds
-/

namespace Ferric

namespace RadixPrefix

open Spec

/-- A request and the tokens it was registered with. -/
structure Registration where
  request : RequestId
  tokens : List Token
  deriving DecidableEq

/-- The registrations, oldest first. -/
abbrev Registry := List Registration

namespace Registry

/-- Registering replaces what has the same request slot or the same tokens. -/
def register (L : Registry) (source : RequestId) (tokens : List Token) : Registry :=
  L.filter (fun e => e.request.slot ≠ source.slot ∧ e.tokens ≠ tokens) ++ [⟨source, tokens⟩]

/-- Remove the registration of exactly this request. -/
def invalidate (L : Registry) (source : RequestId) : Registry := L.filter (·.request ≠ source)

end Registry

/-- The registration and the query have the same first `d` tokens. -/
def Agrees (e : Registration) (query : List Token) (d : ℕ) : Prop :=
  d ≤ e.tokens.length ∧ d ≤ query.length ∧ e.tokens.take d = query.take d

theorem agrees_iff_isPrefix {e : Registration} {query : List Token} {d : ℕ}
    (hd : d ≤ query.length) : Agrees e query d ↔ query.take d <+: e.tokens := by
  rw [List.prefix_iff_eq_take, List.length_take, min_eq_left hd, Agrees]
  constructor
  · exact fun h => h.2.2.symm
  · intro h
    refine ⟨?_, hd, h.symm⟩
    have := congrArg List.length h
    rw [List.length_take, List.length_take, min_eq_left hd] at this
    omega

/-- Agreeing is inherited by shorter lengths. -/
theorem Agrees.mono {e : Registration} {query : List Token} {c d : ℕ} (h : Agrees e query d)
    (hcd : c ≤ d) : Agrees e query c := by
  obtain ⟨he, hq, heq⟩ := h
  refine ⟨hcd.trans he, hcd.trans hq, ?_⟩
  rw [← min_eq_left hcd, ← List.take_take, heq, List.take_take]

/-- The longest agreement on whole pages of `p` tokens with any registration, and the least request
among the registrations that reach it. -/
structure IsLongestMatch (L : Registry) (query : List Token) (p : ℕ) (m : Match) : Prop where
  positive : 0 < m.tokenCount
  aligned : p ∣ m.tokenCount
  source_mem : ∃ e ∈ L, e.request = m.source ∧ Agrees e query m.tokenCount
  longest : ∀ d, p ∣ d → (∃ e ∈ L, Agrees e query d) → d ≤ m.tokenCount
  least : ∀ e ∈ L, Agrees e query m.tokenCount → m.source ≤ e.request

/-! ### Reading the registry back -/

/-- The tokens from the root to a node. -/
def climb (nodes : List (Option Node)) : ℕ → ℕ → List Token
  | 0, _ => []
  | fuel + 1, i =>
    if i = rootNode then []
    else
      match cell nodes i with
      | none => []
      | some n => climb nodes fuel n.parent ++ [n.token]

namespace Index

/-- The tokens that spell a node. -/
def pathTo (ix : Index) (i : ℕ) : List Token := climb ix.nodes ix.nodes.length i

/-- The registrations that the index holds, by ticket. -/
def registrations (ix : Index) : Registry :=
  ((live ix.sources).mergeSort fun a b => a.ticket ≤ b.ticket).map fun s =>
    ⟨s.request, ix.pathTo s.endpoint⟩

end Index

variable {nodes : List (Option Node)} {path : ℕ → List Token} {kids : ℕ → List ℕ}
  {S : List Source} {ix : Index} {i : ℕ} {n : Node}

theorem Shape.climb_eq (h : Shape nodes path kids) (hi : cell nodes i = some n) {fuel : ℕ}
    (hf : (path i).length ≤ fuel) : climb nodes fuel i = path i := by
  induction fuel generalizing i n with
  | zero => exact (List.eq_nil_of_length_eq_zero (by omega)).symm
  | succ fuel ih =>
    by_cases hroot : i = rootNode
    · rw [climb, if_pos hroot, (h.path_eq_nil_iff hi).mpr hroot]
    · obtain ⟨⟨p, hp⟩, hstep⟩ := h.path_step hi hroot
      rw [hstep, List.length_append, List.length_singleton] at hf
      rw [climb, if_neg hroot, hi]
      simp only
      rw [ih hp (by omega), hstep]

/-- The registration of a record. -/
def registration (path : ℕ → List Token) (s : Source) : Registration :=
  ⟨s.request, path s.endpoint⟩

namespace Inv

theorem pathTo_eq (h : Inv ix path kids S []) (hi : ix.node i = some n) : ix.pathTo i = path i :=
  h.shape.climb_eq hi (h.shape.length_lt hi).le

/-- The tickets order the records, so sorting by ticket finds their order. -/
theorem registrations_eq (h : Inv ix path kids S []) :
    ix.registrations = S.map (registration path) := by
  have hsort : (live ix.sources).mergeSort (fun a b => a.ticket ≤ b.ticket) = S := by
    refine List.Perm.eq_of_pairwise ?_ ?_
      (h.records.ordered.imp fun hlt => hlt.le) ((List.mergeSort_perm _ _).trans h.live_perm)
    · intro a b ha hb hab hba
      have ha : a ∈ S := h.live_perm.mem_iff.mp ((List.mergeSort_perm _ _).mem_iff.mp ha)
      have hne : S.Pairwise fun a b => a.ticket ≠ b.ticket :=
        h.records.ordered.imp fun hlt => hlt.ne
      exact eq_of_pairwise_ne hne ha hb (le_antisymm hab hba)
    · refine (List.pairwise_mergeSort (fun a b c hab hbc => ?_) (fun a b => ?_)
        (live ix.sources)).imp fun hab => of_decide_eq_true hab
      · exact decide_eq_true (le_trans (of_decide_eq_true hab) (of_decide_eq_true hbc))
      · simpa using le_total a.ticket b.ticket
  rw [Index.registrations, hsort]
  refine List.map_congr_left fun s hs => ?_
  obtain ⟨m, hm⟩ := h.records.endpoint s hs
  rw [registration, h.pathTo_eq hm]

end Inv

end RadixPrefix

end Ferric
