import Mathlib.Data.List.Infix
import Mathlib.Data.List.MinMax
import Mathlib.Tactic.Common

/-!
# Merging adjacent pairs

A table of rules merges two adjacent symbols into one, each rule with a rank. One may merge the
leftmost pair of lowest rank, and look again, or rewrite all pairs of this rank from left to right
in one pass. Both lead to the same symbols if a rule comes after the rules that make its operands:
then a merge creates no pair of its own rank or a lower one, and in a run such as `aaa` the pass
consumes the pairs that the single merges consume.

## Main definitions

* `Merge`, `pairs`, `candidates`, `lowest` — a rule with its operands, where rules apply, and the
  rule to apply first
* `Merge.first`, `Merge.all` — merging one pair, and all of them from left to right
* `mergeLoop`, `leftmostMerges` — one merge at a time
* `Trained` — every rule comes after the rules that make its operands

## Main results

* `leftmostMerges_all` — a pass leads where the single merges lead
* `leftmostMerges_eq_self` — at the end no rule applies
-/

namespace Ferric

namespace PairMerging

/-- A rule with its operands. -/
@[ext] structure Merge (α : Type*) where
  left : α
  right : α
  rank : ℕ
  result : α
  deriving DecidableEq

variable {α : Type*} {rules : α → α → Option (ℕ × α)} {m m' : Merge α} {l : List α} {a b x y : α}

/-! ### Where rules apply -/

/-- The adjacent pairs. -/
def pairs : List α → List (α × α)
  | x :: y :: l => (x, y) :: pairs (y :: l)
  | _ => []

@[simp] theorem pairs_nil : pairs ([] : List α) = [] := rfl

@[simp] theorem pairs_singleton : pairs [x] = [] := rfl

@[simp] theorem pairs_cons_cons : pairs (x :: y :: l) = (x, y) :: pairs (y :: l) := rfl

theorem mem_pairs_cons :
    (a, b) ∈ pairs (x :: l) ↔ (a = x ∧ l.head? = some b) ∨ (a, b) ∈ pairs l := by
  cases l with
  | nil => simp
  | cons y l => simp [eq_comm]

/-- The rule for a pair. -/
def ruleAt (rules : α → α → Option (ℕ × α)) (p : α × α) : Option (Merge α) :=
  (rules p.1 p.2).map fun rule => ⟨p.1, p.2, rule.1, rule.2⟩

theorem ruleAt_eq_some {p : α × α} : ruleAt rules p = some m ↔
    p = (m.left, m.right) ∧ rules m.left m.right = some (m.rank, m.result) := by
  obtain ⟨a, b⟩ := p
  obtain ⟨left, right, rank, result⟩ := m
  simp only [ruleAt, Option.map_eq_some_iff, Merge.mk.injEq, Prod.exists, Prod.mk.injEq]
  constructor
  · rintro ⟨k, c, h, rfl, rfl, rfl, rfl⟩
    exact ⟨⟨rfl, rfl⟩, h⟩
  · rintro ⟨⟨rfl, rfl⟩, h⟩
    exact ⟨rank, result, h, rfl, rfl, rfl, rfl⟩

/-- The rules that apply somewhere. -/
def candidates (rules : α → α → Option (ℕ × α)) (l : List α) : List (Merge α) :=
  (pairs l).filterMap (ruleAt rules)

theorem mem_candidates : m ∈ candidates rules l ↔
    (m.left, m.right) ∈ pairs l ∧ rules m.left m.right = some (m.rank, m.result) := by
  rw [candidates, List.mem_filterMap]
  constructor
  · rintro ⟨p, hp, hat⟩
    obtain ⟨rfl, hrule⟩ := ruleAt_eq_some.mp hat
    exact ⟨hp, hrule⟩
  · rintro ⟨hp, hrule⟩
    exact ⟨_, hp, ruleAt_eq_some.mpr ⟨rfl, hrule⟩⟩

/-- The rule to apply first: one of lowest rank. -/
def lowest (rules : α → α → Option (ℕ × α)) (l : List α) : Option (Merge α) :=
  (candidates rules l).argmin Merge.rank

theorem lowest_mem (h : lowest rules l = some m) :
    (m.left, m.right) ∈ pairs l ∧ rules m.left m.right = some (m.rank, m.result) :=
  mem_candidates.mp (List.argmin_mem h)

/-- A rule comes after every rule that makes one of its operands, and ranks are distinct. -/
structure Trained (rules : α → α → Option (ℕ × α)) : Prop where
  later : ∀ a b k c, rules a b = some (k, c) → ∀ a' b' k' c', rules a' b' = some (k', c') →
    c = a' ∨ c = b' → k < k'
  distinct : ∀ a b k c a' b' c', rules a b = some (k, c) → rules a' b' = some (k, c') →
    a = a' ∧ b = b'

/-- Under distinct ranks there is only one rule to apply first. -/
theorem Trained.lowest_eq_some (h : Trained rules) (hmem : m ∈ candidates rules l)
    (hle : ∀ m' ∈ candidates rules l, m.rank ≤ m'.rank) : lowest rules l = some m := by
  cases hlow : lowest rules l with
  | none =>
    rw [lowest, List.argmin_eq_none] at hlow
    rw [hlow] at hmem
    cases hmem
  | some m' =>
    have hmem' := List.argmin_mem hlow
    have hrank : m'.rank = m.rank :=
      Nat.le_antisymm (List.le_of_mem_argmin hmem hlow) (hle m' hmem')
    obtain ⟨-, hrule⟩ := mem_candidates.mp hmem
    obtain ⟨-, hrule'⟩ := mem_candidates.mp hmem'
    rw [hrank] at hrule'
    obtain ⟨hleft, hright⟩ := h.distinct _ _ _ _ _ _ _ hrule' hrule
    rw [hleft, hright, hrule] at hrule'
    exact congrArg some (Merge.ext hleft hright hrank
      (Prod.mk.inj (Option.some.inj hrule')).2.symm)

/-- What a rule makes is none of its operands. -/
theorem Trained.result_ne (h : Trained rules)
    (hrule : rules m.left m.right = some (m.rank, m.result)) :
    m.result ≠ m.left ∧ m.result ≠ m.right :=
  ⟨fun heq => Nat.lt_irrefl _ (h.later _ _ _ _ hrule _ _ _ _ hrule (.inl heq)),
    fun heq => Nat.lt_irrefl _ (h.later _ _ _ _ hrule _ _ _ _ hrule (.inr heq))⟩

/-! ### Merging -/

namespace Merge

variable [DecidableEq α]

/-- The leftmost pair is merged. -/
def first (m : Merge α) : List α → List α
  | x :: y :: l => if x = m.left ∧ y = m.right then m.result :: l else x :: m.first (y :: l)
  | l => l

/-- All pairs are merged, from left to right. -/
def all (m : Merge α) : List α → List α
  | x :: y :: l =>
    if x = m.left ∧ y = m.right then m.result :: m.all l else x :: m.all (y :: l)
  | l => l

variable {m : Merge α}

theorem all_cons_of_ne (h : ∀ y, l.head? = some y → ¬ (x = m.left ∧ y = m.right)) :
    m.all (x :: l) = x :: m.all l := by
  cases l with
  | nil => rfl
  | cons y l => rw [all, if_neg (h y rfl)]

theorem head?_first (m : Merge α) (y : α) (l : List α) :
    (m.first (y :: l)).head? = some y ∨ (m.first (y :: l)).head? = some m.result := by
  cases l with
  | nil => exact .inl rfl
  | cons z l =>
    rw [first]
    split
    · exact .inr rfl
    · exact .inl rfl

theorem length_first (h : (m.left, m.right) ∈ pairs l) :
    (m.first l).length + 1 = l.length := by
  induction l with
  | nil => cases h
  | cons x l ih =>
    cases l with
    | nil => cases h
    | cons y l =>
      rw [first]
      split
      · rfl
      · next hno =>
        rcases mem_pairs_cons.mp h with ⟨hx, hy⟩ | hin
        · exact absurd ⟨hx.symm, Option.some.inj hy⟩ hno
        · rw [List.length_cons, ih hin]
          rfl

/-- Where the pair does not stand, a pass changes nothing. -/
theorem all_eq_self (h : (m.left, m.right) ∉ pairs l) : m.all l = l := by
  induction l with
  | nil => rfl
  | cons x l ih =>
    obtain ⟨hhere, hlater⟩ := not_or.mp (mt mem_pairs_cons.mpr h)
    rw [all_cons_of_ne fun y hy ⟨hx, hr⟩ => hhere ⟨hx.symm, hr ▸ hy⟩, ih hlater]

theorem length_all_le : (m.all l).length ≤ l.length := by
  fun_induction m.all l with
  | case1 x y l hmatch ih =>
    rw [List.length_cons, List.length_cons, List.length_cons]
    omega
  | case2 x y l hno ih =>
    rw [List.length_cons, List.length_cons]
    omega
  | case3 l hshort => exact Nat.le_refl _

/-- **Overlaps.** A pass consumes the pairs that the single merges consume: the leftmost of them may
be merged before, because what it leaves is not an operand again. -/
theorem all_first (hleft : m.result ≠ m.left) (hright : m.result ≠ m.right) :
    m.all (m.first l) = m.all l := by
  induction l with
  | nil => rfl
  | cons x l ih =>
    cases l with
    | nil => rfl
    | cons y l =>
      rw [first, all]
      split
      · exact all_cons_of_ne fun _ _ ⟨hx, _⟩ => hleft hx
      · next hno =>
        rw [all_cons_of_ne, ih]
        rintro z hz ⟨hx, rfl⟩
        rcases head?_first m y l with hy | hy
        · exact hno ⟨hx, Option.some.inj (hy.symm.trans hz)⟩
        · exact hright (Option.some.inj (hy.symm.trans hz))

/-- A merge makes only pairs with its own result. -/
theorem mem_pairs_first (h : (a, b) ∈ pairs (m.first l)) :
    (a, b) ∈ pairs l ∨ m.result = a ∨ m.result = b := by
  induction l with
  | nil => exact .inl h
  | cons x l ih =>
    cases l with
    | nil => exact .inl h
    | cons y l =>
      rw [first] at h
      split at h
      · rcases mem_pairs_cons.mp h with ⟨ha, -⟩ | hin
        · exact .inr (.inl ha.symm)
        · exact .inl (mem_pairs_cons.mpr (.inr (mem_pairs_cons.mpr (.inr hin))))
      · rcases mem_pairs_cons.mp h with ⟨ha, hb⟩ | hin
        · rcases head?_first m y l with hy | hy
          · exact .inl (mem_pairs_cons.mpr (.inl ⟨ha, hy.symm.trans hb⟩))
          · exact .inr (.inr (Option.some.inj (hy.symm.trans hb)))
        · exact (ih hin).imp_left fun hold => mem_pairs_cons.mpr (.inr hold)

end Merge

/-! ### One merge at a time -/

variable [DecidableEq α]

/-- Merge the leftmost pair of lowest rank, as often as the fuel allows. -/
def mergeLoop (rules : α → α → Option (ℕ × α)) : ℕ → List α → List α
  | 0, l => l
  | n + 1, l =>
    match lowest rules l with
    | none => l
    | some m => mergeLoop rules n (m.first l)

/-- Merge the leftmost pair of lowest rank until no rule applies. Every merge makes the list
shorter, so its length is fuel enough. -/
def leftmostMerges (rules : α → α → Option (ℕ × α)) (l : List α) : List α :=
  mergeLoop rules l.length l

theorem leftmostMerges_of_lowest (h : lowest rules l = some m) :
    leftmostMerges rules l = leftmostMerges rules (m.first l) := by
  have hlen := Merge.length_first (lowest_mem h).1
  rw [leftmostMerges, ← hlen, mergeLoop, h]
  rfl

theorem leftmostMerges_eq_self (h : lowest rules l = none) : leftmostMerges rules l = l := by
  rw [leftmostMerges]
  cases l with
  | nil => rfl
  | cons x l => rw [List.length_cons, mergeLoop, h]

/-- At the end no rule applies. -/
theorem lowest_leftmostMerges : lowest rules (leftmostMerges rules l) = none := by
  induction hlen : l.length using Nat.strong_induction_on generalizing l with
  | _ n ih =>
    cases hlow : lowest rules l with
    | none => rw [leftmostMerges_eq_self hlow, hlow]
    | some m =>
      have hshorter := Merge.length_first (lowest_mem hlow).1
      rw [leftmostMerges_of_lowest hlow]
      exact ih _ (by omega) rfl

/-- After a merge its rule still comes first, as long as it applies. -/
theorem Trained.lowest_first (h : Trained rules) (hlow : lowest rules l = some m)
    (hin : (m.left, m.right) ∈ pairs (m.first l)) : lowest rules (m.first l) = some m := by
  obtain ⟨-, hrule⟩ := lowest_mem hlow
  refine h.lowest_eq_some (mem_candidates.mpr ⟨hin, hrule⟩) fun m' hm' => ?_
  obtain ⟨hpair, hrule'⟩ := mem_candidates.mp hm'
  rcases Merge.mem_pairs_first hpair with hold | hnew
  · exact List.le_of_mem_argmin (mem_candidates.mpr ⟨hold, hrule'⟩) hlow
  · exact Nat.le_of_lt (h.later _ _ _ _ hrule _ _ _ _ hrule' hnew)

theorem Trained.length_all (h : Trained rules) (hlow : lowest rules l = some m) :
    (m.all l).length < l.length := by
  obtain ⟨hin, hrule⟩ := lowest_mem hlow
  obtain ⟨hleft, hright⟩ := h.result_ne hrule
  have hshorter := Merge.length_first hin
  have hle : (m.all (m.first l)).length ≤ (m.first l).length := Merge.length_all_le
  rw [Merge.all_first hleft hright] at hle
  omega

/-- **Confluence.** A pass leads where the single merges lead. -/
theorem Trained.leftmostMerges_all (h : Trained rules) (hlow : lowest rules l = some m) :
    leftmostMerges rules (m.all l) = leftmostMerges rules l := by
  obtain ⟨hleft, hright⟩ := h.result_ne (lowest_mem hlow).2
  induction hlen : l.length using Nat.strong_induction_on generalizing l with
  | _ n ih =>
    have hshorter := Merge.length_first (lowest_mem hlow).1
    rw [leftmostMerges_of_lowest hlow, ← Merge.all_first hleft hright]
    by_cases hin : (m.left, m.right) ∈ pairs (m.first l)
    · exact ih _ (by omega) (h.lowest_first hlow hin) rfl
    · rw [Merge.all_eq_self hin]

end PairMerging

end Ferric
