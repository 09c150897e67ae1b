import Mathlib.Algebra.BigOperators.Group.Finset.Basic
import Mathlib.Algebra.BigOperators.Ring.Finset
import Mathlib.Tactic.Common

/-!
# Equal tiles, and products over them

An interval of `c * n` indices is cut into `n` tiles of `c`; tile `r` starts at `c * r`. A list over
the interval is the concatenation of its tiles, and a sum over it the sum of the sums over them. For
a matrix this is the two ways of splitting a product: cutting the rows cuts the result, and cutting
the columns makes the result a sum.

## Main results

* `existsUnique_tile` — every index lies in one tile
* `flatMap_tiles`, `sum_tiles` — lists and sums by tiles
* `product_tiles` — a product is the sum of the products with column tiles
-/

namespace Ferric

namespace Tiling

variable {α A : Type*} {c n : ℕ}

theorem tile_eq_div {i r : ℕ} (hlo : c * r ≤ i) (hhi : i < c * r + c) : r = i / c := by
  have hpos : 0 < c := by omega
  exact ((Nat.div_eq_iff hpos).mpr ⟨by rw [Nat.mul_comm]; exact hlo, by
    rw [Nat.mul_comm]
    omega⟩).symm

/-- Every index lies in one tile. -/
theorem existsUnique_tile {i : ℕ} (hi : i < c * n) :
    ∃! r, r < n ∧ c * r ≤ i ∧ i < c * r + c := by
  have hpos : 0 < c := Nat.pos_of_ne_zero fun h => by simp [h] at hi
  refine ⟨i / c, ⟨Nat.div_lt_of_lt_mul hi, Nat.mul_div_le i c, ?_⟩, ?_⟩
  · have := Nat.lt_mul_div_succ i hpos
    rwa [Nat.mul_succ] at this
  · rintro r ⟨-, hlo, hhi⟩
    exact tile_eq_div hlo hhi

/-- A list by tiles. -/
theorem flatMap_tiles (f : ℕ → α) :
    ((List.range n).flatMap fun r => (List.range c).map fun k => f (c * r + k)) =
      (List.range (c * n)).map f := by
  induction n with
  | zero => rfl
  | succ n ih =>
    rw [List.range_succ, List.flatMap_append, ih, Nat.mul_succ, List.range_add, List.map_append,
      List.flatMap_singleton, List.map_map]
    rfl

/-- A sum by tiles. -/
theorem sum_tiles [AddCommMonoid A] (f : ℕ → A) :
    ∑ r ∈ Finset.range n, ∑ k ∈ Finset.range c, f (c * r + k) =
      ∑ i ∈ Finset.range (c * n), f i := by
  induction n with
  | zero => rfl
  | succ n ih => rw [Finset.sum_range_succ, ih, Nat.mul_succ, Finset.sum_range_add]

/-- A row of a matrix times a vector. -/
def product [CommRing A] (columns : ℕ) (row x : ℕ → A) : A :=
  ∑ j ∈ Finset.range columns, row j * x j

theorem product_congr [CommRing A] {columns : ℕ} {row row' x x' : ℕ → A}
    (hrow : ∀ j < columns, row j = row' j) (hx : ∀ j < columns, x j = x' j) :
    product columns row x = product columns row' x' := by
  refine Finset.sum_congr rfl fun j hj => ?_
  rw [hrow j (Finset.mem_range.mp hj), hx j (Finset.mem_range.mp hj)]

/-- **A product is the sum of the products with the column tiles.** -/
theorem product_tiles [CommRing A] (row x : ℕ → A) :
    ∑ r ∈ Finset.range n, product c (fun k => row (c * r + k)) (fun k => x (c * r + k)) =
      product (c * n) row x :=
  sum_tiles fun j => row j * x j

end Tiling

end Ferric
