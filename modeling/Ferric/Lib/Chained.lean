import Mathlib.Data.List.Basic
import Mathlib.Data.List.Induction
import Mathlib.Tactic.Common

/-!
# Chains

Every entry of a chain is hashed together with the hash of the entry in front of it, and written
down with it. So the hash of the last entry stands for the whole chain: chains of one length with
one last hash are equal, as far as the hash does not collide on what was hashed for them.

## Main definitions

* `last`, `flat` — the last hash of a chain, and the chain written down
* `links` — the entries, each with the hash in front of it

## Main results

* `flat_injective` — a chain is determined by what is written down of it
* `eq_of_last_eq` — a chain is determined by its length and its last hash
-/

namespace Ferric

namespace Chained

variable {α β H : Type} (hash : α → H → H) (render : α → H → List β)

/-- The hash of the last entry, or the first hash when there is none. -/
def last (start : H) (l : List α) : H := l.foldl (fun p a => hash a p) start

/-- The entries written down, each with the hash in front of it. -/
def flat : H → List α → List β
  | _, [] => []
  | start, a :: l => render a start ++ flat (hash a start) l

/-- The entries, each with the hash in front of it. -/
def links : H → List α → List (α × H)
  | _, [] => []
  | start, a :: l => (a, start) :: links (hash a start) l

@[simp] theorem last_nil (start : H) : last hash start [] = start := rfl

@[simp] theorem last_concat (start : H) (l : List α) (a : α) :
    last hash start (l ++ [a]) = hash a (last hash start l) := by
  rw [last, List.foldl_append]
  rfl

@[simp] theorem flat_nil (start : H) : flat hash render start [] = [] := rfl

theorem flat_append (start : H) (l l' : List α) :
    flat hash render start (l ++ l') =
      flat hash render start l ++ flat hash render (last hash start l) l' := by
  induction l generalizing start with
  | nil => rfl
  | cons a l ih =>
    show render a start ++ flat hash render (hash a start) (l ++ l') = _
    rw [ih, ← List.append_assoc]
    rfl

@[simp] theorem flat_concat (start : H) (l : List α) (a : α) :
    flat hash render start (l ++ [a]) =
      flat hash render start l ++ render a (last hash start l) := by
  rw [flat_append]
  show _ ++ (render a (last hash start l) ++ []) = _
  rw [List.append_nil]

theorem links_append (start : H) (l l' : List α) :
    links hash start (l ++ l') = links hash start l ++ links hash (last hash start l) l' := by
  induction l generalizing start with
  | nil => rfl
  | cons a l ih => exact congrArg ((a, start) :: ·) (ih (hash a start))

@[simp] theorem links_concat (start : H) (l : List α) (a : α) :
    links hash start (l ++ [a]) = links hash start l ++ [(a, last hash start l)] :=
  links_append hash start l [a]

section Width

variable {hash render} {width : ℕ} (hwidth : ∀ a p, (render a p).length = width)
include hwidth

theorem length_flat (start : H) (l : List α) :
    (flat hash render start l).length = l.length * width := by
  induction l generalizing start with
  | nil => exact (Nat.zero_mul width).symm
  | cons a l ih =>
    show (render a start ++ flat hash render (hash a start) l).length = _
    rw [List.length_append, hwidth, ih, List.length_cons, Nat.succ_mul, Nat.add_comm]

/-- Entries of one width are read back one after another. -/
theorem flat_injective (hpos : 0 < width)
    (hrender : ∀ a b p, render a p = render b p → a = b) (start : H) {l l' : List α}
    (h : flat hash render start l = flat hash render start l') : l = l' := by
  have hlength : l.length = l'.length := by
    have heq := congrArg List.length h
    rw [length_flat hwidth, length_flat hwidth] at heq
    exact Nat.eq_of_mul_eq_mul_right hpos heq
  induction l generalizing start l' with
  | nil => exact (List.length_eq_zero_iff.mp hlength.symm).symm
  | cons a l ih =>
    cases l' with
    | nil => cases hlength
    | cons b l' =>
      have hsame : (render a start).length = (render b start).length :=
        (hwidth a start).trans (hwidth b start).symm
      obtain ⟨hhead, htail⟩ := List.append_inj h hsame
      obtain rfl := hrender a b start hhead
      rw [ih (hash a start) htail (Nat.succ.inj hlength)]

end Width

variable {hash}

/-- The last hash stands for the chain. -/
theorem eq_of_last_eq {start : H} {l l' : List α} (hlength : l.length = l'.length)
    (hinj : ∀ x ∈ links hash start l, ∀ y ∈ links hash start l',
      hash x.1 x.2 = hash y.1 y.2 → x = y)
    (h : last hash start l = last hash start l') : l = l' := by
  induction l using List.reverseRecOn generalizing l' with
  | nil => exact (List.length_eq_zero_iff.mp hlength.symm).symm
  | append_singleton l a ih =>
    rcases l'.eq_nil_or_concat with rfl | ⟨l', b, rfl⟩
    · simp at hlength
    · rw [List.concat_eq_append] at *
      rw [last_concat, last_concat] at h
      rw [links_concat, links_concat] at hinj
      have hmem : (a, last hash start l) ∈ links hash start l ++ [(a, last hash start l)] :=
        List.mem_append_right _ (List.mem_singleton_self _)
      have hmem' : (b, last hash start l') ∈ links hash start l' ++ [(b, last hash start l')] :=
        List.mem_append_right _ (List.mem_singleton_self _)
      obtain ⟨rfl, hlast⟩ := Prod.mk.inj (hinj _ hmem _ hmem' h)
      have hrest : l.length = l'.length := by
        rw [List.length_append, List.length_append] at hlength
        exact Nat.add_right_cancel hlength
      rw [ih hrest (fun x hx y hy => hinj x (List.mem_append_left _ hx) y
        (List.mem_append_left _ hy)) hlast]

end Chained

end Ferric
