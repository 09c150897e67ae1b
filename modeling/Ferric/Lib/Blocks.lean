import Mathlib.Data.List.Basic
import Mathlib.Tactic.Common

/-!
# Folding over blocks, one element at a time

A function is folded over the blocks of a list, all of the same length. A consumer that gets the
list in pieces keeps the state of the fold and the elements of the block that is not complete.
Taking in one element more is `absorbOne`, and a list of them is `absorb`. What is left over when
the whole list has been taken in is the fold over its complete blocks, next to the elements behind
the last of them.

Since `absorb` is itself a fold over elements, it does not matter how the list was cut.

## Main definitions

* `blocks` — the complete blocks of a list
* `absorb` — the state of the fold and the block in progress, after more elements
-/

namespace Ferric

variable {α σ : Type*}

/-- The first `count` blocks of length `n`. -/
def firstBlocks (n : ℕ) : ℕ → List α → List (List α)
  | 0, _ => []
  | count + 1, l => l.take n :: firstBlocks n count (l.drop n)

/-- The complete blocks of length `n`. -/
def blocks (n : ℕ) (l : List α) : List (List α) := firstBlocks n (l.length / n) l

theorem blocks_of_lt {n : ℕ} {l : List α} (h : l.length < n) : blocks n l = [] := by
  rw [blocks, Nat.div_eq_of_lt h, firstBlocks]

theorem blocks_append {n : ℕ} {block rest : List α} (hn : 0 < n) (h : block.length = n) :
    blocks n (block ++ rest) = block :: blocks n rest := by
  have hcount : (block ++ rest).length / n = rest.length / n + 1 := by
    rw [List.length_append, h, Nat.add_div_left _ hn]
  rw [blocks, hcount, firstBlocks, List.take_left' h, List.drop_left' h, blocks]

theorem blocks_of_length {n : ℕ} {block : List α} (hn : 0 < n) (h : block.length = n) :
    blocks n block = [block] := by
  have happend : blocks n (block ++ []) = block :: blocks n [] := blocks_append hn h
  rw [List.append_nil] at happend
  rw [happend, blocks_of_lt (l := []) hn]

/-- An entry of blocks that were put behind each other. -/
theorem getElem?_flatMap {β : Type*} {n : ℕ} (hn : 0 < n) {f : α → List β}
    (hf : ∀ a, (f a).length = n) (l : List α) (i : ℕ) :
    (l.flatMap f)[i]? = l[i / n]?.bind fun a => (f a)[i % n]? := by
  induction l generalizing i with
  | nil => rfl
  | cons a l ih =>
    rw [List.flatMap_cons]
    rcases Nat.lt_or_ge i n with hlt | hge
    · rw [List.getElem?_append_left (by rwa [hf]), Nat.div_eq_of_lt hlt, Nat.mod_eq_of_lt hlt]
      rfl
    · obtain ⟨j, rfl⟩ := Nat.exists_eq_add_of_le hge
      rw [List.getElem?_append_right (by rwa [hf]), hf, Nat.add_sub_cancel_left, ih,
        Nat.add_div_left _ hn, Nat.add_mod_left, List.getElem?_cons_succ]

/-- One element more: a block that is complete goes into the fold. -/
def absorbOne (n : ℕ) (f : σ → List α → σ) (core : σ × List α) (a : α) : σ × List α :=
  if (core.2 ++ [a]).length = n then (f core.1 (core.2 ++ [a]), []) else (core.1, core.2 ++ [a])

/-- More elements. -/
def absorb (n : ℕ) (f : σ → List α → σ) (core : σ × List α) (l : List α) : σ × List α :=
  l.foldl (absorbOne n f) core

section Absorb

variable {n : ℕ} {f : σ → List α → σ} {core : σ × List α} {s : σ} {buffer l : List α}

@[simp] theorem absorb_nil : absorb n f core [] = core := rfl

theorem absorb_cons {a : α} : absorb n f core (a :: l) = absorb n f (absorbOne n f core a) l := rfl

theorem absorb_append {l' : List α} :
    absorb n f core (l ++ l') = absorb n f (absorb n f core l) l' := List.foldl_append ..

/-- **The state of the fold is the fold over the complete blocks**, whatever was in the block in
progress. -/
theorem absorb_fst (hn : 0 < n) (h : buffer.length < n) :
    (absorb n f (s, buffer) l).1 = (blocks n (buffer ++ l)).foldl f s := by
  induction l generalizing s buffer with
  | nil =>
    rw [List.append_nil, blocks_of_lt h]
    rfl
  | cons a l ih =>
    have hassoc : buffer ++ a :: l = (buffer ++ [a]) ++ l := by rw [List.append_assoc]; rfl
    have hlen : (buffer ++ [a]).length = buffer.length + 1 := List.length_append
    rw [absorb_cons, absorbOne]
    split
    · next hfull =>
      have hempty : ([] : List α).length < n := hn
      rw [ih hempty, hassoc, blocks_append hn hfull]
      rfl
    · next hopen =>
      have hopen : (buffer ++ [a]).length ≠ n := hopen
      have hlt : (buffer ++ [a]).length < n := by omega
      rw [ih hlt, hassoc]

/-- The block in progress never fills up. -/
theorem length_absorb_snd (f : σ → List α → σ) (core : σ × List α) (l : List α) (hn : 0 < n)
    (h : core.2.length < n) :
    (absorb n f core l).2.length < n ∧
      (absorb n f core l).2.length % n = (core.2.length + l.length) % n := by
  induction l generalizing core with
  | nil => exact ⟨h, rfl⟩
  | cons a l ih =>
    have hlen : (core.2 ++ [a]).length = core.2.length + 1 := List.length_append
    rw [absorb_cons, absorbOne]
    split
    · next hfull =>
      obtain ⟨hlt, hmod⟩ := ih (f core.1 (core.2 ++ [a]), []) hn
      refine ⟨hlt, hmod.trans ?_⟩
      have hsum : core.2.length + (a :: l).length = n + (0 + l.length) := by
        rw [List.length_cons]
        omega
      rw [hsum, Nat.add_mod_left]
      rfl
    · next hopen =>
      have hlt : (core.2 ++ [a]).length < n := by omega
      obtain ⟨hlt, hmod⟩ := ih (core.1, core.2 ++ [a]) hlt
      refine ⟨hlt, hmod.trans (congrArg (· % n) ?_)⟩
      show (core.2 ++ [a]).length + l.length = core.2.length + (a :: l).length
      rw [hlen, List.length_cons, Nat.add_assoc, Nat.add_comm 1]

/-- What was taken in first may be replaced by the state and the block in progress that it left. -/
theorem foldl_blocks_append (hn : 0 < n) :
    (blocks n (l ++ buffer)).foldl f s =
      (blocks n ((absorb n f (s, []) l).2 ++ buffer)).foldl f (absorb n f (s, []) l).1 := by
  have hwhole : (absorb n f (s, []) (l ++ buffer)).1 = (blocks n (l ++ buffer)).foldl f s :=
    absorb_fst hn hn
  have hlt : (absorb n f (s, []) l).2.length < n := (length_absorb_snd f (s, []) l hn hn).1
  rw [← hwhole, absorb_append]
  exact absorb_fst hn hlt

/-- Elements that do not complete the block stay in it. -/
theorem absorb_of_lt (h : buffer.length + l.length < n) :
    absorb n f (s, buffer) l = (s, buffer ++ l) := by
  induction l generalizing buffer with
  | nil => rw [absorb_nil, List.append_nil]
  | cons a l ih =>
    have hlen : (buffer ++ [a]).length = buffer.length + 1 := List.length_append
    rw [List.length_cons] at h
    have hopen : (buffer ++ [a]).length ≠ n := by omega
    have hlt : (buffer ++ [a]).length + l.length < n := by omega
    rw [absorb_cons, absorbOne, if_neg hopen, ih hlt, List.append_assoc]
    rfl

/-- Elements that complete the block. -/
theorem absorb_of_eq (hl : l ≠ []) (h : buffer.length + l.length = n) :
    absorb n f (s, buffer) l = (f s (buffer ++ l), []) := by
  obtain ⟨front, last, rfl⟩ := l.eq_nil_or_concat'.resolve_left hl
  have hlen : (front ++ [last]).length = front.length + 1 := List.length_append
  rw [hlen] at h
  have hfull : ((buffer ++ front) ++ [last]).length = n := by
    rw [List.length_append, List.length_append, List.length_singleton]
    omega
  have hfront : buffer.length + front.length < n := by omega
  rw [absorb_append, absorb_of_lt hfront, absorb_cons, absorbOne, if_pos hfull, absorb_nil,
    List.append_assoc]

end Absorb

end Ferric
