import Ferric.Lib.Blocks
import Ferric.Lib.Packet

/-!
# SHA-256

The digest of FIPS 180-4: a message of fewer than `2^64` bits is padded to whole blocks of 64 bytes,
and the compression function is folded over the blocks. Words are in big-endian order.

The constants are the first 32 bits of the fractional parts of the square roots and the cube roots
of the first primes. They are tables here, and `K_eq_cubeRoots` and `H0_eq_squareRoots` say what is
in them.

## Main definitions

* `rotr`, `ch`, `maj`, `bigSigma0`, `bigSigma1`, `sigma0`, `sigma1` — the functions of 4.1.2
* `schedule`, `Variables.round`, `compress` — the computation of 6.2.2
* `pad` — the padding of 5.1.1
* `sha256` — the digest
-/

namespace Ferric

/-- The lowest `n` bytes of a number, the highest of them first. -/
def be (n v : ℕ) : List UInt8 := (le n v).reverse

@[simp] theorem length_be (n v : ℕ) : (be n v).length = n := by
  rw [be, List.length_reverse, length_le]

theorem getElem?_le {n v i : ℕ} (h : i < n) : (le n v)[i]? = some (UInt8.ofNat (v / 256 ^ i)) := by
  induction n generalizing v i with
  | zero => exact absurd h (Nat.not_lt_zero i)
  | succ n ih =>
    cases i with
    | zero => rw [le, List.getElem?_cons_zero, Nat.pow_zero, Nat.div_one]
    | succ i =>
      rw [le, List.getElem?_cons_succ, ih (Nat.lt_of_succ_lt_succ h), Nat.div_div_eq_div_mul,
        Nat.pow_succ']

theorem getElem?_be {n v i : ℕ} (h : i < n) :
    (be n v)[i]? = some (UInt8.ofNat (v / 256 ^ (n - 1 - i))) := by
  have hlen : i < (le n v).length := by rwa [length_le]
  rw [be, List.getElem?_reverse hlen, length_le, getElem?_le (by omega)]

namespace Sha2

/-! ### Functions and constants -/

/-- `ROTR` -/
def rotr (n x : UInt32) : UInt32 := (x >>> n) ||| (x <<< (32 - n))

/-- `Ch` -/
def ch (x y z : UInt32) : UInt32 := (x &&& y) ^^^ (~~~x &&& z)

/-- `Maj` -/
def maj (x y z : UInt32) : UInt32 := (x &&& y) ^^^ (x &&& z) ^^^ (y &&& z)

/-- `Σ₀` -/
def bigSigma0 (x : UInt32) : UInt32 := rotr 2 x ^^^ rotr 13 x ^^^ rotr 22 x

/-- `Σ₁` -/
def bigSigma1 (x : UInt32) : UInt32 := rotr 6 x ^^^ rotr 11 x ^^^ rotr 25 x

/-- `σ₀` -/
def sigma0 (x : UInt32) : UInt32 := rotr 7 x ^^^ rotr 18 x ^^^ (x >>> 3)

/-- `σ₁` -/
def sigma1 (x : UInt32) : UInt32 := rotr 17 x ^^^ rotr 19 x ^^^ (x >>> 10)

/-- The first 64 primes. -/
def primes : List ℕ := (List.range 312).filter fun p =>
  2 ≤ p ∧ ∀ d ∈ List.range p, 2 ≤ d → p % d ≠ 0

/-- `K`, one word for each round. -/
def K : List UInt32 :=
  [0x428a2f98, 0x71374491, 0xb5c0fbcf, 0xe9b5dba5, 0x3956c25b, 0x59f111f1, 0x923f82a4, 0xab1c5ed5,
    0xd807aa98, 0x12835b01, 0x243185be, 0x550c7dc3, 0x72be5d74, 0x80deb1fe, 0x9bdc06a7, 0xc19bf174,
    0xe49b69c1, 0xefbe4786, 0x0fc19dc6, 0x240ca1cc, 0x2de92c6f, 0x4a7484aa, 0x5cb0a9dc, 0x76f988da,
    0x983e5152, 0xa831c66d, 0xb00327c8, 0xbf597fc7, 0xc6e00bf3, 0xd5a79147, 0x06ca6351, 0x14292967,
    0x27b70a85, 0x2e1b2138, 0x4d2c6dfc, 0x53380d13, 0x650a7354, 0x766a0abb, 0x81c2c92e, 0x92722c85,
    0xa2bfe8a1, 0xa81a664b, 0xc24b8b70, 0xc76c51a3, 0xd192e819, 0xd6990624, 0xf40e3585, 0x106aa070,
    0x19a4c116, 0x1e376c08, 0x2748774c, 0x34b0bcb5, 0x391c0cb3, 0x4ed8aa4a, 0x5b9cca4f, 0x682e6ff3,
    0x748f82ee, 0x78a5636f, 0x84c87814, 0x8cc70208, 0x90befffa, 0xa4506ceb, 0xbef9a3f7, 0xc67178f2]

/-- `H` before the first block. -/
def H0 : Vector UInt32 8 :=
  ⟨⟨[0x6a09e667, 0xbb67ae85, 0x3c6ef372, 0xa54ff53a,
    0x510e527f, 0x9b05688c, 0x1f83d9ab, 0x5be0cd19]⟩, rfl⟩

theorem length_K : K.length = 64 := rfl

/-- `n` is the integer part of the root of `p` with 32 binary places. -/
def IsRoot (degree p n : ℕ) : Prop :=
  n ^ degree ≤ p * 2 ^ (32 * degree) ∧ p * 2 ^ (32 * degree) < (n + 1) ^ degree

/-- The word of a root, behind its integer part. -/
def FractionOfRoot (degree p : ℕ) (w : UInt32) : Prop :=
  ∃ n < 7, IsRoot degree p (n * 2 ^ 32 + w.toNat)

instance (degree p : ℕ) (w : UInt32) : Decidable (FractionOfRoot degree p w) :=
  inferInstanceAs (Decidable (∃ n < 7, _ ∧ _))

theorem K_eq_cubeRoots : List.Forall₂ (FractionOfRoot 3) primes K := by decide +kernel

theorem H0_eq_squareRoots : List.Forall₂ (FractionOfRoot 2) (primes.take 8) H0.toList := by
  decide +kernel

/-! ### Compression -/

/-- A word of four bytes. -/
def word (b₀ b₁ b₂ b₃ : UInt8) : UInt32 :=
  .ofNat (b₀.toNat * 2 ^ 24 + b₁.toNat * 2 ^ 16 + b₂.toNat * 2 ^ 8 + b₃.toNat)

/-- `Wₜ`, from the words before it. -/
def scheduleWord (M : List UInt8) (W : List UInt32) (t : ℕ) : UInt32 :=
  if t < 16 then
    word (M.getD (4 * t) 0) (M.getD (4 * t + 1) 0) (M.getD (4 * t + 2) 0) (M.getD (4 * t + 3) 0)
  else sigma1 (W.getD (t - 2) 0) + W.getD (t - 7) 0 + sigma0 (W.getD (t - 15) 0) +
    W.getD (t - 16) 0

/-- The first words of the message schedule of a block. -/
def schedule (M : List UInt8) : ℕ → List UInt32
  | 0 => []
  | t + 1 => schedule M t ++ [scheduleWord M (schedule M t) t]

/-- The working variables. -/
structure Variables where
  a : UInt32
  b : UInt32
  c : UInt32
  d : UInt32
  e : UInt32
  f : UInt32
  g : UInt32
  h : UInt32

/-- The working variables before the first round. -/
def Variables.start (H : Vector UInt32 8) : Variables :=
  ⟨H.get 0, H.get 1, H.get 2, H.get 3, H.get 4, H.get 5, H.get 6, H.get 7⟩

/-- One round, with its constant and its word of the schedule. -/
def Variables.round (v : Variables) (k w : UInt32) : Variables :=
  let t₁ := v.h + bigSigma1 v.e + ch v.e v.f v.g + k + w
  let t₂ := bigSigma0 v.a + maj v.a v.b v.c
  { a := t₁ + t₂, b := v.a, c := v.b, d := v.c, e := v.d + t₁, f := v.e, g := v.f, h := v.g }

/-- All rounds. -/
def rounds (H : Vector UInt32 8) (W : List UInt32) : Variables :=
  (K.zip W).foldl (fun v kw => v.round kw.1 kw.2) (.start H)

/-- The hash value to which the variables are added. -/
def Variables.addTo (v : Variables) (H : Vector UInt32 8) : Vector UInt32 8 :=
  #v[H.get 0 + v.a, H.get 1 + v.b, H.get 2 + v.c, H.get 3 + v.d,
    H.get 4 + v.e, H.get 5 + v.f, H.get 6 + v.g, H.get 7 + v.h]

/-- The next hash value. -/
def compress (H : Vector UInt32 8) (M : List UInt8) : Vector UInt32 8 :=
  (rounds H (schedule M 64)).addTo H

@[simp] theorem length_schedule (M : List UInt8) (t : ℕ) : (schedule M t).length = t := by
  induction t with
  | zero => rfl
  | succ t ih => rw [schedule, List.length_append, ih, List.length_singleton]

theorem schedule_take {M : List UInt8} {t s : ℕ} (h : t ≤ s) :
    (schedule M s).take t = schedule M t := by
  induction s with
  | zero =>
    obtain rfl := Nat.le_zero.mp h
    rfl
  | succ s ih =>
    rcases Nat.lt_or_eq_of_le h with h | rfl
    · rw [schedule, List.take_append_of_le_length (by rw [length_schedule]; omega), ih (by omega)]
    · rw [List.take_of_length_le (Nat.le_of_eq (length_schedule M _))]

/-- A word of a longer schedule. -/
theorem getElem?_schedule {M : List UInt8} {t s : ℕ} (h : t < s) :
    (schedule M s)[t]? = some (scheduleWord M (schedule M t) t) := by
  have htake : ((schedule M s).take (t + 1))[t]? = (schedule M s)[t]? :=
    List.getElem?_take_of_lt (Nat.lt_succ_self t)
  rw [← htake, schedule_take h, schedule,
    List.getElem?_append_right (Nat.le_of_eq (length_schedule M t)), length_schedule, Nat.sub_self]
  rfl

/-! ### Padding -/

/-- How many zero bytes a message of some length gets. -/
def zeros (length : ℕ) : ℕ := (119 - length % 64) % 64

/-- What is put behind a message. -/
def padding (length : ℕ) : List UInt8 :=
  0x80 :: List.replicate (zeros length) 0 ++ be 8 (8 * length)

/-- The padded message. -/
def pad (M : List UInt8) : List UInt8 := M ++ padding M.length

theorem length_padding (length : ℕ) : (padding length).length = 9 + zeros length := by
  rw [padding, List.length_append, List.length_cons, List.length_replicate, length_be]
  omega

/-! ### The digest -/

/-- The bytes of a hash value. -/
def hashBytes (H : Vector UInt32 8) : Block 32 :=
  ⟨H.toList.flatMap fun w => be 4 w.toNat, by simp [List.length_flatMap]⟩

end Sha2

open Sha2 in
/-- **The SHA-256 digest** of a message. -/
def sha256 (M : List UInt8) : Block 32 := hashBytes ((blocks 64 (pad M)).foldl compress H0)

example : (sha256 [0x61, 0x62, 0x63]).val =
    [0xba, 0x78, 0x16, 0xbf, 0x8f, 0x01, 0xcf, 0xea, 0x41, 0x41, 0x40, 0xde, 0x5d, 0xae, 0x22,
      0x23, 0xb0, 0x03, 0x61, 0xa3, 0x96, 0x17, 0x7a, 0x9c, 0xb4, 0x10, 0xff, 0x61, 0xf2, 0x00,
      0x15, 0xad] := by
  decide +kernel

end Ferric
