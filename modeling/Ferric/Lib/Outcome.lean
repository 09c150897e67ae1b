import Mathlib.Algebra.Order.Ring.Nat
import Mathlib.Data.List.Forall2
import Mathlib.Order.Basic
import Mathlib.Tactic.Common

/-!
# Outcomes of fallible code

A function that may fail is modelled as a value of `Outcome ε α`: a result, or a `Fault`. A fault
is an error value of the function's own error type, a *panic* (an index out of range, a failed
`expect`), or *divergence* (a loop that used up the fuel its model was given). The last two are
outcomes of the model and not of the type the code declares, so a specification has to rule them
out rather than handle them.

## Rules

`Ensures x E Q` is the contract of one outcome: it is a result satisfying `Q` or an error value
satisfying `E`, and it is neither a panic nor a divergence. Contracts compose along `>>=`, along
`mapM`-style loops, and over the fixed-width checks below, and a proof about a long function is
the sequence of these rules that follows its statements.

## Main definitions

* `Fault`, `Outcome` — the three ways of not returning, and the type of an outcome
* `failIf`, `orErr`, `orPanic`, `mapErr`, `expect` — an early return, a `?`, an index expression,
  and the methods of a result
* `Ensures` — the contract of an outcome
* `checkedAdd`, `checkedSub`, `checkedMul` — arithmetic of a fixed-width type, as options
-/

namespace Ferric

/-- Why a function did not return a value. -/
inductive Fault (ε : Type) where
  /-- An error value the caller receives. -/
  | err (e : ε)
  /-- The code panicked. -/
  | panic
  /-- A loop of the model ran out of fuel. -/
  | diverge
  deriving DecidableEq

/-- The outcome of a function returning `α` or failing with `ε`. -/
abbrev Outcome (ε α : Type) := Except (Fault ε) α

variable {ε α β σ : Type}

/-- `if c { return Err(e) }`. -/
def failIf (c : Prop) [Decidable c] (e : ε) : Outcome ε Unit :=
  if c then .error (.err e) else .ok ()

/-- `option.ok_or(e)?`. -/
def orErr (e : ε) : Option α → Outcome ε α
  | some a => .ok a
  | none => .error (.err e)

/-- An index expression or an `expect`: the option is present, or the code panics. -/
def orPanic : Option α → Outcome ε α
  | some a => .ok a
  | none => .error .panic

/-- `result.map_err(f)`. -/
def mapErr {δ : Type} (f : ε → δ) : Outcome ε α → Outcome δ α
  | .ok a => .ok a
  | .error (.err e) => .error (.err (f e))
  | .error .panic => .error .panic
  | .error .diverge => .error .diverge

/-- `result.expect(..)`: an error value becomes a panic. -/
def expect : Outcome ε α → Outcome ε α
  | .ok a => .ok a
  | .error .diverge => .error .diverge
  | .error _ => .error .panic

/-- Addition in an unsigned type of `width` bits, or `none` when the sum does not fit. -/
def checkedAdd (width a b : ℕ) : Option ℕ := if a + b < 2 ^ width then some (a + b) else none

theorem checkedAdd_eq_some {width a b c : ℕ} :
    checkedAdd width a b = some c ↔ a + b < 2 ^ width ∧ a + b = c := by
  rw [checkedAdd]
  split <;> simp [*]

/-- Subtraction of unsigned numbers, or `none` when the result would be negative. -/
def checkedSub (a b : ℕ) : Option ℕ := if b ≤ a then some (a - b) else none

theorem checkedSub_of_le {a b : ℕ} (h : b ≤ a) : checkedSub a b = some (a - b) := if_pos h

/-- Multiplication in an unsigned type of `width` bits, or `none` when the product does not fit. -/
def checkedMul (width a b : ℕ) : Option ℕ := if a * b < 2 ^ width then some (a * b) else none

theorem checkedMul_eq_some {width a b c : ℕ} :
    checkedMul width a b = some c ↔ a * b < 2 ^ width ∧ a * b = c := by
  rw [checkedMul]
  split <;> simp [*]

/-! ### Reading outcomes back -/

@[simp] theorem failIf_eq_ok {c : Prop} [Decidable c] {e : ε} {u : Unit} :
    failIf c e = .ok u ↔ ¬ c := by
  rw [failIf]
  split <;> simp [*]

theorem failIf_of_not {c : Prop} [Decidable c] {e : ε} (h : ¬ c) : failIf c e = .ok () := if_neg h

@[simp] theorem orErr_eq_ok {e : ε} {o : Option α} {a : α} : orErr e o = .ok a ↔ o = some a := by
  cases o <;> simp [orErr]

@[simp] theorem orPanic_eq_ok {o : Option α} {a : α} :
    (orPanic o : Outcome ε α) = .ok a ↔ o = some a := by
  cases o <;> simp [orPanic]

@[simp] theorem mapErr_eq_ok {δ : Type} {f : ε → δ} {x : Outcome ε α} {a : α} :
    mapErr f x = .ok a ↔ x = .ok a := by
  rcases x with (_ | _ | _) | _ <;> simp [mapErr]

/-- A bind returns exactly when both parts do. -/
theorem bind_eq_ok {x : Outcome ε α} {f : α → Outcome ε β} {b : β} :
    (x >>= f) = .ok b ↔ ∃ a, x = .ok a ∧ f a = .ok b := by
  cases x <;> simp [bind, Except.bind]

theorem ok_bind {a : α} {f : α → Outcome ε β} : ((.ok a : Outcome ε α) >>= f) = f a := rfl

theorem error_bind {e : Fault ε} {f : α → Outcome ε β} :
    ((.error e : Outcome ε α) >>= f) = .error e := rfl

/-! ### Contracts -/

/-- `x` is a result satisfying `Q` or an error value satisfying `E`. -/
def Ensures (x : Outcome ε α) (E : ε → Prop) (Q : α → Prop) : Prop :=
  match x with
  | .ok a => Q a
  | .error (.err e) => E e
  | .error .panic => False
  | .error .diverge => False

variable {E : ε → Prop} {Q : α → Prop}

@[simp] theorem ensures_ok {a : α} : Ensures (.ok a : Outcome ε α) E Q ↔ Q a := Iff.rfl

@[simp] theorem ensures_pure {a : α} : Ensures (pure a : Outcome ε α) E Q ↔ Q a := Iff.rfl

@[simp] theorem ensures_err {e : ε} : Ensures (.error (.err e) : Outcome ε α) E Q ↔ E e := Iff.rfl

theorem Ensures.of_ok {x : Outcome ε α} (h : Ensures x E Q) {a : α} (hx : x = .ok a) : Q a := by
  subst hx
  exact h

theorem Ensures.of_err {x : Outcome ε α} (h : Ensures x E Q) {e : ε} (hx : x = .error (.err e)) :
    E e := by
  subst hx
  exact h

theorem Ensures.ne_panic {x : Outcome ε α} (h : Ensures x E Q) : x ≠ .error .panic := by
  rintro rfl
  exact h

theorem Ensures.ne_diverge {x : Outcome ε α} (h : Ensures x E Q) : x ≠ .error .diverge := by
  rintro rfl
  exact h

/-- The two ways in which an outcome with a contract ends. -/
theorem Ensures.cases {x : Outcome ε α} (h : Ensures x E Q) :
    (∃ a, x = .ok a ∧ Q a) ∨ ∃ e, x = .error (.err e) ∧ E e := by
  match x, h with
  | .ok a, h => exact .inl ⟨a, rfl, h⟩
  | .error (.err e), h => exact .inr ⟨e, rfl, h⟩

/-- An outcome that is never an error value is a result. -/
theorem Ensures.exists_ok {x : Outcome ε α} (h : Ensures x (fun _ => False) Q) :
    ∃ a, x = .ok a ∧ Q a := by
  match x, h with
  | .ok a, h => exact ⟨a, rfl, h⟩

/-- Consequence. -/
theorem Ensures.mono {x : Outcome ε α} {E' : ε → Prop} {Q' : α → Prop} (h : Ensures x E Q)
    (hE : ∀ e, E e → E' e) (hQ : ∀ a, x = .ok a → Q a → Q' a) : Ensures x E' Q' := by
  match x, h with
  | .ok a, h => exact hQ a rfl h
  | .error (.err e), h => exact hE e h

/-- Sequencing. The continuation may use the equation that produced its argument. -/
theorem Ensures.bind {x : Outcome ε α} {f : α → Outcome ε β} {R : β → Prop} (hx : Ensures x E Q)
    (hf : ∀ a, x = .ok a → Q a → Ensures (f a) E R) : Ensures (x >>= f) E R := by
  match x, hx with
  | .ok a, hx => exact hf a rfl hx
  | .error (.err e), hx => exact hx

theorem ensures_failIf {c : Prop} [Decidable c] {e : ε} {Q : Unit → Prop} (he : c → E e)
    (hq : ¬ c → Q ()) : Ensures (failIf c e) E Q := by
  rw [failIf]
  split
  · exact he ‹c›
  · exact hq ‹¬ c›

/-- A check in front of the rest. -/
theorem ensures_failIf_bind {c : Prop} [Decidable c] {e : ε} {f : Unit → Outcome ε β}
    {R : β → Prop} (he : c → E e) (hf : ¬ c → Ensures (f ()) E R) :
    Ensures (failIf c e >>= f) E R :=
  (ensures_failIf (Q := fun _ => ¬ c) he fun hc => hc).bind fun _ _ hc => hf hc

theorem ensures_orErr {o : Option α} {e : ε} (he : o = none → E e)
    (hq : ∀ a, o = some a → Q a) : Ensures (orErr e o) E Q := by
  cases o with
  | none => exact he rfl
  | some a => exact hq a rfl

/-- An index expression keeps a contract only by being in range. -/
theorem ensures_orPanic {o : Option α} {a : α} (ho : o = some a) (hq : Q a) :
    Ensures (orPanic o : Outcome ε α) E Q := by
  subst ho
  exact hq

theorem ensures_mapErr {δ : Type} {f : ε → δ} {x : Outcome ε α} {E : δ → Prop}
    (h : Ensures x (fun e => E (f e)) Q) : Ensures (mapErr f x) E Q := by
  match x, h with
  | .ok a, h => exact h
  | .error (.err e), h => exact h

/-- A result that is never an error value may be expected. -/
theorem ensures_expect {x : Outcome ε α} (h : Ensures x (fun _ => False) Q) :
    Ensures (expect x) E Q := by
  match x, h with
  | .ok a, h => exact h

/-- The code returns a result or an error value. -/
abbrev Total (x : Outcome ε α) : Prop := Ensures x (fun _ => True) fun _ => True

theorem Total.bind {x : Outcome ε α} {f : α → Outcome ε β} (hx : Total x)
    (hf : ∀ a, Total (f a)) : Total (x >>= f) := Ensures.bind hx fun a _ _ => hf a

theorem total_pure {a : α} : Total (pure a : Outcome ε α) := trivial

theorem total_failIf {c : Prop} [Decidable c] {e : ε} : Total (failIf c e) :=
  ensures_failIf (fun _ => trivial) fun _ => trivial

theorem total_orErr {o : Option α} {e : ε} : Total (orErr e o) :=
  ensures_orErr (fun _ => trivial) fun _ _ => trivial

theorem total_mapErr {δ : Type} {f : ε → δ} {x : Outcome ε α} (h : Total x) : Total (mapErr f x) :=
  ensures_mapErr h

/-- A loop whose rounds return returns. -/
theorem total_foldlM {f : σ → α → Outcome ε σ} {l : List α} {s : σ}
    (h : ∀ s, ∀ a ∈ l, Total (f s a)) : Total (l.foldlM f s) := by
  induction l generalizing s with
  | nil => exact total_pure
  | cons a l ih =>
    rw [List.foldlM_cons]
    refine (h s a List.mem_cons_self).bind fun s' => ih fun s b hb => h s b ?_
    exact List.mem_cons_of_mem _ hb

/-- A filter whose test returns on every element. -/
theorem filterM_eq_ok {f : α → Outcome ε Bool} {p : α → Bool} {l : List α}
    (h : ∀ a ∈ l, f a = .ok (p a)) : l.filterM f = .ok (l.filter p) := by
  have haux : ∀ acc, l.filterAuxM f acc = .ok ((l.filter p).reverse ++ acc) := by
    induction l with
    | nil => exact fun acc => rfl
    | cons a l ih =>
      intro acc
      rw [List.filterAuxM, h a List.mem_cons_self, ok_bind, ih fun b hb => h b (.tail _ hb)]
      cases hp : p a <;> simp [hp]
  rw [List.filterM, haux, ok_bind, List.append_nil, List.reverse_reverse]
  rfl

/-- **Loop rule.** An invariant indexed by what the loop has consumed and what is left. -/
theorem ensures_foldlM {f : σ → α → Outcome ε σ} {I : List α → List α → σ → Prop}
    {d rest : List α} {s : σ} (h : I d rest s)
    (hstep : ∀ done a rest s, I done (a :: rest) s →
      Ensures (f s a) E fun s' => I (done ++ [a]) rest s') :
    Ensures (rest.foldlM f s) E fun s' => I (d ++ rest) [] s' := by
  induction rest generalizing d s with
  | nil => simpa using h
  | cons a rest ih =>
    rw [List.foldlM_cons]
    refine (hstep d a rest s h).bind fun s' _ hs' => ?_
    simpa using ih hs'

/-- A loop of checks passes exactly when each of them does. -/
theorem foldlM_checks_eq_ok {f : α → Outcome ε Unit} {l : List α} :
    l.foldlM (fun _ a => f a) () = .ok () ↔ ∀ a ∈ l, f a = .ok () := by
  induction l with
  | nil => simp [pure, Except.pure]
  | cons a l ih =>
    rw [List.foldlM_cons, bind_eq_ok, List.forall_mem_cons, ← ih]
    exact ⟨fun ⟨_, ha, hl⟩ => ⟨ha, hl⟩, fun ⟨ha, hl⟩ => ⟨(), ha, hl⟩⟩

/-- A loop over the images of a list that returns on each of them. -/
theorem mapM_map_eq_ok {γ : Type} {f : β → Outcome ε γ} {g : α → β} {k : α → γ} {l : List α}
    (h : ∀ a ∈ l, f (g a) = .ok (k a)) : (l.map g).mapM f = .ok (l.map k) := by
  induction l with
  | nil => rfl
  | cons a l ih =>
    rw [List.map_cons, List.mapM_cons, h a List.mem_cons_self, ok_bind,
      ih fun b hb => h b (.tail _ hb), ok_bind]
    rfl

/-- Reading a map back: each result is the result on its argument. -/
theorem forall₂_of_mapM {f : α → Outcome ε β} {l : List α} {bs : List β} (h : l.mapM f = .ok bs) :
    List.Forall₂ (fun a b => f a = .ok b) l bs := by
  induction l generalizing bs with
  | nil =>
    obtain rfl : [] = bs := by simpa [pure, Except.pure] using h
    exact .nil
  | cons a l ih =>
    rw [List.mapM_cons, bind_eq_ok] at h
    obtain ⟨b, hb, h⟩ := h
    obtain ⟨cs, hcs, hcons⟩ := bind_eq_ok.mp h
    obtain rfl : b :: cs = bs := Except.ok.inj hcons
    exact .cons hb (ih hcs)

/-- **Map rule.** Results correspond to arguments, in order. -/
theorem ensures_mapM {f : α → Outcome ε β} {R : α → β → Prop} {l : List α}
    (h : ∀ a ∈ l, Ensures (f a) E (R a)) :
    Ensures (l.mapM f) E fun bs => List.Forall₂ R l bs := by
  induction l with
  | nil => exact .nil
  | cons a l ih =>
    rw [List.mapM_cons]
    refine (h a List.mem_cons_self).bind fun b _ hb => ?_
    refine (ih fun c hc => h c (.tail _ hc)).bind fun bs _ hbs => ?_
    exact ensures_pure.mpr (.cons hb hbs)

end Ferric
