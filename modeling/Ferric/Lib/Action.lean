import Ferric.Lib.Outcome

/-!
# Actions: fallible code over a state

A method that changes its object and may fail halfway is an `Action σ ε α`: it returns a result or
a fault, and in either case the state it leaves. Unlike for an `Outcome`, what a failed call leaves
behind is part of the model.

`Runs s m Q E` is the contract of an action started in `s`: a result comes with a state satisfying
`Q`, an error value with a state satisfying `E`, and there is no panic and no divergence.

## Main definitions

* `Action`, `query`, `call`, `attempt`, `onPart`, `orThrow`, `handle` — actions, a read, an update,
  calls on a part of the state, a `?`, a handler
* `Runs` — the contract of an action
* `Fixes` — what an action leaves alone, however it ends
-/

namespace Ferric

/-- Fallible code over a state; a fault keeps the state it happened in. -/
abbrev Action (σ ε α : Type) := ExceptT (Fault ε) (StateM σ) α

variable {σ τ ε δ α β : Type}

namespace Action

/-- The outcome and the state it leaves. -/
def exec (m : Action σ ε α) (s : σ) : Outcome ε α × σ := (ExceptT.run m).run s

/-- `return Err(e)`. -/
def fail (e : ε) : Action σ ε α := throw (.err e)

/-- `if c { return Err(e) }`. -/
def failIf (c : Prop) [Decidable c] (e : ε) : Action σ ε Unit := if c then fail e else pure ()

/-- A call that only reads the state. -/
def query (f : σ → Outcome ε α) : Action σ ε α := do
  match f (← get) with
  | .ok a => return a
  | .error e => throw e

/-- A call that returns the new state. A fault leaves the state as it was. -/
def call (f : σ → Outcome ε σ) : Action σ ε Unit := do
  match f (← get) with
  | .ok s => set s
  | .error e => throw e

/-- A call on a part of the state whose error value the caller looks at. A failed call leaves the
part as it was. -/
def attempt (part : σ → τ) (put : τ → σ → σ) (op : τ → Outcome δ (α × τ)) :
    Action σ ε (Except δ α) := do
  match op (part (← get)) with
  | .ok (a, t) => do
    modify (put t)
    return .ok a
  | .error (.err e) => return .error e
  | .error .panic => throw .panic
  | .error .diverge => throw .diverge

/-- An action on a part of the state whose error value the caller looks at. -/
def onPart (part : σ → τ) (put : τ → σ → σ) (m : Action τ δ α) : Action σ ε (Except δ α) := do
  let s ← get
  match m.exec (part s) with
  | (.ok a, t) => do
    set (put t s)
    return .ok a
  | (.error (.err e), t) => do
    set (put t s)
    return .error e
  | (.error .panic, _) => throw .panic
  | (.error .diverge, _) => throw .diverge

/-- A call that returns nothing but the new state. -/
def noReply (op : τ → Outcome δ τ) (t : τ) : Outcome δ (Unit × τ) := do return ((), ← op t)

/-- `result.map_err(f)?`. -/
def orThrow (f : δ → ε) : Except δ α → Action σ ε α
  | .ok a => return a
  | .error e => fail (f e)

/-- Run the action, and the handler if it fails with an error value. -/
def handle (m : Action σ ε α) (h : ε → Action σ ε α) : Action σ ε α :=
  ExceptT.mk do
    match ← ExceptT.run m with
    | .error (.err e) => ExceptT.run (h e)
    | r => return r

end Action

open Ferric.Action

/-- Started in `s`, the action returns with `Q`, or fails with `E`. -/
def Runs (s : σ) (m : Action σ ε α) (Q : α → σ → Prop) (E : ε → σ → Prop) : Prop :=
  match m.exec s with
  | (.ok a, s') => Q a s'
  | (.error (.err e), s') => E e s'
  | (.error .panic, _) => False
  | (.error .diverge, _) => False

variable {s : σ} {m : Action σ ε α} {Q : α → σ → Prop} {E : ε → σ → Prop}

@[simp] theorem exec_pure {a : α} : (pure a : Action σ ε α).exec s = (.ok a, s) := rfl

@[simp] theorem exec_fail {e : ε} : (fail e : Action σ ε α).exec s = (.error (.err e), s) := rfl

@[simp] theorem exec_get : (get : Action σ ε σ).exec s = (.ok s, s) := rfl

@[simp] theorem exec_modify {f : σ → σ} : (modify f : Action σ ε Unit).exec s = (.ok (), f s) := rfl

/-- The continuation runs in the state that the first part leaves. -/
theorem exec_bind {f : α → Action σ ε β} :
    (m >>= f).exec s = match m.exec s with
      | (.ok a, s') => (f a).exec s'
      | (.error e, s') => (.error e, s') := by
  simp only [exec, ExceptT.run_bind]
  show (StateT.bind m.run _).run s = _
  simp only [StateT.run, StateT.bind]
  cases m.run s with
  | mk r s' => cases r <;> rfl

theorem exec_bind_of_ok {f : α → Action σ ε β} {a : α} {t : σ} (h : m.exec s = (.ok a, t)) :
    (m >>= f).exec s = (f a).exec t := by
  rw [exec_bind, h]

/-- A sequence that returns, in parts. -/
theorem exec_bind_eq_ok {f : α → Action σ ε β} {b : β} {s' : σ} :
    (m >>= f).exec s = (.ok b, s') ↔
      ∃ a t, m.exec s = (.ok a, t) ∧ (f a).exec t = (.ok b, s') := by
  constructor
  · intro h
    rw [exec_bind] at h
    rcases hm : m.exec s with ⟨e | a, t⟩
    · rw [hm] at h
      cases h
    · rw [hm] at h
      exact ⟨a, t, rfl, h⟩
  · rintro ⟨a, t, hm, hf⟩
    rw [exec_bind_of_ok hm, hf]

theorem runs_pure {a : α} (h : Q a s) : Runs s (pure a) Q E := h

theorem runs_fail {e : ε} (h : E e s) : Runs s (fail e) Q E := h

/-- Sequencing. The continuation may use the equation that produced its argument. -/
theorem Runs.bind {f : α → Action σ ε β} {R : α → σ → Prop} {P : β → σ → Prop}
    (hm : Runs s m R E) (hf : ∀ a s', m.exec s = (.ok a, s') → R a s' → Runs s' (f a) P E) :
    Runs s (m >>= f) P E := by
  rw [Runs, exec_bind]
  rw [Runs] at hm
  match hx : m.exec s, hm with
  | (.ok a, s'), hm => exact hf a s' hx hm
  | (.error (.err e), s'), hm => exact hm

/-- Consequence. -/
theorem Runs.mono {Q' : α → σ → Prop} {E' : ε → σ → Prop} (h : Runs s m Q E)
    (hQ : ∀ a s', m.exec s = (.ok a, s') → Q a s' → Q' a s')
    (hE : ∀ e s', m.exec s = (.error (.err e), s') → E e s' → E' e s') : Runs s m Q' E' := by
  rw [Runs] at h ⊢
  match hx : m.exec s, h with
  | (.ok a, s'), h => exact hQ a s' hx h
  | (.error (.err e), s'), h => exact hE e s' hx h

theorem Runs.of_ok {a : α} {s' : σ} (h : Runs s m Q E) (hx : m.exec s = (.ok a, s')) : Q a s' := by
  rw [Runs, hx] at h
  exact h

theorem Runs.of_err {e : ε} {s' : σ} (h : Runs s m Q E) (hx : m.exec s = (.error (.err e), s')) :
    E e s' := by
  rw [Runs, hx] at h
  exact h

/-- The two ways in which an action with a contract ends. -/
theorem Runs.cases (h : Runs s m Q E) :
    (∃ a s', m.exec s = (.ok a, s') ∧ Q a s') ∨
      ∃ e s', m.exec s = (.error (.err e), s') ∧ E e s' := by
  rw [Runs] at h
  match hx : m.exec s, h with
  | (.ok a, s'), h => exact .inl ⟨a, s', rfl, h⟩
  | (.error (.err e), s'), h => exact .inr ⟨e, s', rfl, h⟩

/-- What holds in the final state, however the action ends. -/
theorem Runs.final {P : σ → Prop} (h : Runs s m Q E) (hQ : ∀ a s', Q a s' → P s')
    (hE : ∀ e s', E e s' → P s') : P (m.exec s).2 := by
  rw [Runs] at h
  match m.exec s, h with
  | (.ok a, s'), h => exact hQ a s' h
  | (.error (.err e), s'), h => exact hE e s' h

theorem Runs.ne_panic (h : Runs s m Q E) : (m.exec s).1 ≠ .error .panic := by
  intro hx
  rw [Runs] at h
  match m.exec s, h, hx with
  | (.ok a, s'), _, hx => simp at hx
  | (.error (.err e), s'), _, hx => simp at hx

theorem Runs.ne_diverge (h : Runs s m Q E) : (m.exec s).1 ≠ .error .diverge := by
  intro hx
  rw [Runs] at h
  match m.exec s, h, hx with
  | (.ok a, s'), _, hx => simp at hx
  | (.error (.err e), s'), _, hx => simp at hx

theorem runs_get {f : σ → Action σ ε β} {P : β → σ → Prop} (h : Runs s (f s) P E) :
    Runs s (get >>= f) P E := by
  rw [Runs, exec_bind]
  exact h

theorem runs_modify {g : σ → σ} {f : Unit → Action σ ε β} {P : β → σ → Prop}
    (h : Runs (g s) (f ()) P E) : Runs s (modify g >>= f) P E := by
  rw [Runs, exec_bind]
  exact h

theorem runs_modify_last {g : σ → σ} {P : Unit → σ → Prop} (h : P () (g s)) :
    Runs s (modify g) P E := h

theorem runs_failIf {c : Prop} [Decidable c] {e : ε} {f : Unit → Action σ ε β} {P : β → σ → Prop}
    (he : c → E e s) (h : ¬ c → Runs s (f ()) P E) : Runs s (Action.failIf c e >>= f) P E := by
  rw [Runs, exec_bind, Action.failIf]
  by_cases hc : c
  · rw [if_pos hc]
    exact he hc
  · rw [if_neg hc]
    exact h hc

theorem runs_orThrow {g : δ → ε} {x : Except δ α} {f : α → Action σ ε β} {P : β → σ → Prop}
    (hok : ∀ a, x = .ok a → Runs s (f a) P E) (herr : ∀ e, x = .error e → E (g e) s) :
    Runs s (orThrow g x >>= f) P E := by
  rw [Runs, exec_bind]
  cases x with
  | ok a => exact hok a rfl
  | error e => exact herr e rfl

theorem runs_orThrow_last {g : δ → ε} {x : Except δ α} (hok : ∀ a, x = .ok a → Q a s)
    (herr : ∀ e, x = .error e → E (g e) s) : Runs s (orThrow g x) Q E := by
  rw [← bind_pure (orThrow g x)]
  exact runs_orThrow (fun a ha => runs_pure (hok a ha)) herr

theorem exec_query {f : σ → Outcome ε α} : (query f).exec s = (f s, s) := by
  rw [query, exec_bind, exec_get]
  simp only
  cases f s <;> rfl

/-- A call that only reads the state. -/
theorem runs_query {g : σ → Outcome ε α} {f : α → Action σ ε β} {P : β → σ → Prop}
    {R : α → Prop} (h : Ensures (g s) (E · s) R)
    (hok : ∀ a, g s = .ok a → R a → Runs s (f a) P E) : Runs s (query g >>= f) P E := by
  rw [Runs, exec_bind, exec_query]
  rcases hg : g s with (e | _ | _) | a
  · exact h.of_err hg
  · exact absurd hg h.ne_panic
  · exact absurd hg h.ne_diverge
  · exact hok a hg (h.of_ok hg)

/-- A query that returns. -/
theorem runs_query_of_ok {g : σ → Outcome ε α} {f : α → Action σ ε β} {P : β → σ → Prop} {a : α}
    (hg : g s = .ok a) (hr : Runs s (f a) P E) : Runs s (query g >>= f) P E := by
  rw [Runs, exec_bind, exec_query, hg]
  exact hr

theorem runs_query_last {f : σ → Outcome ε α} (h : Ensures (f s) (E · s) (Q · s)) :
    Runs s (query f) Q E := by
  rw [← bind_pure (query f)]
  exact runs_query h fun _ _ hq => runs_pure hq

theorem exec_call {f : σ → Outcome ε σ} {s' : σ} (h : f s = .ok s') :
    (call f).exec s = (.ok (), s') := by
  rw [call, exec_bind, exec_get]
  simp only [h]
  rfl

theorem exec_call_eq_ok {f : σ → Outcome ε σ} {s' : σ} :
    (call f).exec s = (.ok (), s') ↔ f s = .ok s' := by
  refine ⟨fun h => ?_, exec_call⟩
  rw [call, exec_bind, exec_get] at h
  simp only at h
  rcases hf : f s with e | t
  · rw [hf] at h
    cases h
  · rw [hf] at h
    cases h
    rfl

/-- An update that returns. -/
theorem runs_call {g : σ → Outcome ε σ} {f : Unit → Action σ ε β} {P : β → σ → Prop} {t : σ}
    (h : g s = .ok t) (hf : Runs t (f ()) P E) : Runs s (call g >>= f) P E := by
  rw [Runs, exec_bind, exec_call h]
  exact hf

theorem runs_call_last {g : σ → Outcome ε σ} {P : Unit → σ → Prop} {t : σ}
    (h : g s = .ok t) (hP : P () t) : Runs s (call g) P E := by
  rw [Runs, exec_call h]
  exact hP

theorem ensures_noReply {op : τ → Outcome δ τ} {t : τ} {D : δ → Prop} {R : τ → Prop}
    (h : Ensures (op t) D R) : Ensures (noReply op t) D fun r => R r.2 :=
  h.bind fun _ _ hr => ensures_pure.mpr hr

theorem exec_attempt {part : σ → τ} {put : τ → σ → σ} {op : τ → Outcome δ (α × τ)} :
    (attempt part put op : Action σ ε _).exec s = match op (part s) with
      | .ok (a, t) => (.ok (.ok a), put t s)
      | .error (.err e) => (.ok (.error e), s)
      | .error .panic => (.error .panic, s)
      | .error .diverge => (.error .diverge, s) := by
  rw [attempt, exec_bind, exec_get]
  simp only
  rcases op (part s) with (_ | _ | _) | _ <;> rfl

theorem exec_attempt_of_ok {part : σ → τ} {put : τ → σ → σ} {op : τ → Outcome δ (α × τ)} {a : α}
    {t : τ} (h : op (part s) = .ok (a, t)) :
    (attempt part put op : Action σ ε _).exec s = (.ok (.ok a), put t s) := by
  rw [exec_attempt, h]

/-- A call on a part of the state whose error value is passed on, and that returns. -/
theorem exec_attempt_eq_ok {part : σ → τ} {put : τ → σ → σ} {op : τ → Outcome δ (α × τ)} {a : α}
    {s' : σ} (h : (attempt part put op : Action σ ε _).exec s = (.ok (.ok a), s')) :
    ∃ t, op (part s) = .ok (a, t) ∧ s' = put t s := by
  rw [exec_attempt] at h
  rcases hop : op (part s) with (e | _ | _) | ⟨b, t⟩ <;> rw [hop] at h <;> cases h
  exact ⟨t, rfl, rfl⟩

theorem exec_orThrow_eq_ok {g : δ → ε} {x : Except δ α} {a : α} {s' : σ} :
    (orThrow g x : Action σ ε α).exec s = (.ok a, s') ↔ x = .ok a ∧ s' = s := by
  cases x with
  | ok b => simp [orThrow, eq_comm]
  | error e => simp [orThrow]

theorem exec_query_eq_ok {f : σ → Outcome ε α} {a : α} {s' : σ} :
    (query f).exec s = (.ok a, s') ↔ f s = .ok a ∧ s' = s := by
  rw [exec_query, Prod.mk.injEq, eq_comm (a := s)]

/-- A sequence that returns, by its first part. -/
theorem query_bind_eq_ok {g : σ → Outcome ε α} {f : α → Action σ ε β} {b : β} {s' : σ} :
    (query g >>= f).exec s = (.ok b, s') ↔ ∃ a, g s = .ok a ∧ (f a).exec s = (.ok b, s') := by
  rw [exec_bind_eq_ok]
  constructor
  · rintro ⟨a, t, hg, hf⟩
    obtain ⟨hg, hs⟩ := exec_query_eq_ok.mp hg
    exact ⟨a, hg, hs ▸ hf⟩
  · rintro ⟨a, hg, hf⟩
    exact ⟨a, s, exec_query_eq_ok.mpr ⟨hg, rfl⟩, hf⟩

theorem failIf_bind_eq_ok {c : Prop} [Decidable c] {e : ε} {f : Unit → Action σ ε β} {b : β}
    {s' : σ} : (Action.failIf c e >>= f).exec s = (.ok b, s') ↔
      ¬ c ∧ (f ()).exec s = (.ok b, s') := by
  rw [exec_bind, Action.failIf]
  by_cases hc : c
  · simp [hc]
  · simp [hc]

theorem get_bind_eq_ok {f : σ → Action σ ε β} {b : β} {s' : σ} :
    (get >>= f).exec s = (.ok b, s') ↔ (f s).exec s = (.ok b, s') := by
  rw [exec_bind]
  rfl

theorem call_bind_eq_ok {g : σ → Outcome ε σ} {f : Unit → Action σ ε β} {b : β} {s' : σ} :
    (call g >>= f).exec s = (.ok b, s') ↔ ∃ t, g s = .ok t ∧ (f ()).exec t = (.ok b, s') := by
  rw [exec_bind_eq_ok]
  constructor
  · rintro ⟨_, t, hg, hf⟩
    exact ⟨t, exec_call_eq_ok.mp hg, hf⟩
  · rintro ⟨t, hg, hf⟩
    exact ⟨(), t, exec_call hg, hf⟩

/-- A call on a part of the state. -/
theorem runs_attempt {g : σ → τ} {put : τ → σ → σ} {o : τ → Outcome δ (α × τ)}
    {f : Except δ α → Action σ ε β} {P : β → σ → Prop} {D : δ → Prop} {R : α × τ → Prop}
    (h : Ensures (o (g s)) D R)
    (hok : ∀ a t, o (g s) = .ok (a, t) → R (a, t) → Runs (put t s) (f (.ok a)) P E)
    (herr : ∀ e, o (g s) = .error (.err e) → D e → Runs s (f (.error e)) P E) :
    Runs s (attempt g put o >>= f) P E := by
  rw [Runs, exec_bind, exec_attempt]
  rcases hop : o (g s) with (e | _ | _) | ⟨a, t⟩
  · exact herr e hop (h.of_err hop)
  · exact absurd hop h.ne_panic
  · exact absurd hop h.ne_diverge
  · exact hok a t hop (h.of_ok hop)

theorem runs_attempt_last {part : σ → τ} {put : τ → σ → σ} {op : τ → Outcome δ (α × τ)}
    {P : Except δ α → σ → Prop} {D : δ → Prop} {R : α × τ → Prop}
    (h : Ensures (op (part s)) D R)
    (hok : ∀ a t, op (part s) = .ok (a, t) → R (a, t) → P (.ok a) (put t s))
    (herr : ∀ e, op (part s) = .error (.err e) → D e → P (.error e) s) :
    Runs s (attempt part put op) P E := by
  rw [← bind_pure (attempt part put op)]
  exact runs_attempt h (fun a t ht hr => runs_pure (hok a t ht hr))
    fun e he hd => runs_pure (herr e he hd)

theorem exec_onPart {part : σ → τ} {put : τ → σ → σ} {m : Action τ δ α} :
    (onPart part put m : Action σ ε _).exec s = match m.exec (part s) with
      | (.ok a, t) => (.ok (.ok a), put t s)
      | (.error (.err e), t) => (.ok (.error e), put t s)
      | (.error .panic, _) => (.error .panic, s)
      | (.error .diverge, _) => (.error .diverge, s) := by
  rw [onPart, exec_bind, exec_get]
  simp only
  rcases m.exec (part s) with ⟨(_ | _ | _) | _, t⟩ <;> rfl

/-- An action on a part of the state. -/
theorem runs_onPart {g : σ → τ} {put : τ → σ → σ} {o : Action τ δ α}
    {f : Except δ α → Action σ ε β} {P : β → σ → Prop} {R : α → τ → Prop} {D : δ → τ → Prop}
    (h : Runs (g s) o R D)
    (hok : ∀ a t, o.exec (g s) = (.ok a, t) → R a t → Runs (put t s) (f (.ok a)) P E)
    (herr : ∀ e t, o.exec (g s) = (.error (.err e), t) → D e t →
      Runs (put t s) (f (.error e)) P E) :
    Runs s (onPart g put o >>= f) P E := by
  rw [Runs, exec_bind, exec_onPart]
  rcases h.cases with ⟨a, t, hx, hr⟩ | ⟨e, t, hx, hd⟩
  · rw [hx]
    exact hok a t hx hr
  · rw [hx]
    exact herr e t hx hd

/-- A loop, step by step: `f` computes the value and the state that `g` leaves. -/
theorem exec_foldlM {γ : Type} {f : γ → α → Outcome ε γ} {g : β → α → Action σ ε β} {out : γ → β}
    {put : γ → σ}
    (hstep : ∀ c a c', f c a = .ok c' → (g (out c) a).exec (put c) = (.ok (out c'), put c'))
    {l : List α} {c c' : γ} (h : l.foldlM f c = .ok c') :
    (l.foldlM g (out c)).exec (put c) = (.ok (out c'), put c') := by
  induction l generalizing c with
  | nil =>
    obtain rfl : c = c' := Except.ok.inj h
    rfl
  | cons a l ih =>
    rw [List.foldlM_cons] at h ⊢
    obtain ⟨b, hb, h⟩ := bind_eq_ok.mp h
    rw [exec_bind, hstep c a b hb]
    exact ih h

theorem exec_handle {h : ε → Action σ ε α} :
    (handle m h).exec s = match m.exec s with
      | (.error (.err e), s') => (h e).exec s'
      | r => r := by
  simp only [exec, handle, ExceptT.run_mk, StateT.run, bind, StateT.bind]
  rcases (ExceptT.run m) s with ⟨(_ | _ | _) | _, s'⟩ <;> rfl

/-- A handler sees the state in which the error happened. Panics are not caught. -/
theorem runs_handle {h : ε → Action σ ε α} {F : ε → σ → Prop} (hm : Runs s m Q F)
    (hh : ∀ e s', m.exec s = (.error (.err e), s') → F e s' → Runs s' (h e) Q E) :
    Runs s (handle m h) Q E := by
  rw [Runs, exec_handle]
  rw [Runs] at hm
  match hx : m.exec s, hm with
  | (.ok a, s'), hm => exact hm
  | (.error (.err e), s'), hm => exact hh e s' hx hm

/-! ### What an action leaves alone -/

section Fixes

variable {γ : Type} {f : σ → γ}

/-- However the action ends, `f` of the state is what it was. -/
def Fixes (f : σ → γ) (m : Action σ ε α) : Prop := ∀ s, f (m.exec s).2 = f s

theorem fixes_pure {a : α} : Fixes f (pure a : Action σ ε α) := fun _ => rfl

theorem fixes_fail {e : ε} : Fixes f (fail e : Action σ ε α) := fun _ => rfl

theorem fixes_get : Fixes f (get : Action σ ε σ) := fun _ => rfl

theorem fixes_modify {g : σ → σ} (h : ∀ s, f (g s) = f s) :
    Fixes f (modify g : Action σ ε Unit) := h

theorem Fixes.bind {g : α → Action σ ε β} (hm : Fixes f m) (hg : ∀ a, Fixes f (g a)) :
    Fixes f (m >>= g) := by
  intro s
  have hs := hm s
  rw [exec_bind]
  match hx : m.exec s, hs with
  | (.ok a, t), hs => exact (hg a t).trans hs
  | (.error e, t), hs => exact hs

theorem fixes_failIf {c : Prop} [Decidable c] {e : ε} : Fixes f (Action.failIf c e) := by
  rw [Action.failIf]
  by_cases hc : c
  · rw [if_pos hc]
    exact fixes_fail
  · rw [if_neg hc]
    exact fixes_pure

theorem fixes_query {g : σ → Outcome ε α} : Fixes f (query g) := by
  intro s
  rw [exec_query]

theorem fixes_orThrow {g : δ → ε} {x : Except δ α} : Fixes f (orThrow g x) := by
  cases x with
  | ok a => exact fixes_pure
  | error e => exact fixes_fail

theorem fixes_attempt {part : σ → τ} {put : τ → σ → σ} {op : τ → Outcome δ (α × τ)}
    (h : ∀ s a t, op (part s) = .ok (a, t) → f (put t s) = f s) :
    Fixes f (attempt part put op : Action σ ε _) := by
  intro s
  rw [exec_attempt]
  rcases hop : op (part s) with (e | _ | _) | ⟨a, t⟩
  · rfl
  · rfl
  · rfl
  · exact h s a t hop

theorem fixes_onPart {part : σ → τ} {put : τ → σ → σ} {o : Action τ δ α}
    (h : ∀ s t, f (put t s) = f s) : Fixes f (onPart part put o : Action σ ε _) := by
  intro s
  rw [exec_onPart]
  rcases o.exec (part s) with ⟨(_ | _ | _) | _, t⟩
  · exact h s t
  · rfl
  · rfl
  · exact h s t

end Fixes

end Ferric
