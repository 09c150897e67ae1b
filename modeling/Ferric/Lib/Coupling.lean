import Ferric.Lib.Action

/-!
# One action in two states

What an action does must often not depend on all of the state it is started in. `Coupled s t m Q E`
compares its runs from two states: both return the same result, in states related by `Q`, or both
end with the same fault, in states related by `E`.

## Main definitions

* `Coupled` — the two runs agree

## Main results

* `Coupled.bind` — sequences
* `Coupled.cases` — what coupled runs are
-/

namespace Ferric

open Ferric.Action

variable {σ ε α β : Type}

/-- Started in `s` and in `t`, the action ends alike: both runs return the same value, with `Q`, or
both fail with the same fault, with `E`. -/
def Coupled (s t : σ) (m : Action σ ε α) (Q : α → σ → σ → Prop) (E : σ → σ → Prop) : Prop :=
  match m.exec s, m.exec t with
  | (.ok a, s'), (.ok b, t') => a = b ∧ Q a s' t'
  | (.error e, s'), (.error f, t') => e = f ∧ E s' t'
  | (.ok _, _), (.error _, _) => False
  | (.error _, _), (.ok _, _) => False

variable {s t : σ} {m : Action σ ε α} {Q : α → σ → σ → Prop} {E : σ → σ → Prop}

theorem coupled_of_ok {a : α} {s' t' : σ} (hs : m.exec s = (.ok a, s'))
    (ht : m.exec t = (.ok a, t'))
    (h : Q a s' t') : Coupled s t m Q E := by
  rw [Coupled, hs, ht]
  exact ⟨rfl, h⟩

theorem coupled_of_error {e : Fault ε} {s' t' : σ} (hs : m.exec s = (.error e, s'))
    (ht : m.exec t = (.error e, t')) (h : E s' t') : Coupled s t m Q E := by
  rw [Coupled, hs, ht]
  exact ⟨rfl, h⟩

/-- The two ways in which coupled runs end. -/
theorem Coupled.cases (h : Coupled s t m Q E) :
    (∃ a s' t', m.exec s = (.ok a, s') ∧ m.exec t = (.ok a, t') ∧ Q a s' t') ∨
      ∃ e s' t', m.exec s = (.error e, s') ∧ m.exec t = (.error e, t') ∧ E s' t' := by
  rw [Coupled] at h
  match hs : m.exec s, ht : m.exec t, h with
  | (.ok a, s'), (.ok _, t'), ⟨rfl, h⟩ => exact .inl ⟨a, s', t', rfl, rfl, h⟩
  | (.error e, s'), (.error _, t'), ⟨rfl, h⟩ => exact .inr ⟨e, s', t', rfl, rfl, h⟩

theorem coupled_pure {a : α} (h : Q a s t) : Coupled s t (pure a : Action σ ε α) Q E := ⟨rfl, h⟩

/-- The continuations are coupled in the states that the first part leaves. -/
theorem Coupled.bind {f : α → Action σ ε β} {P : β → σ → σ → Prop} {F : σ → σ → Prop}
    (hm : Coupled s t m Q E) (hE : ∀ s' t', E s' t' → F s' t')
    (hf : ∀ a s' t', Q a s' t' → Coupled s' t' (f a) P F) : Coupled s t (m >>= f) P F := by
  rcases hm.cases with ⟨a, s', t', hs, ht, h⟩ | ⟨e, s', t', hs, ht, h⟩
  · have hnext := hf a s' t' h
    rwa [Coupled, ← exec_bind_of_ok hs, ← exec_bind_of_ok ht] at hnext
  · have hs' : (m >>= f).exec s = (.error e, s') := by rw [exec_bind, hs]
    have ht' : (m >>= f).exec t = (.error e, t') := by rw [exec_bind, ht]
    exact coupled_of_error hs' ht' (hE s' t' h)

theorem Coupled.mono {Q' : α → σ → σ → Prop} {E' : σ → σ → Prop} (h : Coupled s t m Q E)
    (hQ : ∀ a s' t', Q a s' t' → Q' a s' t') (hE : ∀ s' t', E s' t' → E' s' t') :
    Coupled s t m Q' E' := by
  rcases h.cases with ⟨a, s', t', hs, ht, h⟩ | ⟨e, s', t', hs, ht, h⟩
  · exact coupled_of_ok hs ht (hQ a s' t' h)
  · exact coupled_of_error hs ht (hE s' t' h)

theorem coupled_modify {g : σ → σ} {f : Unit → Action σ ε β} {P : β → σ → σ → Prop}
    (h : Coupled (g s) (g t) (f ()) P E) : Coupled s t (modify g >>= f) P E := by
  rw [Coupled, exec_bind_of_ok exec_modify, exec_bind_of_ok exec_modify]
  exact h

/-- A call that reads the same from both states. -/
theorem coupled_query {g : σ → Outcome ε α} {f : α → Action σ ε β} {P : β → σ → σ → Prop}
    (hg : g s = g t) (herror : (∀ a, g s ≠ .ok a) → E s t)
    (hok : ∀ a, g s = .ok a → Coupled s t (f a) P E) : Coupled s t (query g >>= f) P E := by
  have hboth : ∀ r, g s = r → (query g).exec s = (r, s) ∧ (query g).exec t = (r, t) := by
    rintro r rfl
    rw [exec_query, exec_query, hg]
    exact ⟨rfl, rfl⟩
  cases hr : g s with
  | ok a =>
    have hnext := hok a hr
    rwa [Coupled, ← exec_bind_of_ok (hboth _ hr).1, ← exec_bind_of_ok (hboth _ hr).2] at hnext
  | error e =>
    have hs : (query g >>= f).exec s = (.error e, s) := by rw [exec_bind, (hboth _ hr).1]
    have ht : (query g >>= f).exec t = (.error e, t) := by rw [exec_bind, (hboth _ hr).2]
    exact coupled_of_error hs ht (herror fun a h => by cases hr.symm.trans h)

theorem coupled_query_last {g : σ → Outcome ε α} (hg : g s = g t)
    (herror : (∀ a, g s ≠ .ok a) → E s t) (hok : ∀ a, g s = .ok a → Q a s t) :
    Coupled s t (query g) Q E := by
  rw [← bind_pure (query g)]
  exact coupled_query hg herror fun a ha => coupled_pure (hok a ha)

theorem coupled_failIf {c : Prop} [Decidable c] {e : ε} {f : Unit → Action σ ε β}
    {P : β → σ → σ → Prop} (herror : c → E s t) (hok : ¬ c → Coupled s t (f ()) P E) :
    Coupled s t (Action.failIf c e >>= f) P E := by
  rw [Action.failIf]
  by_cases h : c
  · rw [if_pos h]
    exact ⟨rfl, herror h⟩
  · rw [if_neg h]
    exact hok h

end Ferric
