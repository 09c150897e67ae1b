import Mathlib.Order.Basic
import Mathlib.Tactic.Common

/-!
# Systems and their reachable states

A `System` is what may hold at the start and which labelled steps are allowed. A claim about
"every state reachable by any sequence of calls" is a claim about `Reachable`, and the only way
such claims are proved here is `Reachable.induction`: the property holds initially and every step
keeps it.

Operations with arbitrary arguments appear as the labels; a ghost variable of a proof (a memory,
a history) is a component of the state that no operation reads.
-/

namespace Ferric

/-- A labelled transition system. -/
structure System (σ α : Type*) where
  /-- What may hold at the start. -/
  init : σ → Prop
  /-- The steps: from a state, by a label, to a state. -/
  step : σ → α → σ → Prop

namespace System

variable {σ α : Type*} {S : System σ α}

/-- The states a run can be in. -/
inductive Reachable (S : System σ α) : σ → Prop
  | init {s : σ} (h : S.init s) : Reachable S s
  | step {s s' : σ} {a : α} (h : Reachable S s) (hs : S.step s a s') : Reachable S s'

/-- **Invariant rule.** The step may use that its source is reachable. -/
theorem Reachable.induction {I : σ → Prop} (hinit : ∀ s, S.init s → I s)
    (hstep : ∀ s a s', S.Reachable s → I s → S.step s a s' → I s') {s : σ}
    (h : S.Reachable s) : I s := by
  induction h with
  | init h => exact hinit _ h
  | step h hs ih => exact hstep _ _ _ h ih hs

end System

end Ferric
