import Ferric.Lib.Outcome
import Mathlib.Data.Vector.Defs

/-!
# Filling an array by index

A loop `while index < stop { array[index] = value; index += 1 }` writes one position after the
other, and the value may depend on what has been written so far. Reads and writes check the index.
When every value is the entry of a given list, the loop does not panic and ends with a beginning of
that list.
-/

namespace Ferric

variable {ε α : Type} {n : ℕ}

/-- `array[index]` -/
def entry (array : Vector α n) (index : ℕ) : Outcome ε α := orPanic array[index]?

/-- `array[index] = value` -/
def put (array : Vector α n) (index : ℕ) (value : α) : Outcome ε (Vector α n) :=
  if h : index < n then .ok (array.set index value h) else .error .panic

/-- The loop over `count` indices from `start` on. -/
def fill (value : Vector α n → ℕ → Outcome ε α) (start count : ℕ) (array : Vector α n) :
    Outcome ε (Vector α n) :=
  (List.range' start count).foldlM (fun array index => do
    put array index (← value array index)) array

theorem entry_eq_ok {array : Vector α n} {index : ℕ} {a : α} :
    (entry array index : Outcome ε α) = .ok a ↔ array[index]? = some a := orPanic_eq_ok

theorem put_of_lt {array : Vector α n} {index : ℕ} {a : α} (h : index < n) :
    (put array index a : Outcome ε _) = .ok (array.set index a) := dif_pos h

/-- A write at the end of a beginning makes it longer. -/
theorem take_set_succ {array : Vector α n} {index : ℕ} {a : α} (h : index < n) :
    (array.set index a).toList.take (index + 1) = array.toList.take index ++ [a] := by
  have hlen : index < array.toList.length := by simpa using h
  rw [Vector.toList_set, List.take_add_one, List.take_set_of_le (Nat.le_refl _),
    List.getElem?_set_self hlen]
  rfl

/-- The beginnings of an array and of a list are the same. -/
def Agrees (array : Vector α n) (l : List α) (index : ℕ) : Prop :=
  ∀ i < index, array[i]? = l[i]?

theorem Agrees.zero (array : Vector α n) (l : List α) : Agrees array l 0 :=
  fun i hi => absurd hi (Nat.not_lt_zero i)

theorem Agrees.take {array : Vector α n} {l : List α} {index : ℕ} (h : Agrees array l index) :
    array.toList.take index = l.take index := by
  refine List.ext_getElem? fun i => ?_
  rw [List.getElem?_take, List.getElem?_take]
  split
  · next hi =>
    rw [← h i hi]
    simp
  · rfl

/-- An array that agrees with a list of its length. -/
theorem Agrees.toList {array : Vector α n} {l : List α} (h : Agrees array l n)
    (hl : l.length = n) : array.toList = l := by
  have htake := h.take
  rwa [List.take_of_length_le (by simp), List.take_of_length_le (by omega)] at htake

/-- **Loop rule.** An invariant indexed by the counter. -/
theorem foldlM_range'_ok {σ : Type} {f : σ → ℕ → Outcome ε σ} {I : ℕ → σ → Prop}
    {start count : ℕ} {s : σ} (h : I start s)
    (hstep : ∀ index s, start ≤ index → index < start + count → I index s →
      ∃ s', f s index = .ok s' ∧ I (index + 1) s') :
    ∃ s', (List.range' start count).foldlM f s = .ok s' ∧ I (start + count) s' := by
  induction count generalizing start s with
  | zero => exact ⟨s, rfl, h⟩
  | succ count ih =>
    obtain ⟨s', hs', hnext⟩ := hstep start s (Nat.le_refl _) (by omega) h
    obtain ⟨last, hlast, hend⟩ := ih hnext fun index s hle hlt =>
      hstep index s (by omega) (by omega)
    refine ⟨last, ?_, ?_⟩
    · rw [List.range'_succ, List.foldlM_cons, hs', ok_bind]
      exact hlast
    · rwa [Nat.add_comm count 1, ← Nat.add_assoc]

/-- A loop of checks passes when every check does. -/
theorem forM_eq_ok {β : Type} {f : β → Outcome ε Unit} {l : List β} :
    l.forM f = .ok () ↔ ∀ b ∈ l, f b = .ok () := by
  induction l with
  | nil => exact ⟨fun _ b hb => absurd hb (List.not_mem_nil), fun _ => rfl⟩
  | cons b l ih =>
    show (f b >>= fun _ => l.forM f) = .ok () ↔ _
    rw [bind_eq_ok]
    constructor
    · rintro ⟨u, hb, hl⟩ c hc
      rcases List.mem_cons.mp hc with rfl | hc
      · exact hb
      · exact ih.mp hl c hc
    · exact fun h => ⟨(), h b List.mem_cons_self, ih.mpr fun c hc => h c (.tail _ hc)⟩

/-- Checks of the entries from `start` on. -/
theorem forM_entry_eq_ok {p : ℕ → α → Prop} [∀ i a, Decidable (p i a)] {e : ε} {array : Vector α n}
    {start count : ℕ} (h : start + count ≤ n) :
    ((List.range' start count).forM fun index => do
        failIf (p index (← entry array index)) e) = .ok () ↔
      ∀ i, start ≤ i → i < start + count → ∀ a ∈ array[i]?, ¬ p i a := by
  rw [forM_eq_ok]
  constructor
  · intro hall i hle hlt a ha
    have hcheck := hall i (List.mem_range'_1.mpr ⟨hle, hlt⟩)
    rw [entry_eq_ok.mpr ha, ok_bind, failIf_eq_ok] at hcheck
    exact hcheck
  · intro hall i hi
    obtain ⟨hle, hlt⟩ := List.mem_range'_1.mp hi
    have hin : i < n := by omega
    have hentry : array[i]? = some array[i] := Vector.getElem?_eq_getElem hin
    rw [entry_eq_ok.mpr hentry, ok_bind, failIf_eq_ok]
    exact hall i hle hlt _ hentry

/-- **Filling**, from a beginning of the list to a longer one. What the loop has not reached is as
it was. -/
theorem fill_ok {value : Vector α n → ℕ → Outcome ε α} {l : List α} {start count : ℕ}
    {array : Vector α n} (h : Agrees array l start) (hn : start + count ≤ n)
    (hvalue : ∀ array' index, start ≤ index → index < start + count → Agrees array' l index →
      array'[index]? = array[index]? → ∃ a, value array' index = .ok a ∧ l[index]? = some a) :
    ∃ array', fill value start count array = .ok array' ∧ Agrees array' l (start + count) := by
  suffices hrun : ∃ array', fill value start count array = .ok array' ∧
      Agrees array' l (start + count) ∧ ∀ i, start + count ≤ i → array'[i]? = array[i]? by
    obtain ⟨array', hfill, hagrees, -⟩ := hrun
    exact ⟨array', hfill, hagrees⟩
  refine foldlM_range'_ok (I := fun index array' => Agrees array' l index ∧
    ∀ i, index ≤ i → array'[i]? = array[i]?) ⟨h, fun i _ => rfl⟩ ?_
  · rintro index array' hle hlt ⟨hagrees, hrest⟩
    obtain ⟨a, ha, hl⟩ := hvalue array' index hle hlt hagrees (hrest index (Nat.le_refl _))
    have hindex : index < n := by omega
    refine ⟨array'.set index a, ?_, ?_, ?_⟩
    · rw [ha, ok_bind, put_of_lt hindex]
    · intro i hi
      rcases Nat.lt_succ_iff_lt_or_eq.mp hi with hi | rfl
      · rw [Vector.getElem?_set_ne _ (by omega), hagrees i hi]
      · rw [Vector.getElem?_set_self, hl]
    · intro i hi
      rw [Vector.getElem?_set_ne _ (by omega), hrest i (by omega)]

end Ferric
