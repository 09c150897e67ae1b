import Ferric.WeightStream.Model
import Ferric.Lib.Lists
import Ferric.Safetensors.Admission
import Mathlib.Tactic.IntervalCases

/-!
# The layout of a persisted manifest

`validate_persisted_sections` walks through the sections once, with one cursor for each pinned file.
It accepts exactly the lists whose sections are of the right kind, name the tensors of the roster
each once, and lie behind each other from the first data byte of the first file to the last byte of
the last.

## Main results

* `Coverage.section_eq_ok` — one round
* `validatePersistedSections_eq_ok` — all of them
-/

namespace Ferric

namespace WeightStream

open Safetensors (roster canonicalName classifyTensorName classifyTensorName_ensures)
open Spec (ModelRole TensorKind TensorMetadata TensorDType)

variable {role : ModelRole}

/-! ### What is accepted -/

/-- A section on its own: its authority, its tensor, and its lengths. -/
structure WeightSection.Admitted (role : ModelRole) (s : WeightSection) : Prop where
  role_eq : s.role = role
  alignment : s.alignment = sectionAlignment
  sha256 : s.sha256 ≠ .zero 32
  metadata : ∃ m, s.qwen3Metadata = .ok m
  sourceLength : s.sourceLength.toNat = s.dimension0.toNat * s.dimension1.toNat * 2
  destinationLength : s.destinationLength.toNat = s.dimension0.toNat * s.dimension1.toNat * 2
  even : s.sourceOffset % sectionAlignment = 0

/-- The ordinal of the tensor of a section. -/
def WeightSection.ordinal (s : WeightSection) : ℕ :=
  match s.qwen3Metadata with
  | .ok (_, ordinal) => ordinal
  | .error _ => Safetensors.u32Max

/-- Where the data of a pinned file starts and ends. -/
def FilePin.dataStart (pin : FilePin) : ℕ := 8 + pin.headerBytes.toNat

def FilePin.dataEnd (pin : FilePin) : ℕ := pin.fileBytes.toNat

/-- Sections of one file behind each other, from one offset to another. -/
def Spans (pin : FilePin) : ℕ → List WeightSection → ℕ → Prop
  | a, [], b => a = b
  | a, s :: sections, b => s.sourceArtifact = pin.name ∧ s.sourceOffset.toNat = a ∧
      0 < s.sourceLength.toNat ∧ Spans pin (a + s.sourceLength.toNat) sections b

/-- The sections cover the data of the files, one file after the other. -/
def CoversFiles : List FilePin → List WeightSection → Prop
  | [], sections => sections = []
  | pin :: pins, sections => ∃ group rest, sections = group ++ rest ∧
      Spans pin pin.dataStart group pin.dataEnd ∧ CoversFiles pins rest

theorem Spans.le {pin : FilePin} {a b : ℕ} {sections : List WeightSection}
    (h : Spans pin a sections b) : a ≤ b := by
  induction sections generalizing a with
  | nil => exact le_of_eq h
  | cons s sections ih =>
    have hle := ih h.2.2.2
    omega

theorem FilePin.dataStart_lt (role : ModelRole) (pin : FilePin) (h : pin ∈ filePins role) :
    pin.dataStart < pin.dataEnd := by
  have hall : ∀ role, ∀ pin ∈ filePins role, pin.dataStart < pin.dataEnd := by
    intro role
    cases role <;> decide +kernel
  exact hall role pin h

theorem CoversFiles.eq_nil {pins : List FilePin} (hpins : ∀ pin ∈ pins, pin.dataStart < pin.dataEnd)
    (h : CoversFiles pins []) : pins = [] := by
  cases pins with
  | nil => rfl
  | cons pin pins =>
    obtain ⟨group, rest, hnil, hspans, -⟩ := h
    obtain ⟨rfl, rfl⟩ := List.append_eq_nil_iff.mp hnil.symm
    exact absurd hspans (hpins pin List.mem_cons_self).ne

theorem Spans.append {pin : FilePin} {a b d : ℕ} {l m : List WeightSection} (hl : Spans pin a l b)
    (hm : Spans pin b m d) : Spans pin a (l ++ m) d := by
  induction l generalizing a with
  | nil => exact (show a = b from hl) ▸ hm
  | cons s l ih => exact ⟨hl.1, hl.2.1, hl.2.2.1, ih hl.2.2.2⟩

theorem CoversFiles.append {pins : List FilePin} {pin : FilePin}
    {sections group : List WeightSection}
    (h : CoversFiles pins sections) (hgroup : Spans pin pin.dataStart group pin.dataEnd) :
    CoversFiles (pins ++ [pin]) (sections ++ group) := by
  induction pins generalizing sections with
  | nil =>
    obtain rfl : sections = [] := h
    exact ⟨group, [], by simp, hgroup, rfl⟩
  | cons first pins ih =>
    obtain ⟨done, rest, rfl, hdone, hrest⟩ := h
    exact ⟨done, rest ++ group, List.append_assoc .., hdone, ih hrest⟩

/-! ### One round -/

/-- The names of the pinned files of a role are told apart. -/
theorem persistedSourcePin_eq_some {name : String} {i : ℕ} {pin : FilePin} :
    persistedSourcePin role name = some (i, pin) ↔
      (filePins role)[i]? = some pin ∧ pin.name = name := by
  cases role with
  | target8B =>
    rw [persistedSourcePin, filePins, Option.map_eq_some_iff]
    constructor
    · rintro ⟨⟨pin', j⟩, hfind, hpair⟩
      obtain ⟨rfl, rfl⟩ := Prod.mk.inj hpair
      have hmem := List.mem_of_find?_eq_some hfind
      exact ⟨List.mem_zipIdx_iff_getElem?.mp hmem, by simpa using List.find?_some hfind⟩
    · rintro ⟨hi, rfl⟩
      obtain ⟨hlt, rfl⟩ := List.getElem?_eq_some_iff.mp hi
      have hlt' : i < 5 := hlt
      refine ⟨(targetShardPins[i], i), ?_, rfl⟩
      interval_cases i <;> rfl
  | draft06B =>
    rw [persistedSourcePin, filePins]
    constructor
    · intro h
      split at h
      · obtain ⟨rfl, rfl⟩ := Prod.mk.inj (Option.some.inj h)
        next hname => exact ⟨rfl, hname.symm⟩
      · cases h
    · rintro ⟨hi, rfl⟩
      obtain ⟨hlt, rfl⟩ := List.getElem?_eq_some_iff.mp hi
      obtain rfl : i = 0 := Nat.lt_one_iff.mp hlt
      exact if_pos rfl

/-- The state after a section whose file is the `i`-th one. -/
def Coverage.advance (role : ModelRole) (c : Coverage) (i : ℕ) (pin : FilePin) (s : WeightSection) :
    Coverage :=
  let cursor := s.sourceOffset.toNat + s.sourceLength.toNat
  ⟨c.seen.set s.ordinal true, c.sourceCursors.set i cursor,
    if role = .target8B ∧ cursor = pin.dataEnd then c.expectedTargetSource + 1
    else c.expectedTargetSource⟩

/-- **One round.** -/
theorem Coverage.section_eq_ok {c c' : Coverage} {s : WeightSection} :
    Coverage.section role c s = .ok c' ↔ s.Admitted role ∧ c.seen[s.ordinal]? = some false ∧
      ∃ i pin, (filePins role)[i]? = some pin ∧ pin.name = s.sourceArtifact ∧
        (role = .target8B → i = c.expectedTargetSource) ∧
        c.sourceCursors[i]? = some s.sourceOffset.toNat ∧
        s.sourceOffset.toNat + s.sourceLength.toNat ≤ pin.dataEnd ∧
        c' = c.advance role i pin s := by
  have hdims : s.dimension0.toNat * s.dimension1.toNat < 2 ^ 64 := by
    have h₀ := s.dimension0.toNat_lt
    have h₁ := s.dimension1.toNat_lt
    calc s.dimension0.toNat * s.dimension1.toNat < 2 ^ 32 * 2 ^ 32 := Nat.mul_lt_mul'' h₀ h₁
      _ = 2 ^ 64 := by decide
  have hlength : s.sourceLength.toNat < 2 ^ 64 := s.sourceLength.toNat_lt
  have hexpected (a : ℕ) : (checkedMul 64 s.dimension0.toNat s.dimension1.toNat >>=
      fun elements => checkedMul 64 elements 2) = some a ↔
        s.dimension0.toNat * s.dimension1.toNat * 2 < 2 ^ 64 ∧
          s.dimension0.toNat * s.dimension1.toNat * 2 = a := by
    simp only [Option.bind_eq_bind, Option.bind_eq_some_iff, checkedMul_eq_some]
    constructor
    · rintro ⟨_, ⟨-, rfl⟩, h⟩
      exact h
    · exact fun h => ⟨_, ⟨hdims, rfl⟩, h⟩
  simp only [Coverage.section, bind_eq_ok, failIf_eq_ok, mapErr_eq_ok, orErr_eq_ok, Prod.exists,
    checkedAdd_eq_some, persistedSourcePin_eq_some, hexpected, not_or, not_not, not_and]
  constructor
  · rintro ⟨-, ⟨hrole, -, -, halignment, hsha⟩, m, ord, hm, entry, hentry, -, hnew, _, ⟨-, rfl⟩, -,
      ⟨hsource, hdestination⟩, i, pin, ⟨hi, hname⟩, -, hindex, _, hcursor, -, ⟨rfl, heven⟩, _,
      ⟨-, rfl⟩, -, hle, h⟩
    have hord : s.ordinal = ord := by rw [WeightSection.ordinal, hm]
    rw [Bool.not_eq_true] at hnew
    subst hnew
    refine ⟨⟨hrole, halignment, hsha, ⟨_, hm⟩, hsource, hdestination, heven⟩, hord ▸ hentry, i, pin,
      hi, hname, hindex, hcursor, not_lt.mp hle, ?_⟩
    rw [Coverage.advance, hord, FilePin.dataEnd]
    split at h
    · obtain ⟨n, hn, h⟩ := bind_eq_ok.mp h
      obtain ⟨-, rfl⟩ := checkedAdd_eq_some.mp (orErr_eq_ok.mp hn)
      rw [if_pos ‹_›]
      exact (Except.ok.inj h).symm
    · rw [if_neg ‹_›]
      exact (Except.ok.inj h).symm
  · rintro ⟨hs, hentry, i, pin, hi, hname, hindex, hcursor, hle, rfl⟩
    obtain ⟨⟨m, ord⟩, hm⟩ := hs.metadata
    have hord : s.ordinal = ord := by rw [WeightSection.ordinal, hm]
    have hfits : pin.dataEnd < 2 ^ 64 := pin.fileBytes.toNat_lt
    refine ⟨(), ⟨hs.role_eq, by cases s.dtype; trivial, by cases s.transform; trivial, hs.alignment,
      hs.sha256⟩, m, ord, hm, false, hord ▸ hentry, (), by simp, _,
      ⟨hs.sourceLength ▸ hlength, rfl⟩,
      (), ⟨hs.sourceLength, hs.destinationLength⟩, i, pin, ⟨hi, hname⟩, (), hindex, _, hcursor, (),
      ⟨rfl, hs.even⟩, _, ⟨by omega, rfl⟩, (), not_lt.mpr hle, ?_⟩
    rw [Coverage.advance, hord, FilePin.dataEnd]
    split
    · next htarget =>
      have hsmall : c.expectedTargetSource < 5 := by
        obtain ⟨rfl, -⟩ := htarget
        exact hindex rfl ▸ (List.getElem?_eq_some_iff.mp hi).1
      refine bind_eq_ok.mpr ⟨c.expectedTargetSource + 1, ?_, rfl⟩
      exact orErr_eq_ok.mpr (checkedAdd_eq_some.mpr ⟨by omega, rfl⟩)
    · rfl

/-! ### Tensors have elements -/

theorem dimensions_of_validate {m : TensorMetadata} (h : m.validate = .ok ()) :
    (0 < m.dimension0 ∧ m.dimension0 < 2 ^ 32) ∧ 0 < m.dimension1 ∧ m.dimension1 < 2 ^ 32 := by
  have hshape {rank d₀ d₁ : ℕ} (hd : (0 < d₀ ∧ d₀ < 2 ^ 32) ∧ 0 < d₁ ∧ d₁ < 2 ^ 32)
      (h : m.requireShape rank d₀ d₁ = .ok ()) :
      (0 < m.dimension0 ∧ m.dimension0 < 2 ^ 32) ∧ 0 < m.dimension1 ∧ m.dimension1 < 2 ^ 32 := by
    obtain ⟨-, -, h⟩ := bind_eq_ok.mp h
    obtain ⟨h₀, h₁⟩ := not_or.mp (failIf_eq_ok.mp h)
    rw [not_not.mp h₀, not_not.mp h₁]
    exact hd
  have hglobal {rank d₀ d₁ : ℕ} (hd : (0 < d₀ ∧ d₀ < 2 ^ 32) ∧ 0 < d₁ ∧ d₁ < 2 ^ 32)
      (h : m.requireGlobalShape rank d₀ d₁ = .ok ()) :
      (0 < m.dimension0 ∧ m.dimension0 < 2 ^ 32) ∧ 0 < m.dimension1 ∧ m.dimension1 < 2 ^ 32 := by
    obtain ⟨_, -, h⟩ := bind_eq_ok.mp h
    exact hshape hd h
  have hlayer {layers rank d₀ d₁ : ℕ} (hd : (0 < d₀ ∧ d₀ < 2 ^ 32) ∧ 0 < d₁ ∧ d₁ < 2 ^ 32)
      (h : m.requireLayerShape layers rank d₀ d₁ = .ok ()) :
      (0 < m.dimension0 ∧ m.dimension0 < 2 ^ 32) ∧ 0 < m.dimension1 ∧ m.dimension1 < 2 ^ 32 := by
    obtain ⟨_, -, h⟩ := bind_eq_ok.mp h
    exact hshape hd h
  rw [TensorMetadata.validate] at h
  split at h <;> split at h
  all_goals first
    | exact hglobal (by decide) h
    | exact hlayer (by decide) h

/-- What an accepted tensor name and shape say. -/
theorem WeightSection.qwen3Metadata_eq_ok {s : WeightSection} {m : TensorMetadata} {ord : ℕ}
    (h : s.qwen3Metadata = .ok (m, ord)) :
    (m.kind, m.layer) ∈ roster s.role ∧ s.tensorName = canonicalName (m.kind, m.layer) ∧
      ord = Safetensors.ordinal s.role (m.kind, m.layer) ∧ m.validate = .ok () ∧
      m.dimension0 = s.dimension0.toNat ∧ m.dimension1 = s.dimension1.toNat := by
  obtain ⟨⟨kind, layer, ord'⟩, hclass, h⟩ := bind_eq_ok.mp h
  obtain ⟨hmem, hname, hordinal⟩ := (classifyTensorName_ensures s.role s.tensorName).of_ok hclass
  obtain ⟨⟨⟩, hvalid, h⟩ := bind_eq_ok.mp h
  obtain ⟨rfl, rfl⟩ := Prod.mk.inj (Except.ok.inj h)
  exact ⟨hmem, hname, hordinal, mapErr_eq_ok.mp hvalid, rfl, rfl⟩

theorem WeightSection.Admitted.sourceLength_pos {s : WeightSection} (h : s.Admitted role) :
    0 < s.sourceLength.toNat := by
  obtain ⟨⟨m, ord⟩, hm⟩ := h.metadata
  obtain ⟨-, -, -, hvalid, h₀, h₁⟩ := s.qwen3Metadata_eq_ok hm
  obtain ⟨⟨hpos₀, -⟩, hpos₁, -⟩ := dimensions_of_validate hvalid
  rw [h.sourceLength, ← h₀, ← h₁]
  exact Nat.mul_pos (Nat.mul_pos hpos₀ hpos₁) (by decide)

/-! ### The walk -/

/-- The marks of the ordinals that were seen. -/
def seenOf (ords : List ℕ) : List Bool := tabulate 399 fun i => decide (i ∈ ords)

theorem seenOf_eq_some_false {ords : List ℕ} {o : ℕ} :
    (seenOf ords)[o]? = some false ↔ o < 399 ∧ o ∉ ords := by
  by_cases ho : o < 399
  · rw [seenOf, getElem?_tabulate _ ho]
    simp [ho]
  · rw [seenOf, List.getElem?_eq_none (by simpa using ho)]
    simp [ho]

theorem set_seenOf (ords : List ℕ) (o : ℕ) : (seenOf ords).set o true = seenOf (ords ++ [o]) := by
  rw [seenOf, set_tabulate, seenOf]
  congr 1
  funext i
  by_cases hi : i = o <;> simp [hi]

/-- The walk is within a file: the files before are done, the files behind have not begun. -/
structure Within (role : ModelRole) (c : Coverage) (ords : List ℕ) (fin : List FilePin)
    (pin : FilePin) (rest : List FilePin) (cursor : ℕ) (pad : List ℕ) : Prop where
  seen : c.seen = seenOf ords
  nodup : ords.Nodup
  pins : filePins role = fin ++ pin :: rest
  cursors : c.sourceCursors =
    fin.map FilePin.dataEnd ++ cursor :: (rest.map FilePin.dataStart ++ pad)
  expected : c.expectedTargetSource = fin.length
  le : cursor ≤ pin.dataEnd
  lt : role = .target8B → cursor < pin.dataEnd

/-- The walk is behind the last file. -/
structure Finished (role : ModelRole) (c : Coverage) (ords : List ℕ) (pad : List ℕ) : Prop where
  target : role = .target8B
  seen : c.seen = seenOf ords
  nodup : ords.Nodup
  cursors : c.sourceCursors = (filePins role).map FilePin.dataEnd ++ pad
  expected : c.expectedTargetSource = (filePins role).length

variable {c c' : Coverage} {ords pad : List ℕ} {fin rest : List FilePin} {pin : FilePin}
  {cursor : ℕ} {s : WeightSection}

/-- The sections that a walk accepts, from where it is to the end of the last file. -/
structure Accepts (role : ModelRole) (ords : List ℕ) (pin : FilePin) (cursor : ℕ)
    (rest : List FilePin) (todo : List WeightSection) : Prop where
  admitted : ∀ s ∈ todo, s.Admitted role
  bound : ∀ s ∈ todo, s.ordinal < 399
  nodup : (ords ++ todo.map WeightSection.ordinal).Nodup
  covers : ∃ group later, todo = group ++ later ∧ Spans pin cursor group pin.dataEnd ∧
    CoversFiles rest later

/-- All cursors are at the ends of their files, as the last check has it. -/
def Coverage.AtEnds (role : ModelRole) (c : Coverage) : Prop :=
  ((c.sourceCursors.zip (filePins role)).all fun (cursor, pin) => cursor = pin.fileBytes.toNat) =
    true

/-- The walk over some sections ends behind the last file. -/
def Walks (role : ModelRole) (c : Coverage) (todo : List WeightSection) : Prop :=
  ∃ c', todo.foldlM (Coverage.section role) c = .ok c' ∧ c'.AtEnds role

theorem walks_cons {todo : List WeightSection} : Walks role c (s :: todo) ↔
    ∃ c', Coverage.section role c s = .ok c' ∧ Walks role c' todo := by
  simp only [Walks, List.foldlM_cons, bind_eq_ok]
  constructor
  · rintro ⟨c'', ⟨c', hs, hfold⟩, h⟩
    exact ⟨c', hs, c'', hfold, h⟩
  · rintro ⟨c', hs, c'', hfold, h⟩
    exact ⟨c'', ⟨c', hs, hfold⟩, h⟩

/-- Files that are done are at their ends. -/
theorem zip_ends {pins rest : List FilePin} {cursors : List ℕ} :
    ((pins.map FilePin.dataEnd ++ cursors).zip (pins ++ rest)).all
      (fun (cursor, pin) => cursor = pin.fileBytes.toNat) =
    (cursors.zip rest).all fun (cursor, pin) => cursor = pin.fileBytes.toNat := by
  induction pins with
  | nil => rfl
  | cons pin pins ih =>
    rw [List.map_cons, List.cons_append, List.cons_append, List.zip_cons_cons, List.all_cons, ih]
    simp [FilePin.dataEnd]

/-- Within a file, all cursors are at the ends when this is the end of the last file. -/
theorem Within.atEnds_iff (h : Within role c ords fin pin rest cursor pad) :
    c.AtEnds role ↔ cursor = pin.dataEnd ∧ rest = [] := by
  rw [Coverage.AtEnds, h.cursors, h.pins, zip_ends, List.zip_cons_cons, List.all_cons]
  simp only [Bool.and_eq_true, decide_eq_true_eq]
  refine and_congr_right fun _ => ?_
  cases hr : rest with
  | nil => simp
  | cons next later =>
    have hstart := FilePin.dataStart_lt role next (by rw [h.pins, hr]; simp)
    rw [List.map_cons, List.cons_append, List.zip_cons_cons, List.all_cons]
    have hne : decide (next.dataStart = next.fileBytes.toNat) = false :=
      decide_eq_false hstart.ne
    simp [hne]

/-- Within a file, a section is accepted if it is the next one of that file. -/
theorem Within.section_eq_ok (h : Within role c ords fin pin rest cursor pad) :
    Coverage.section role c s = .ok c' ↔ s.Admitted role ∧ s.ordinal < 399 ∧ s.ordinal ∉ ords ∧
      s.sourceArtifact = pin.name ∧ s.sourceOffset.toNat = cursor ∧
      cursor + s.sourceLength.toNat ≤ pin.dataEnd ∧ c' = c.advance role fin.length pin s := by
  have hcursor : c.sourceCursors[fin.length]? = some cursor := by
    rw [h.cursors, List.getElem?_append_right (by simp)]
    simp
  have hpin : (filePins role)[fin.length]? = some pin := by
    rw [h.pins, List.getElem?_append_right le_rfl]
    simp
  rw [Coverage.section_eq_ok, h.seen, seenOf_eq_some_false]
  constructor
  · rintro ⟨hs, ⟨hbound, hnew⟩, i, pin', hi, hname, hindex, hoffset, hle, rfl⟩
    have hplace : i = fin.length := by
      cases role with
      | target8B => exact (hindex rfl).trans h.expected
      | draft06B =>
        have hlength := congrArg List.length h.pins
        have hlt : i < 1 := (List.getElem?_eq_some_iff.mp hi).1
        simp only [filePins, List.length_append, List.length_cons, List.length_nil] at hlength
        omega
    subst hplace
    obtain rfl : pin' = pin := Option.some.inj (hi.symm.trans hpin)
    have hoff : s.sourceOffset.toNat = cursor := Option.some.inj (hoffset.symm.trans hcursor)
    exact ⟨hs, hbound, hnew, hname.symm, hoff, hoff ▸ hle, rfl⟩
  · rintro ⟨hs, hbound, hnew, hname, hoffset, hle, rfl⟩
    exact ⟨hs, ⟨hbound, hnew⟩, fin.length, pin, hpin, hname.symm, fun _ => h.expected.symm,
      hoffset ▸ hcursor, hoffset ▸ hle, rfl⟩

/-- Where the walk is after the section: further in the file, or in the next one. -/
theorem Within.advance (h : Within role c ords fin pin rest cursor pad)
    (hnew : s.ordinal ∉ ords) (hoffset : s.sourceOffset.toNat = cursor)
    (hle : cursor + s.sourceLength.toNat ≤ pin.dataEnd) :
    (cursor + s.sourceLength.toNat = pin.dataEnd ∧
      (rest = [] ∧ Finished role (c.advance role fin.length pin s) (ords ++ [s.ordinal]) pad ∨
        ∃ next later, rest = next :: later ∧ Within role (c.advance role fin.length pin s)
          (ords ++ [s.ordinal]) (fin ++ [pin]) next later next.dataStart pad)) ∨
    ¬ (role = .target8B ∧ cursor + s.sourceLength.toNat = pin.dataEnd) ∧
      Within role (c.advance role fin.length pin s) (ords ++ [s.ordinal]) fin pin rest
        (cursor + s.sourceLength.toNat) pad := by
  have hseen : (c.advance role fin.length pin s).seen = seenOf (ords ++ [s.ordinal]) := by
    rw [Coverage.advance, h.seen]
    exact set_seenOf ords s.ordinal
  have hnodup : (ords ++ [s.ordinal]).Nodup :=
    List.nodup_append.mpr ⟨h.nodup, List.nodup_singleton _, fun a ha b hb heq =>
      hnew (List.mem_singleton.mp hb ▸ heq ▸ ha)⟩
  have hcursors : (c.advance role fin.length pin s).sourceCursors =
      fin.map FilePin.dataEnd ++ (cursor + s.sourceLength.toNat) ::
        (rest.map FilePin.dataStart ++ pad) := by
    rw [Coverage.advance, h.cursors, hoffset]
    simp
  by_cases hend : role = .target8B ∧ cursor + s.sourceLength.toNat = pin.dataEnd
  · obtain ⟨htarget, hend⟩ := hend
    have hexpected : (c.advance role fin.length pin s).expectedTargetSource = fin.length + 1 := by
      rw [Coverage.advance, hoffset]
      exact (if_pos ⟨htarget, hend⟩).trans (congrArg (· + 1) h.expected)
    refine .inl ⟨hend, ?_⟩
    cases rest with
    | nil =>
      refine .inl ⟨rfl, htarget, hseen, hnodup, ?_, ?_⟩
      · rw [hcursors, h.pins, hend]
        simp
      · rw [hexpected, h.pins]
        simp
    | cons next later =>
      have hstart := FilePin.dataStart_lt role next (by rw [h.pins]; simp)
      refine .inr ⟨next, later, rfl, hseen, hnodup, ?_, ?_, ?_, hstart.le, fun _ => hstart⟩
      · rw [h.pins]
        simp
      · rw [hcursors, hend]
        simp
      · rw [hexpected]
        simp
  · have hexpected : (c.advance role fin.length pin s).expectedTargetSource = fin.length := by
      rw [Coverage.advance, hoffset]
      exact (if_neg hend).trans h.expected
    exact .inr ⟨hend, hseen, hnodup, h.pins, hcursors, hexpected, hle, fun htarget =>
      lt_of_le_of_ne hle fun heq => hend ⟨htarget, heq⟩⟩

/-- Behind the last file no section is accepted. -/
theorem Finished.walks_iff (h : Finished role c ords pad) {todo : List WeightSection} :
    Walks role c todo ↔ todo = [] := by
  cases todo with
  | nil =>
    refine iff_of_true ⟨c, rfl, ?_⟩ rfl
    rw [Coverage.AtEnds, h.cursors, ← List.append_nil (filePins role), List.map_append,
      List.append_assoc, zip_ends]
    simp
  | cons s todo =>
    refine iff_of_false (fun hwalks => ?_) (List.cons_ne_nil s todo)
    obtain ⟨c', hs, -⟩ := walks_cons.mp hwalks
    obtain ⟨-, -, i, pin, hi, -, hindex, -⟩ := Coverage.section_eq_ok.mp hs
    have hlt := (List.getElem?_eq_some_iff.mp hi).1
    rw [hindex h.target, h.expected] at hlt
    exact absurd hlt (lt_irrefl _)

/-- A next section, in the terms of what is accepted. -/
theorem accepts_cons {todo : List WeightSection} :
    Accepts role ords pin cursor rest (s :: todo) ↔ s.Admitted role ∧ s.ordinal < 399 ∧
      (∀ t ∈ todo, t.Admitted role) ∧ (∀ t ∈ todo, t.ordinal < 399) ∧
      (ords ++ [s.ordinal] ++ todo.map WeightSection.ordinal).Nodup ∧
      ∃ group later, s :: todo = group ++ later ∧ Spans pin cursor group pin.dataEnd ∧
        CoversFiles rest later := by
  constructor
  · rintro ⟨hall, hbound, hnodup, hcovers⟩
    obtain ⟨hs, htodo⟩ := List.forall_mem_cons.mp hall
    obtain ⟨hb, hbounds⟩ := List.forall_mem_cons.mp hbound
    rw [List.map_cons, List.append_cons] at hnodup
    exact ⟨hs, hb, htodo, hbounds, hnodup, hcovers⟩
  · rintro ⟨hs, hb, htodo, hbounds, hnodup, hcovers⟩
    refine ⟨List.forall_mem_cons.mpr ⟨hs, htodo⟩, List.forall_mem_cons.mpr ⟨hb, hbounds⟩,
      ?_, hcovers⟩
    rw [List.map_cons, List.append_cons]
    exact hnodup

theorem Spans.eq_nil {pin : FilePin} {a : ℕ} {sections : List WeightSection}
    (h : Spans pin a sections a) : sections = [] := by
  cases sections with
  | nil => rfl
  | cons s sections =>
    have hle := h.2.2.2.le
    have hpos := h.2.2.1
    omega

/-- **The walk.** It ends behind the last file exactly when the sections are accepted. -/
theorem Within.walks_iff (h : Within role c ords fin pin rest cursor pad)
    {todo : List WeightSection} :
    Walks role c todo ↔ Accepts role ords pin cursor rest todo := by
  have hstarts : ∀ next ∈ rest, next.dataStart < next.dataEnd := fun next hnext =>
    FilePin.dataStart_lt role next (by rw [h.pins]; simp [hnext])
  induction todo generalizing c ords fin pin rest cursor with
  | nil =>
    constructor
    · rintro ⟨c', hc', hends⟩
      obtain rfl := Except.ok.inj hc'
      obtain ⟨hcursor, hnil⟩ := h.atEnds_iff.mp hends
      refine ⟨by simp, by simp, ?_, [], [], rfl, hcursor, hnil ▸ rfl⟩
      rw [List.map_nil, List.append_nil]
      exact h.nodup
    · rintro ⟨-, -, -, group, later, hnil, hspans, hcovers⟩
      obtain ⟨rfl, rfl⟩ := List.append_eq_nil_iff.mp hnil.symm
      exact ⟨c, rfl, h.atEnds_iff.mpr ⟨hspans, hcovers.eq_nil hstarts⟩⟩
  | cons s todo ih =>
    rw [walks_cons, accepts_cons]
    constructor
    · rintro ⟨c', hs, hwalks⟩
      obtain ⟨hadmitted, hbound, hnew, hname, hoffset, hle, rfl⟩ := h.section_eq_ok.mp hs
      have hpos := hadmitted.sourceLength_pos
      rcases h.advance hnew hoffset hle with
        ⟨hend, ⟨rfl, hfin⟩ | ⟨next, later, rfl, hwithin⟩⟩ | ⟨-, hwithin⟩
      · obtain rfl := hfin.walks_iff.mp hwalks
        refine ⟨hadmitted, hbound, by simp, by simp, ?_, [s], [], rfl,
          ⟨hname, hoffset, hpos, hend⟩, rfl⟩
        rw [List.map_nil, List.append_nil]
        exact hfin.nodup
      · obtain ⟨hall, hbounds, hnodup, hcovers⟩ := (ih hwithin fun pin hpin =>
          hstarts pin (.tail _ hpin)).mp hwalks
        exact ⟨hadmitted, hbound, hall, hbounds, hnodup, [s], todo, rfl,
          ⟨hname, hoffset, hpos, hend⟩, hcovers⟩
      · obtain ⟨hall, hbounds, hnodup, group, later, rfl, hspans, hcovers⟩ :=
          (ih hwithin hstarts).mp hwalks
        exact ⟨hadmitted, hbound, hall, hbounds, hnodup, s :: group, later, rfl,
          ⟨hname, hoffset, hpos, hspans⟩, hcovers⟩
    · rintro ⟨hadmitted, hbound, hall, hbounds, hnodup, group, later, htodo, hspans, hcovers⟩
      have hnew : s.ordinal ∉ ords := by
        intro hmem
        have hpair := (List.nodup_append.mp (List.nodup_append.mp hnodup).1).2.2
        exact hpair _ hmem _ (List.mem_singleton_self _) rfl
      cases group with
      | nil =>
        -- At the end of its file, a walk in the target has moved on, and the draft has no more
        -- files.
        obtain rfl : cursor = pin.dataEnd := hspans
        cases role with
        | target8B => exact absurd (h.lt rfl) (lt_irrefl _)
        | draft06B =>
          have hlength := congrArg List.length h.pins
          simp only [filePins, List.length_append, List.length_cons, List.length_nil] at hlength
          obtain rfl : rest = [] := List.length_eq_zero_iff.mp (by omega)
          obtain rfl : later = [] := hcovers
          cases htodo
      | cons t group =>
        rw [List.cons_append] at htodo
        obtain ⟨rfl, rfl⟩ := List.cons.inj htodo
        obtain ⟨hname, hoffset, hpos, hspans⟩ := hspans
        have hle := hspans.le
        refine ⟨_, h.section_eq_ok.mpr ⟨hadmitted, hbound, hnew, hname, hoffset, hle, rfl⟩, ?_⟩
        rcases h.advance hnew hoffset hle with
          ⟨hend, ⟨rfl, hfin⟩ | ⟨next, later', rfl, hwithin⟩⟩ | ⟨-, hwithin⟩
        · obtain rfl := (hend ▸ hspans).eq_nil
          obtain rfl : later = [] := hcovers
          exact hfin.walks_iff.mpr rfl
        · obtain rfl := (hend ▸ hspans).eq_nil
          exact (ih hwithin fun pin hpin => hstarts pin (.tail _ hpin)).mpr
            ⟨hall, hbounds, hnodup, hcovers⟩
        · exact (ih hwithin hstarts).mpr ⟨hall, hbounds, hnodup, group, later, rfl, hspans, hcovers⟩

/-- The marks after a walk. -/
theorem seen_of_foldlM {todo : List WeightSection} (hseen : c.seen = seenOf ords)
    (h : todo.foldlM (Coverage.section role) c = .ok c') :
    c'.seen = seenOf (ords ++ todo.map WeightSection.ordinal) := by
  induction todo generalizing c ords with
  | nil =>
    obtain rfl := Except.ok.inj h
    rw [List.map_nil, List.append_nil]
    exact hseen
  | cons s todo ih =>
    rw [List.foldlM_cons] at h
    obtain ⟨next, hs, h⟩ := bind_eq_ok.mp h
    obtain ⟨-, -, i, pin, -, -, -, -, -, rfl⟩ := Coverage.section_eq_ok.mp hs
    rw [List.map_cons, List.append_cons]
    refine ih ?_ h
    rw [Coverage.advance, hseen]
    exact set_seenOf ords s.ordinal

/-! ### All sections -/

/-- What a complete list of sections of a role is. -/
structure Laid (role : ModelRole) (sections : List WeightSection) : Prop where
  admitted : ∀ s ∈ sections, s.Admitted role
  ordinals : (sections.map WeightSection.ordinal).Perm (List.range role.tensorCount)
  covers : CoversFiles (filePins role) sections

/-- The tensor of an admitted section. -/
theorem WeightSection.Admitted.tensor (h : s.Admitted role) : ∃ tensor ∈ roster role,
    s.tensorName = canonicalName tensor ∧ s.ordinal = Safetensors.ordinal role tensor := by
  obtain ⟨⟨m, ord⟩, hm⟩ := h.metadata
  obtain ⟨hmem, hname, hord, -⟩ := s.qwen3Metadata_eq_ok hm
  rw [h.role_eq] at hmem hord
  refine ⟨_, hmem, hname, ?_⟩
  rw [WeightSection.ordinal, hm]
  exact hord

/-- The tensors of admitted sections. -/
theorem exists_tensors {sections : List WeightSection} (h : ∀ s ∈ sections, s.Admitted role) :
    ∃ tensors : List (TensorKind × ℕ), (∀ tensor ∈ tensors, tensor ∈ roster role) ∧
      sections.map (·.tensorName) = tensors.map canonicalName ∧
      sections.map WeightSection.ordinal = tensors.map (Safetensors.ordinal role) := by
  induction sections with
  | nil => exact ⟨[], by simp, rfl, rfl⟩
  | cons s sections ih =>
    obtain ⟨hs, hsections⟩ := List.forall_mem_cons.mp h
    obtain ⟨tensor, hmem, hname, hord⟩ := hs.tensor
    obtain ⟨tensors, hall, hnames, hords⟩ := ih hsections
    refine ⟨tensor :: tensors, List.forall_mem_cons.mpr ⟨hmem, hall⟩, ?_, ?_⟩
    · rw [List.map_cons, List.map_cons, hname, hnames]
    · rw [List.map_cons, List.map_cons, hord, hords]

/-- A complete list of sections names every tensor of the roster once. -/
theorem Laid.names {sections : List WeightSection} (h : Laid role sections) :
    (sections.map (·.tensorName)).Perm ((roster role).map canonicalName) := by
  obtain ⟨tensors, hmem, hnames, hords⟩ := exists_tensors h.admitted
  rw [hnames]
  exact (Safetensors.perm_roster hmem (hords ▸ h.ordinals)).map _

theorem Coverage.start_eq (role : ModelRole) : ∃ pin rest pad c, Coverage.start role = .ok c ∧
    filePins role = pin :: rest ∧ Within role c [] [] pin rest pin.dataStart pad := by
  have hseen : List.replicate 399 false = seenOf [] := by
    rw [replicate_eq_tabulate]
    rfl
  cases role with
  | target8B =>
    refine ⟨_, _, [], _, rfl, rfl, hseen, .nil, rfl, rfl, rfl, ?_, fun _ => ?_⟩ <;> decide
  | draft06B =>
    refine ⟨_, _, [0, 0, 0, 0], _, rfl, rfl, hseen, .nil, rfl, rfl, rfl, ?_, fun h => ?_⟩
    · decide
    · cases h

/-- **All sections.** -/
theorem validatePersistedSections_eq_ok {manifest : WeightSectionManifest} :
    validatePersistedSections manifest = .ok () ↔ Laid manifest.role manifest.sections := by
  obtain ⟨pin, rest, pad, c, hstart, hpins, hwithin⟩ := Coverage.start_eq manifest.role
  have hcount : manifest.role.tensorCount ≤ 399 := by cases manifest.role <;> decide
  -- The marks say which ordinals were seen.
  have hmarks (ords : List ℕ) : ((seenOf ords).take manifest.role.tensorCount).any (!·) = true ↔
      ¬ ∀ i < manifest.role.tensorCount, i ∈ ords := by
    rw [List.any_eq_true]
    constructor
    · rintro ⟨mark, hmem, hmark⟩ hall
      obtain ⟨i, hi, rfl⟩ := List.mem_take_iff_getElem.mp hmem
      have hmarked := getElem?_tabulate (fun i => decide (i ∈ ords)) (n := 399) (i := i) (by omega)
      rw [← seenOf, List.getElem?_eq_getElem (by simp [seenOf]; omega)] at hmarked
      rw [Option.some.inj hmarked] at hmark
      simp [hall i (by omega)] at hmark
    · intro hnot
      obtain ⟨i, hi, hnew⟩ : ∃ i, i < manifest.role.tensorCount ∧ i ∉ ords := by
        by_contra hno
        exact hnot fun i hi => by_contra fun hnew => hno ⟨i, hi, hnew⟩
      refine ⟨false, ?_, rfl⟩
      refine List.mem_of_getElem? (i := i) ?_
      rw [List.getElem?_take_of_lt hi]
      exact seenOf_eq_some_false.mpr ⟨by omega, hnew⟩
  simp only [validatePersistedSections, hstart, ok_bind, bind_eq_ok, failIf_eq_ok, not_or, not_not]
  constructor
  · rintro ⟨c', hfold, -, ⟨hlength, hseen⟩, hends⟩
    have haccepts := hwithin.walks_iff.mp ⟨c', hfold, by simpa [Coverage.AtEnds] using hends⟩
    rw [seen_of_foldlM hwithin.seen hfold, hmarks, not_not, List.nil_append] at hseen
    have hsub : List.range manifest.role.tensorCount ⊆
        manifest.sections.map WeightSection.ordinal := fun i hi => hseen i (List.mem_range.mp hi)
    have hlen : (manifest.sections.map WeightSection.ordinal).length ≤
        (List.range manifest.role.tensorCount).length := by
      rw [List.length_map, List.length_range, hlength]
    refine ⟨haccepts.admitted, ?_, hpins ▸ haccepts.covers⟩
    exact ((List.subperm_of_subset List.nodup_range hsub).perm_of_length_le hlen).symm
  · intro h
    have hbound : ∀ s ∈ manifest.sections, s.ordinal < 399 := fun s hs =>
      (List.mem_range.mp (h.ordinals.mem_iff.mp (List.mem_map_of_mem hs))).trans_le hcount
    have hnodup : ([] ++ manifest.sections.map WeightSection.ordinal).Nodup := by
      rw [List.nil_append]
      exact h.ordinals.nodup_iff.mpr List.nodup_range
    have hcovers := h.covers
    rw [hpins] at hcovers
    obtain ⟨c', hfold, hends⟩ :=
      hwithin.walks_iff.mpr ⟨h.admitted, hbound, hnodup, hcovers⟩
    refine ⟨c', hfold, (), ⟨?_, ?_⟩, by simpa [Coverage.AtEnds] using hends⟩
    · have hlength := h.ordinals.length_eq
      rwa [List.length_map, List.length_range] at hlength
    · rw [seen_of_foldlM hwithin.seen hfold, hmarks, not_not, List.nil_append]
      exact fun i hi => h.ordinals.mem_iff.mpr (List.mem_range.mpr hi)

end WeightStream

end Ferric
