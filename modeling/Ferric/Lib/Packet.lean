import Ferric.Lib.Outcome

/-!
# Packets of fixed-width fields

A packet is the concatenation of its fields. A field is a `Block`, a list of bytes of a known
length, and a number is the block of its bytes with the lowest first. A `Reader` takes fields off
the front of what is left of a packet.

Code that checks a packet by positions takes slices of it. Cutting a list by the widths of some
fields and concatenating fields of these widths are inverse to each other, so checks of all slices
are one equation.

Two facts are enough for a codec. Reading a field from a packet that starts with it gives the field
and leaves the rest, and a block determines its number and is determined by it.

## Main definitions

* `Block` — lists of bytes of a fixed length
* `le`, `ofLe` — numbers in little-endian order, and `le16`, `le32`, `le64` for the machine types
* `slice`, `cut` — a part of a list by positions, and all parts by widths
* `Reader` — fallible code over what is left of a packet
-/

namespace Ferric

/-- `[u8; n]` -/
abbrev Block (n : ℕ) := { bytes : List UInt8 // bytes.length = n }

namespace Block

variable {n : ℕ}

/-- `[0; n]` -/
def zero (n : ℕ) : Block n := ⟨List.replicate n 0, List.length_replicate⟩

theorem length_val (b : Block n) : b.val.length = n := b.property

theorem eq_of_append_eq {a b : Block n} {as bs : List UInt8} (h : a.val ++ as = b.val ++ bs) :
    a = b ∧ as = bs := by
  obtain ⟨hval, hrest⟩ := List.append_inj h (a.property.trans b.property.symm)
  exact ⟨Subtype.ext hval, hrest⟩

end Block

/-! ### Numbers -/

/-- The lowest `n` bytes of a number. -/
def le : ℕ → ℕ → List UInt8
  | 0, _ => []
  | n + 1, v => UInt8.ofNat v :: le n (v / 256)

/-- The number of some bytes. -/
def ofLe : List UInt8 → ℕ
  | [] => 0
  | byte :: bytes => byte.toNat + 256 * ofLe bytes

@[simp] theorem length_le (n v : ℕ) : (le n v).length = n := by
  induction n generalizing v with
  | zero => rfl
  | succ n ih => rw [le, List.length_cons, ih]

theorem ofLe_le (n v : ℕ) : ofLe (le n v) = v % 256 ^ n := by
  induction n generalizing v with
  | zero => rw [le, ofLe, Nat.pow_zero, Nat.mod_one]
  | succ n ih =>
    have hbyte : (UInt8.ofNat v).toNat = v % 256 := by simp
    rw [le, ofLe, ih, hbyte, Nat.pow_succ', Nat.mod_mul]

theorem ofLe_le_of_lt {n v : ℕ} (h : v < 256 ^ n) : ofLe (le n v) = v := by
  rw [ofLe_le, Nat.mod_eq_of_lt h]

theorem le_ofLe (bytes : List UInt8) : le bytes.length (ofLe bytes) = bytes := by
  induction bytes with
  | nil => rfl
  | cons byte bytes ih =>
    have hlt : byte.toNat < 256 := byte.toNat_lt
    have hdiv : (byte.toNat + 256 * ofLe bytes) / 256 = ofLe bytes := by omega
    have hbyte : UInt8.ofNat (byte.toNat + 256 * ofLe bytes) = byte := by
      refine UInt8.toNat_inj.mp ?_
      rw [UInt8.toNat_ofNat']
      show (byte.toNat + 256 * ofLe bytes) % 256 = byte.toNat
      omega
    rw [List.length_cons, ofLe, le, hdiv, ih, hbyte]

theorem ofLe_lt (bytes : List UInt8) : ofLe bytes < 256 ^ bytes.length := by
  rw [← le_ofLe bytes, ofLe_le, length_le]
  exact Nat.mod_lt _ (Nat.pow_pos (by decide))

theorem ofLe_block_lt {n : ℕ} (b : Block n) : ofLe b.val < 256 ^ n := by
  have hlt := ofLe_lt b.val
  rwa [b.property] at hlt

theorem le_ofLe_block {n : ℕ} (b : Block n) : le n (ofLe b.val) = b.val := by
  have heq := le_ofLe b.val
  rwa [b.property] at heq

/-- `value.to_le_bytes()` of a `u16`. -/
def le16 (v : UInt16) : Block 2 := ⟨le 2 v.toNat, length_le 2 _⟩

/-- `u16::from_le_bytes` -/
def ofLe16 (b : Block 2) : UInt16 := .ofNat (ofLe b.val)

/-- `value.to_le_bytes()` of a `u32`. -/
def le32 (v : UInt32) : Block 4 := ⟨le 4 v.toNat, length_le 4 _⟩

/-- `u32::from_le_bytes` -/
def ofLe32 (b : Block 4) : UInt32 := .ofNat (ofLe b.val)

/-- `value.to_le_bytes()` of a `u64`. -/
def le64 (v : UInt64) : Block 8 := ⟨le 8 v.toNat, length_le 8 _⟩

/-- `u64::from_le_bytes` -/
def ofLe64 (b : Block 8) : UInt64 := .ofNat (ofLe b.val)

@[simp] theorem ofLe16_le16 (v : UInt16) : ofLe16 (le16 v) = v := by
  have hlt : v.toNat < 256 ^ 2 :=
    Nat.lt_of_lt_of_eq v.toNat_lt_size (by decide : UInt16.size = 256 ^ 2)
  rw [ofLe16, le16, ofLe_le_of_lt hlt, UInt16.ofNat_toNat]

@[simp] theorem ofLe32_le32 (v : UInt32) : ofLe32 (le32 v) = v := by
  have hlt : v.toNat < 256 ^ 4 :=
    Nat.lt_of_lt_of_eq v.toNat_lt_size (by decide : UInt32.size = 256 ^ 4)
  rw [ofLe32, le32, ofLe_le_of_lt hlt, UInt32.ofNat_toNat]

@[simp] theorem ofLe64_le64 (v : UInt64) : ofLe64 (le64 v) = v := by
  have hlt : v.toNat < 256 ^ 8 :=
    Nat.lt_of_lt_of_eq v.toNat_lt_size (by decide : UInt64.size = 256 ^ 8)
  rw [ofLe64, le64, ofLe_le_of_lt hlt, UInt64.ofNat_toNat]

@[simp] theorem le16_ofLe16 (b : Block 2) : le16 (ofLe16 b) = b := by
  have hlt : ofLe b.val < UInt16.size :=
    Nat.lt_of_lt_of_eq (ofLe_block_lt b) (by decide : 256 ^ 2 = UInt16.size)
  have hnat : (UInt16.ofNat (ofLe b.val)).toNat = ofLe b.val := UInt16.toNat_ofNat_of_lt' hlt
  have hbytes : le 2 (UInt16.ofNat (ofLe b.val)).toNat = b.val := by
    rw [hnat]
    exact le_ofLe_block b
  exact Subtype.ext hbytes

@[simp] theorem le32_ofLe32 (b : Block 4) : le32 (ofLe32 b) = b := by
  have hlt : ofLe b.val < UInt32.size :=
    Nat.lt_of_lt_of_eq (ofLe_block_lt b) (by decide : 256 ^ 4 = UInt32.size)
  have hnat : (UInt32.ofNat (ofLe b.val)).toNat = ofLe b.val := UInt32.toNat_ofNat_of_lt' hlt
  have hbytes : le 4 (UInt32.ofNat (ofLe b.val)).toNat = b.val := by
    rw [hnat]
    exact le_ofLe_block b
  exact Subtype.ext hbytes

@[simp] theorem le64_ofLe64 (b : Block 8) : le64 (ofLe64 b) = b := by
  have hlt : ofLe b.val < UInt64.size :=
    Nat.lt_of_lt_of_eq (ofLe_block_lt b) (by decide : 256 ^ 8 = UInt64.size)
  have hnat : (UInt64.ofNat (ofLe b.val)).toNat = ofLe b.val := UInt64.toNat_ofNat_of_lt' hlt
  have hbytes : le 8 (UInt64.ofNat (ofLe b.val)).toNat = b.val := by
    rw [hnat]
    exact le_ofLe_block b
  exact Subtype.ext hbytes

theorem le16_injective : Function.Injective le16 :=
  Function.LeftInverse.injective ofLe16_le16

theorem le32_injective : Function.Injective le32 :=
  Function.LeftInverse.injective ofLe32_le32

/-! ### Slices -/

/-- `bytes[lo..hi]` -/
def slice (bytes : List UInt8) (lo hi : ℕ) : List UInt8 := (bytes.drop lo).take (hi - lo)

theorem length_slice {bytes : List UInt8} {lo hi : ℕ} (h : hi ≤ bytes.length) :
    (slice bytes lo hi).length = hi - lo := by
  rw [slice, List.length_take, List.length_drop]
  omega

/-- The parts of a list, by their widths. -/
def cut : List ℕ → List UInt8 → List (List UInt8)
  | [], _ => []
  | width :: widths, bytes => bytes.take width :: cut widths (bytes.drop width)

theorem cut_flatten (fields : List (List UInt8)) :
    cut (fields.map List.length) fields.flatten = fields := by
  induction fields with
  | nil => rfl
  | cons field fields ih =>
    rw [List.map_cons, List.flatten_cons, cut, List.take_left, List.drop_left, ih]

/-- Fields of the same lengths are read back one after another. -/
theorem eq_of_flatten_eq {fields fields' : List (List UInt8)}
    (hlengths : fields.map List.length = fields'.map List.length)
    (h : fields.flatten = fields'.flatten) : fields = fields' := by
  rw [← cut_flatten fields, hlengths, h, cut_flatten]

theorem flatten_cut {widths : List ℕ} {bytes : List UInt8} (h : bytes.length = widths.sum) :
    (cut widths bytes).flatten = bytes := by
  induction widths generalizing bytes with
  | nil =>
    rw [List.length_eq_zero_iff.mp h]
    rfl
  | cons width widths ih =>
    rw [List.sum_cons] at h
    have hrest : (bytes.drop width).length = widths.sum := by
      rw [List.length_drop]
      omega
    rw [cut, List.flatten_cons, ih hrest, List.take_append_drop]

/-- The parts of a list from a position on, by their widths. -/
def slices (bytes : List UInt8) : ℕ → List ℕ → List (List UInt8)
  | _, [] => []
  | lo, width :: widths => slice bytes lo (lo + width) :: slices bytes (lo + width) widths

theorem cut_drop (widths : List ℕ) (bytes : List UInt8) (lo : ℕ) :
    cut widths (bytes.drop lo) = slices bytes lo widths := by
  induction widths generalizing lo with
  | nil => rfl
  | cons width widths ih =>
    rw [cut, slices, List.drop_drop, ih, slice, Nat.add_sub_cancel_left]

/-- Parts of one width. -/
theorem slices_replicate (bytes : List UInt8) (lo width count : ℕ) :
    slices bytes lo (List.replicate count width) = (List.range count).map fun i =>
      slice bytes (lo + i * width) (lo + i * width + width) := by
  induction count generalizing lo with
  | zero => rfl
  | succ count ih =>
    rw [List.replicate_succ, slices, ih, List.range_succ_eq_map, List.map_cons, List.map_map,
      Nat.zero_mul, Nat.add_zero]
    refine congrArg _ (List.map_congr_left fun i _ => ?_)
    have hoffset : lo + (i + 1) * width = lo + width + i * width := by
      rw [Nat.succ_mul]
      omega
    show _ = slice bytes (lo + (i + 1) * width) (lo + (i + 1) * width + width)
    rw [hoffset]

theorem slice_zero (bytes : List UInt8) (hi : ℕ) : slice bytes 0 hi = bytes.take hi := rfl

/-- A slice in the front part of a list. -/
theorem slice_take (bytes : List UInt8) {lo hi n : ℕ} (h : hi ≤ n) :
    slice (bytes.take n) lo hi = slice bytes lo hi := by
  rw [slice, slice, List.drop_take, List.take_take, Nat.min_eq_left (by omega)]

/-- A slice of the first of two lists. -/
theorem slice_append_of_le {front : List UInt8} (back : List UInt8) {lo hi : ℕ}
    (h : hi ≤ front.length) : slice (front ++ back) lo hi = slice front lo hi := by
  rw [← slice_take (front ++ back) h, List.take_left]

theorem slice_append_left {front : List UInt8} (back : List UInt8) {n : ℕ}
    (h : front.length = n) : slice (front ++ back) 0 n = front := by
  rw [slice_zero, ← h, List.take_left]

theorem slice_append_right (front : List UInt8) {back : List UInt8} {lo hi : ℕ}
    (hlo : front.length = lo) (hhi : back.length = hi - lo) :
    slice (front ++ back) lo hi = back := by
  rw [slice, ← hlo, List.drop_left, hlo, ← hhi, List.take_length]

/-- A slice of the second of two lists. -/
theorem slice_append_add {front : List UInt8} (back : List UInt8) (lo hi : ℕ) {n : ℕ}
    (h : front.length = n) : slice (front ++ back) (n + lo) (n + hi) = slice back lo hi := by
  rw [slice, slice, ← h, List.drop_length_add_append, Nat.add_sub_add_left]

/-- Slices that meet. -/
theorem slice_append_slice (bytes : List UInt8) {lo mid hi : ℕ} (h : lo ≤ mid) (h' : mid ≤ hi) :
    slice bytes lo mid ++ slice bytes mid hi = slice bytes lo hi := by
  have hdrop : bytes.drop mid = (bytes.drop lo).drop (mid - lo) := by
    rw [List.drop_drop]
    congr 1
    omega
  have hwidth : hi - lo = mid - lo + (hi - mid) := by omega
  rw [slice, slice, slice, hdrop, hwidth, List.take_add]

theorem cut_concat (widths : List ℕ) (width : ℕ) (bytes : List UInt8) :
    cut (widths ++ [width]) bytes =
      cut widths bytes ++ [slice bytes widths.sum (widths.sum + width)] := by
  induction widths generalizing bytes with
  | nil =>
    show [bytes.take width] = [slice bytes 0 (0 + width)]
    rw [Nat.zero_add, slice_zero]
  | cons first widths ih =>
    have hslice : slice (bytes.drop first) widths.sum (widths.sum + width) =
        slice bytes (first + widths.sum) (first + widths.sum + width) := by
      rw [slice, slice, List.drop_drop]
      congr 1
      omega
    show bytes.take first :: cut (widths ++ [width]) (bytes.drop first) = _
    rw [ih, hslice, List.sum_cons]
    rfl

/-- A part of a list is the block of a number exactly when it has the number. -/
theorem eq_le_iff {bytes : List UInt8} {n v : ℕ} (hlen : bytes.length = n) (hv : v < 256 ^ n) :
    bytes = le n v ↔ ofLe bytes = v := by
  constructor
  · rintro rfl
    exact ofLe_le_of_lt hv
  · rintro rfl
    rw [← hlen, le_ofLe]

theorem eq_le16_iff {bytes : List UInt8} (v : UInt16) (hlen : bytes.length = 2) :
    bytes = (le16 v).val ↔ ofLe bytes = v.toNat :=
  eq_le_iff hlen v.toNat_lt_size

theorem eq_le32_iff {bytes : List UInt8} (v : UInt32) (hlen : bytes.length = 4) :
    bytes = (le32 v).val ↔ ofLe bytes = v.toNat :=
  eq_le_iff hlen v.toNat_lt_size

/-! ### Readers -/

/-- Fallible code over what is left of a packet. -/
abbrev Reader (ε α : Type) := StateT (List UInt8) (Except (Fault ε)) α

namespace Reader

variable {ε α β : Type} {n : ℕ}

/-- The next `n` bytes. -/
def array (n : ℕ) (truncated : ε) : Reader ε (Block n) := fun rest =>
  if h : n ≤ rest.length then
    .ok (⟨rest.take n, by rw [List.length_take]; omega⟩, rest.drop n)
  else .error (.err truncated)

/-- The next bytes, as many as a length that was read. -/
def bytes (n : ℕ) (truncated : ε) : Reader ε (List UInt8) := return (← array n truncated).val

def u8 (truncated : ε) : Reader ε UInt8 := return .ofNat (ofLe (← array 1 truncated).val)

def u16 (truncated : ε) : Reader ε UInt16 := return ofLe16 (← array 2 truncated)

def u32 (truncated : ε) : Reader ε UInt32 := return ofLe32 (← array 4 truncated)

def u64 (truncated : ε) : Reader ε UInt64 := return ofLe64 (← array 8 truncated)

/-- Nothing is left. -/
def isFinished : Reader ε Bool := return (← get).isEmpty

theorem run_bind {m : Reader ε α} {f : α → Reader ε β} {rest rest' : List UInt8} {a : α}
    (h : m.run rest = .ok (a, rest')) : (m >>= f).run rest = (f a).run rest' := by
  rw [StateT.run_bind, h]
  rfl

/-- A check that passes. -/
theorem run_lift_bind {x : Outcome ε α} {f : α → Reader ε β} {rest : List UInt8} {a : α}
    (h : x = .ok a) : (do f (← x) : Reader ε β).run rest = (f a).run rest := by
  subst h
  rfl

theorem run_bind_eq_ok {m : Reader ε α} {f : α → Reader ε β} {rest : List UInt8}
    {r : β × List UInt8} : (m >>= f).run rest = .ok r ↔
      ∃ a rest', m.run rest = .ok (a, rest') ∧ (f a).run rest' = .ok r := by
  rw [StateT.run_bind, bind_eq_ok, Prod.exists]

theorem run_lift_eq_ok {x : Outcome ε α} {rest : List UInt8} {r : α × List UInt8} :
    (liftM x : Reader ε α).run rest = .ok r ↔ x = .ok r.1 ∧ r.2 = rest := by
  obtain ⟨a, rest'⟩ := r
  cases x with
  | error e =>
    show (Except.error e : Outcome ε _) = .ok (a, rest') ↔ _
    simp
  | ok b =>
    show (Except.ok (b, rest) : Outcome ε _) = .ok (a, rest') ↔ _
    rw [Except.ok.injEq, Except.ok.injEq, Prod.mk.injEq]
    exact and_congr_right fun _ => eq_comm

/-- The field in front is read, and the rest is left. -/
theorem run_array {truncated : ε} {b : Block n} {rest : List UInt8} :
    (array n truncated).run (b.val ++ rest) = .ok (b, rest) := by
  have hle : n ≤ (b.val ++ rest).length := by
    rw [List.length_append, b.property]
    exact Nat.le_add_right n _
  have htake : (b.val ++ rest).take n = b.val := List.take_left' b.property
  have hdrop : (b.val ++ rest).drop n = rest := List.drop_left' b.property
  show (if h : n ≤ (b.val ++ rest).length then _ else _) = _
  rw [dif_pos hle, hdrop]
  exact congrArg (fun a => Except.ok (a, rest)) (Subtype.ext htake)

theorem run_u16 {truncated : ε} {v : UInt16} {rest : List UInt8} :
    (u16 truncated).run ((le16 v).val ++ rest) = .ok (v, rest) := by
  rw [u16, run_bind run_array, ofLe16_le16]
  rfl

theorem run_u32 {truncated : ε} {v : UInt32} {rest : List UInt8} :
    (u32 truncated).run ((le32 v).val ++ rest) = .ok (v, rest) := by
  rw [u32, run_bind run_array, ofLe32_le32]
  rfl

theorem run_u64 {truncated : ε} {v : UInt64} {rest : List UInt8} :
    (u64 truncated).run ((le64 v).val ++ rest) = .ok (v, rest) := by
  rw [u64, run_bind run_array, ofLe64_le64]
  rfl

/-- A field is read exactly when it is in front of the rest. -/
theorem run_array_eq_ok {truncated : ε} {b : Block n} {rest rest' : List UInt8} :
    (array n truncated).run rest = .ok (b, rest') ↔ rest = b.val ++ rest' := by
  constructor
  · intro h
    change (if h : n ≤ rest.length then _ else _) = _ at h
    split at h
    · obtain ⟨rfl, rfl⟩ := Prod.mk.inj (Except.ok.inj h)
      exact (List.take_append_drop n rest).symm
    · cases h
  · rintro rfl
    exact run_array

theorem run_pure_eq_ok {a b : α} {rest rest' : List UInt8} :
    (pure a : Reader ε α).run rest = .ok (b, rest') ↔ a = b ∧ rest = rest' := by
  show (Except.ok (a, rest) : Outcome ε _) = .ok (b, rest') ↔ _
  rw [Except.ok.injEq, Prod.mk.injEq]

theorem run_bytes_eq_ok {truncated : ε} {field rest rest' : List UInt8} :
    (bytes n truncated).run rest = .ok (field, rest') ↔
      field.length = n ∧ rest = field ++ rest' := by
  rw [bytes, run_bind_eq_ok]
  constructor
  · rintro ⟨b, rest'', hb, h⟩
    obtain ⟨rfl, rfl⟩ := run_pure_eq_ok.mp h
    exact ⟨b.property, run_array_eq_ok.mp hb⟩
  · rintro ⟨rfl, rfl⟩
    exact ⟨⟨field, rfl⟩, rest', run_array_eq_ok.mpr rfl, run_pure_eq_ok.mpr ⟨rfl, rfl⟩⟩

theorem run_u8_eq_ok {truncated : ε} {v : UInt8} {rest rest' : List UInt8} :
    (u8 truncated).run rest = .ok (v, rest') ↔ rest = [v] ++ rest' := by
  rw [u8, run_bind_eq_ok]
  constructor
  · rintro ⟨⟨field, hfield⟩, rest'', hb, h⟩
    obtain ⟨rfl, rfl⟩ := run_pure_eq_ok.mp h
    obtain ⟨byte, rfl⟩ := List.length_eq_one_iff.mp hfield
    rw [run_array_eq_ok.mp hb]
    simp [ofLe]
  · rintro rfl
    refine ⟨⟨[v], rfl⟩, rest', run_array_eq_ok.mpr rfl, run_pure_eq_ok.mpr ⟨?_, rfl⟩⟩
    simp [ofLe]

theorem run_u32_eq_ok {truncated : ε} {v : UInt32} {rest rest' : List UInt8} :
    (u32 truncated).run rest = .ok (v, rest') ↔ rest = (le32 v).val ++ rest' := by
  constructor
  · intro h
    rw [u32, run_bind_eq_ok] at h
    obtain ⟨b, rest'', hb, h⟩ := h
    obtain ⟨rfl, rfl⟩ := run_pure_eq_ok.mp h
    rw [le32_ofLe32]
    exact run_array_eq_ok.mp hb
  · rintro rfl
    exact run_u32

theorem run_u64_eq_ok {truncated : ε} {v : UInt64} {rest rest' : List UInt8} :
    (u64 truncated).run rest = .ok (v, rest') ↔ rest = (le64 v).val ++ rest' := by
  constructor
  · intro h
    rw [u64, run_bind_eq_ok] at h
    obtain ⟨b, rest'', hb, h⟩ := h
    obtain ⟨rfl, rfl⟩ := run_pure_eq_ok.mp h
    rw [le64_ofLe64]
    exact run_array_eq_ok.mp hb
  · rintro rfl
    exact run_u64

/-! ### Readers do not panic -/

/-- Whatever is left, the reader returns a result or an error value. -/
def Returns (m : Reader ε α) : Prop := ∀ rest, Total (m.run rest)

theorem Returns.bind {m : Reader ε α} {f : α → Reader ε β} (hm : Returns m)
    (hf : ∀ a, Returns (f a)) : Returns (m >>= f) := by
  intro rest
  rw [StateT.run_bind]
  exact (hm rest).bind fun r => hf r.1 r.2

theorem returns_pure (a : α) : Returns (pure a : Reader ε α) := fun _ => trivial

theorem returns_lift {x : Outcome ε α} (h : Total x) : Returns (liftM x : Reader ε α) := by
  intro rest
  show Total (x >>= fun a => pure (a, rest))
  exact h.bind fun _ => trivial

theorem returns_array (n : ℕ) (truncated : ε) : Returns (array n truncated) := by
  intro rest
  show Total (if h : n ≤ rest.length then _ else _)
  split <;> trivial

theorem returns_u16 (truncated : ε) : Returns (u16 truncated) :=
  (returns_array 2 truncated).bind fun _ => returns_pure _

theorem returns_u32 (truncated : ε) : Returns (u32 truncated) :=
  (returns_array 4 truncated).bind fun _ => returns_pure _

theorem returns_u64 (truncated : ε) : Returns (u64 truncated) :=
  (returns_array 8 truncated).bind fun _ => returns_pure _

theorem returns_isFinished : Returns (isFinished : Reader ε Bool) := fun _ => trivial

end Reader

end Ferric
