import Ferric.WeightStream.Delivery
import Ferric.Sha256.Streaming

/-!
# Reading an exact number of bytes

`read_exact_source` on any delivery whose errors are all `Interrupted`. If the bytes up to the end
of the buffer fit into the pinned file, it does not matter how they are delivered: the buffer is
filled with the next bytes of the file, or the end of the file comes early. If they do not fit, the
error names the total at which the limit was passed, and that depends on the pieces.

## Main definitions

* `Delivery.after` — what is left of a delivery behind some bytes
* `Delivery.chunkEnd` — where a piece ends
* `Reads` — what a reader has delivered

## Main results

* `readExactSource_fits`, `readExactSource_overruns`
-/

namespace Ferric

namespace WeightStream

open Ferric.Action (query fail)

namespace Delivery

/-! ### Deliveries -/

@[simp] theorem bytes_nil : bytes [] = [] := rfl

@[simp] theorem bytes_chunk {b : List UInt8} {hb : b ≠ []} {d : Delivery} :
    bytes (.chunk b hb :: d) = b ++ bytes d := rfl

@[simp] theorem bytes_failure {kind : IoErrorKind} {d : Delivery} :
    bytes (.failure kind :: d) = bytes d := rfl

/-- No error but `Interrupted`. -/
def Interrupts (d : Delivery) : Prop := ∀ kind, .failure kind ∈ d → kind = .interrupted

/-- What is left when the last of the first `n` bytes has been delivered. -/
def after (n : ℕ) : Delivery → Delivery
  | [] => []
  | .failure kind :: d => if n = 0 then .failure kind :: d else after n d
  | .chunk b hb :: d =>
    if n = 0 then .chunk b hb :: d
    else if h : b.drop n ≠ [] then .chunk (b.drop n) h :: d
    else after (n - b.length) d

/-- An `Interrupted` error follows the first `n` bytes. -/
def InterruptedAt (d : Delivery) (n : ℕ) : Prop :=
  (d.after n).head? = some (.failure .interrupted)

instance (d : Delivery) (n : ℕ) : Decidable (d.InterruptedAt n) :=
  inferInstanceAs (Decidable (_ = _))

/-- The position at which the piece with byte number `p` ends. -/
def chunkEnd (p : ℕ) : Delivery → ℕ
  | [] => 0
  | .failure _ :: d => chunkEnd p d
  | .chunk b _ :: d => if p < b.length then b.length else b.length + chunkEnd (p - b.length) d

@[simp] theorem after_zero (d : Delivery) : after 0 d = d := by
  match d with
  | [] => rfl
  | .failure kind :: d => exact if_pos rfl
  | .chunk b hb :: d => exact if_pos rfl

theorem after_chunk_of_lt {n : ℕ} {b : List UInt8} (hb : b ≠ []) (d : Delivery) (h0 : n ≠ 0)
    (h : n < b.length) : ∃ hn, after n (.chunk b hb :: d) = .chunk (b.drop n) hn :: d := by
  have hn : b.drop n ≠ [] := by
    rw [ne_eq, List.drop_eq_nil_iff]
    omega
  exact ⟨hn, by rw [after, if_neg h0, dif_pos hn]⟩

theorem after_chunk_of_le {n : ℕ} {b : List UInt8} {hb : b ≠ []} {d : Delivery}
    (h : b.length ≤ n) : after n (.chunk b hb :: d) = after (n - b.length) d := by
  have hpos := List.length_pos_of_ne_nil hb
  have h0 : n ≠ 0 := by omega
  rw [after, if_neg h0, dif_neg]
  rw [not_not, List.drop_eq_nil_iff]
  exact h

theorem bytes_after (n : ℕ) (d : Delivery) : (after n d).bytes = d.bytes.drop n := by
  induction d generalizing n with
  | nil => exact (List.drop_nil).symm
  | cons event d ih =>
    cases event with
    | failure kind =>
      by_cases h0 : n = 0
      · rw [h0, after_zero, List.drop_zero]
      · rw [after, if_neg h0, ih, bytes_failure]
    | chunk b hb =>
      by_cases h0 : n = 0
      · rw [h0, after_zero, List.drop_zero]
      rcases Nat.lt_or_ge n b.length with h | h
      · obtain ⟨hn, hafter⟩ := after_chunk_of_lt hb d h0 h
        rw [hafter, bytes_chunk, bytes_chunk, List.drop_append_of_le_length h.le]
      · rw [after_chunk_of_le h, ih, bytes_chunk, List.drop_append, List.drop_of_length_le h,
          List.nil_append]

theorem after_after (m n : ℕ) (d : Delivery) : after m (after n d) = after (n + m) d := by
  by_cases hm : m = 0
  · rw [hm, after_zero, Nat.add_zero]
  induction d generalizing n with
  | nil => rfl
  | cons event d ih =>
    by_cases h0 : n = 0
    · rw [h0, after_zero, Nat.zero_add]
    have hne : n + m ≠ 0 := by omega
    cases event with
    | failure kind => rw [after, if_neg h0, ih, after, if_neg hne]
    | chunk b hb =>
      rcases Nat.lt_or_ge n b.length with h | h
      · obtain ⟨hn, hafter⟩ := after_chunk_of_lt hb d h0 h
        rw [hafter]
        rcases Nat.lt_or_ge (n + m) b.length with hlt | hge
        · have hlt' : m < (b.drop n).length := by
            rw [List.length_drop]
            omega
          obtain ⟨hn', hleft⟩ := after_chunk_of_lt hn d hm hlt'
          obtain ⟨hn'', hright⟩ := after_chunk_of_lt hb d hne hlt
          rw [hleft, hright]
          simp only [List.drop_drop]
        · rw [after_chunk_of_le hge, after_chunk_of_le (by rw [List.length_drop]; omega),
            List.length_drop]
          congr 1
          omega
      · rw [after_chunk_of_le h, ih, after_chunk_of_le (Nat.le_add_right_of_le h)]
        congr 1
        omega

theorem Interrupts.tail {event : Event} {d : Delivery} (h : Interrupts (event :: d)) :
    Interrupts d := fun kind hkind => h kind (.tail _ hkind)

theorem Interrupts.after {d : Delivery} (h : Interrupts d) (n : ℕ) : Interrupts (d.after n) := by
  induction d generalizing n with
  | nil => exact h
  | cons event d ih =>
    by_cases h0 : n = 0
    · rwa [h0, after_zero]
    cases event with
    | failure kind =>
      rw [Delivery.after, if_neg h0]
      exact ih h.tail n
    | chunk b hb =>
      rcases Nat.lt_or_ge n b.length with hlt | hge
      · obtain ⟨hn, hafter⟩ := after_chunk_of_lt hb d h0 hlt
        rw [hafter]
        rintro kind (_ | ⟨_, hkind⟩)
        exact h.tail kind hkind
      · rw [after_chunk_of_le hge]
        exact ih h.tail _

/-- The pieces behind the first `n` bytes end where they end in the whole delivery. -/
theorem chunkEnd_after {n p : ℕ} {d : Delivery} (hn : n ≤ p) (hp : p < d.bytes.length) :
    n + chunkEnd (p - n) (after n d) = chunkEnd p d := by
  induction d generalizing n p with
  | nil => exact absurd hp (Nat.not_lt_zero p)
  | cons event d ih =>
    by_cases h0 : n = 0
    · rw [h0, after_zero, Nat.zero_add, Nat.sub_zero]
    cases event with
    | failure kind =>
      rw [after, if_neg h0]
      exact ih hn hp
    | chunk b hb =>
      rw [bytes_chunk, List.length_append] at hp
      rcases Nat.lt_or_ge n b.length with h | h
      · obtain ⟨hdrop, hafter⟩ := after_chunk_of_lt hb d h0 h
        rw [hafter, chunkEnd, chunkEnd, List.length_drop]
        by_cases hlt : p < b.length
        · rw [if_pos hlt, if_pos (by omega)]
          omega
        · rw [if_neg hlt, if_neg (by omega), show p - n - (b.length - n) = p - b.length by omega]
          omega
      · have hnext := ih (n := n - b.length) (p := p - b.length) (by omega) (by omega)
        have hge : ¬ p < b.length := by omega
        rw [after_chunk_of_le h, chunkEnd, if_neg hge, ← hnext,
          show p - b.length - (n - b.length) = p - n by omega]
        omega

end Delivery

/-! ### The loop -/

open Delivery

/-- The reader of `s` has delivered `message` and has `d` left; nothing else happened. -/
structure Reads (message : List UInt8) (d : Delivery) (output : List UInt8) (offset : ℕ)
    (s : Streaming) : Prop where
  reader : s.reader = d
  hasher : s.hasher.Holds message
  total : s.total = message.length
  output : s.output = output
  offset : s.destinationOffset = offset

/-- What was written so far, and where the next section goes. -/
structure Left (output : List UInt8) (offset : ℕ) (s : Streaming) : Prop where
  output : s.output = output
  offset : s.destinationOffset = offset

namespace Streaming

variable {pin : FilePin} {message output : List UInt8} {d : Delivery} {offset : ℕ} {s : Streaming}

theorem takeIn_exec (pin : FilePin) (h : Reads message d output offset s) (read : List UInt8)
    (hlen : (message ++ read).length < 2 ^ 64) :
    ∃ s', (takeIn pin read).exec s =
        (if (message ++ read).length > pin.fileBytes.toNat then
          .error (.err (.source (.fileSize pin.name pin.fileBytes.toNat (message ++ read).length)))
        else .ok (), s') ∧ Reads (message ++ read) d output offset s' := by
  obtain ⟨hasher, hupdate, hholds⟩ := h.hasher.update (ε := WeightStreamError) hlen
  have htotal : checkedAdd 64 s.total read.length = some (message ++ read).length := by
    refine checkedAdd_eq_some.mpr ⟨?_, ?_⟩
    · rwa [h.total, ← List.length_append]
    · rw [h.total, ← List.length_append]
  refine ⟨{ s with hasher, total := (message ++ read).length }, ?_,
    ⟨h.reader, hholds, rfl, h.output, h.offset⟩⟩
  rw [takeIn, exec_bind_of_ok (exec_query.trans (by rw [hupdate])), exec_bind_of_ok exec_modify,
    exec_bind_of_ok (exec_query.trans (by rw [htotal]; rfl)), exec_bind_of_ok exec_modify]
  split
  · next hgt => exact congrArg (Action.exec · _) (if_pos hgt)
  · next hgt => exact congrArg (Action.exec · _) (if_neg hgt)

theorem readLoop_full {length fuel : ℕ} {buffer : List UInt8} (h : buffer.length = length) :
    (readLoop pin length (fuel + 1) buffer).exec s = (.ok buffer, s) := by
  rw [readLoop, if_neg (by omega)]
  rfl

theorem readLoop_nil (pin : FilePin) {length : ℕ} (fuel : ℕ) {buffer : List UInt8}
    (hlt : buffer.length < length) (h : s.reader = []) :
    ∃ s', (readLoop pin length (fuel + 1) buffer).exec s =
        (.error (.err (.source (.earlyEof pin.name pin.fileBytes.toNat s.total))), s') ∧
      Left s.output s.destinationOffset s' := by
  refine ⟨{ s with reader := [] }, ?_, rfl, rfl⟩
  rw [readLoop, if_pos hlt, exec_bind_of_ok exec_get, h]
  rfl

theorem readLoop_interrupted {length fuel : ℕ} {buffer : List UInt8} (hlt : buffer.length < length)
    (h : s.reader = .failure .interrupted :: d) :
    (readLoop pin length (fuel + 1) buffer).exec s =
      (readLoop pin length fuel buffer).exec { s with reader := d } := by
  rw [readLoop, if_pos hlt, exec_bind_of_ok exec_get, h]
  exact exec_bind_of_ok exec_modify

theorem readLoop_chunk (pin : FilePin) {length : ℕ} (fuel : ℕ) {buffer b : List UInt8}
    {hb : b ≠ []} (hlt : buffer.length < length) (h : s.reader = .chunk b hb :: d) :
    (readLoop pin length (fuel + 1) buffer).exec s =
      (do
        takeIn pin (b.take (length - buffer.length))
        readLoop pin length fuel (buffer ++ b.take (length - buffer.length))).exec
        { s with reader := (Delivery.read (length - buffer.length) (.chunk b hb :: d)).2 } := by
  rw [readLoop, if_pos hlt, exec_bind_of_ok exec_get, h]
  refine (exec_bind_of_ok exec_modify).trans ?_
  obtain ⟨x, rest, hread⟩ : ∃ x rest, b.take (length - buffer.length) = x :: rest := by
    refine List.exists_cons_of_ne_nil fun hnil => ?_
    rcases List.take_eq_nil_iff.mp hnil with hzero | hnil
    · omega
    · exact hb hnil
  simp only [Delivery.read, hread]

/-! ### Reading what fits -/

/-- The loop ends with a full buffer or at the end of the file, with nothing but the bytes of the
file to tell the two apart. -/
def Fills (pin : FilePin) (length fuel : ℕ) (buffer message : List UInt8) (d : Delivery)
    (output : List UInt8) (offset : ℕ) (s : Streaming) : Prop :=
  (length - buffer.length ≤ d.bytes.length →
    ∃ s', (readLoop pin length fuel buffer).exec s =
        (.ok (buffer ++ d.bytes.take (length - buffer.length)), s') ∧
      Reads (message ++ d.bytes.take (length - buffer.length))
        (d.after (length - buffer.length)) output offset s') ∧
  (d.bytes.length < length - buffer.length →
    ∃ s', (readLoop pin length fuel buffer).exec s = (.error (.err (.source
        (.earlyEof pin.name pin.fileBytes.toNat (message.length + d.bytes.length)))), s') ∧
      Left output offset s')

theorem fills_full {length fuel : ℕ} {buffer : List UInt8} (hs : Reads message d output offset s)
    (hfuel : fuel ≠ 0) (h : buffer.length = length) :
    Fills pin length fuel buffer message d output offset s := by
  obtain ⟨fuel, rfl⟩ := Nat.exists_eq_succ_of_ne_zero hfuel
  rw [Fills, h, Nat.sub_self, List.take_zero, List.append_nil, List.append_nil, after_zero]
  exact ⟨fun _ => ⟨s, readLoop_full h, hs⟩, fun h => absurd h (Nat.not_lt_zero _)⟩

/-- **The delivery does not matter** as long as the file does not get too long. -/
theorem readLoop_fits (pin : FilePin) (length : ℕ) {fuel : ℕ} (buffer : List UInt8)
    (hd : d.Interrupts)
    (hs : Reads message d output offset s) (hfuel : d.length < fuel)
    (hbuffer : buffer.length ≤ length)
    (hfits : message.length + min (length - buffer.length) d.bytes.length ≤ pin.fileBytes.toNat) :
    Fills pin length fuel buffer message d output offset s := by
  induction d generalizing fuel buffer message s with
  | nil =>
    rcases hbuffer.eq_or_lt with hfull | hlt
    · exact fills_full hs (Nat.ne_of_gt (Nat.zero_lt_of_lt hfuel)) hfull
    obtain ⟨fuel, rfl⟩ := Nat.exists_eq_succ_of_ne_zero (Nat.ne_of_gt hfuel)
    obtain ⟨s', hexec, hleft⟩ := readLoop_nil pin fuel hlt hs.reader
    rw [hs.output, hs.offset] at hleft
    rw [hs.total] at hexec
    refine ⟨fun h => ?_, fun _ => ⟨s', hexec, hleft⟩⟩
    rw [bytes_nil, List.length_nil] at h
    omega
  | cons event d ih =>
    rw [List.length_cons] at hfuel
    rcases hbuffer.eq_or_lt with hfull | hlt
    · exact fills_full hs (Nat.ne_of_gt (Nat.zero_lt_of_lt hfuel)) hfull
    obtain ⟨fuel, rfl⟩ : ∃ k, fuel = k + 1 := ⟨fuel - 1, by omega⟩
    cases event with
    | failure kind =>
      obtain rfl := hd kind List.mem_cons_self
      rw [Fills, readLoop_interrupted hlt hs.reader, after, if_neg (by omega)]
      exact ih (s := { s with reader := d }) buffer hd.tail
        ⟨rfl, hs.hasher, hs.total, hs.output, hs.offset⟩ (by omega) hbuffer hfits
    | chunk b hb =>
      rw [bytes_chunk, List.length_append] at hfits
      have hread : Reads message (Delivery.read (length - buffer.length) (.chunk b hb :: d)).2
          output offset { s with
            reader := (Delivery.read (length - buffer.length) (.chunk b hb :: d)).2 } :=
        ⟨rfl, hs.hasher, hs.total, hs.output, hs.offset⟩
      have hbound := pin.fileBytes.toNat_lt
      have hle : ¬ (message ++ b.take (length - buffer.length)).length > pin.fileBytes.toNat := by
        rw [List.length_append, List.length_take]
        omega
      obtain ⟨s', htake, hs'⟩ := takeIn_exec pin hread
        (b.take (length - buffer.length)) (by omega)
      rw [if_neg hle] at htake
      have hstep := (readLoop_chunk pin fuel hlt hs.reader).trans
        (exec_bind_of_ok htake)
      rcases Nat.lt_or_ge (length - buffer.length) b.length with hshort | hlong
      · -- the piece fills the buffer, and the rest of it stays
        obtain ⟨hn, hafter⟩ := after_chunk_of_lt hb d (by omega) hshort
        have hfull : (buffer ++ b.take (length - buffer.length)).length = length := by
          rw [List.length_append, List.length_take]
          omega
        obtain ⟨fuel, rfl⟩ : ∃ k, fuel = k + 1 := ⟨fuel - 1, by omega⟩
        rw [Fills, bytes_chunk, List.take_append_of_le_length hshort.le, hafter]
        rw [Delivery.read, dif_pos hn] at hs'
        refine ⟨fun _ => ⟨s', hstep.trans (readLoop_full hfull), hs'⟩, fun h => ?_⟩
        rw [List.length_append] at h
        omega
      · -- the piece is taken in whole
        rw [Delivery.read, dif_neg (by rwa [not_not, List.drop_eq_nil_iff])] at hs'
        rw [List.take_of_length_le hlong] at hs' hstep
        have hneed : length - (buffer ++ b).length = length - buffer.length - b.length := by
          rw [List.length_append, Nat.sub_add_eq]
        obtain ⟨hok, herr⟩ := @ih (message ++ b) s' fuel (buffer ++ b) hd.tail hs' (by omega)
          (by rw [List.length_append]; omega) (by rw [hneed, List.length_append]; omega)
        rw [hneed] at hok herr
        have hmessage : message.length + (b ++ bytes d).length =
            (message ++ b).length + (bytes d).length := by
          rw [List.length_append, List.length_append, Nat.add_assoc]
        rw [Fills, hstep, bytes_chunk, List.take_append, List.take_of_length_le hlong,
          after_chunk_of_le hlong, ← List.append_assoc, ← List.append_assoc, hmessage,
          List.length_append]
        exact ⟨fun h => hok (by omega), fun h => herr (by omega)⟩

/-! ### Reading too much -/

/-- The total at which the limit is passed is that of the piece that passes it. -/
theorem readLoop_overruns (pin : FilePin) (length : ℕ) {fuel : ℕ} (buffer : List UInt8)
    (hd : d.Interrupts)
    (hs : Reads message d output offset s) (hfuel : d.length < fuel)
    (hle : message.length ≤ pin.fileBytes.toNat)
    (hlen : message.length + (length - buffer.length) < 2 ^ 64)
    (hover : pin.fileBytes.toNat <
      message.length + min (length - buffer.length) d.bytes.length) :
    ∃ s', (readLoop pin length fuel buffer).exec s = (.error (.err (.source
        (.fileSize pin.name pin.fileBytes.toNat (message.length +
          min (length - buffer.length)
            (d.chunkEnd (pin.fileBytes.toNat - message.length)))))), s') ∧
      Left output offset s' := by
  induction d generalizing fuel buffer message s with
  | nil =>
    rw [bytes_nil, List.length_nil] at hover
    omega
  | cons event d ih =>
    rw [List.length_cons] at hfuel
    have hlt : buffer.length < length := by omega
    obtain ⟨fuel, rfl⟩ : ∃ k, fuel = k + 1 := ⟨fuel - 1, by omega⟩
    cases event with
    | failure kind =>
      obtain rfl := hd kind List.mem_cons_self
      rw [readLoop_interrupted hlt hs.reader, chunkEnd]
      exact ih (s := { s with reader := d }) buffer hd.tail
        ⟨rfl, hs.hasher, hs.total, hs.output, hs.offset⟩ (by omega) hle hlen hover
    | chunk b hb =>
      rw [bytes_chunk, List.length_append] at hover
      have hread : Reads message (Delivery.read (length - buffer.length) (.chunk b hb :: d)).2
          output offset { s with
            reader := (Delivery.read (length - buffer.length) (.chunk b hb :: d)).2 } :=
        ⟨rfl, hs.hasher, hs.total, hs.output, hs.offset⟩
      have hpiece : (message ++ b.take (length - buffer.length)).length =
          message.length + min (length - buffer.length) b.length := by
        rw [List.length_append, List.length_take]
      obtain ⟨s', htake, hs'⟩ := takeIn_exec pin hread
        (b.take (length - buffer.length)) (by omega)
      have hstep := readLoop_chunk pin fuel hlt hs.reader
      rw [chunkEnd]
      by_cases hgt : (message ++ b.take (length - buffer.length)).length > pin.fileBytes.toNat
      · -- this is the piece
        rw [if_pos hgt, hpiece] at htake
        rw [if_pos (by omega)]
        refine ⟨s', hstep.trans ?_, hs'.output, hs'.offset⟩
        rw [exec_bind, htake]
      · -- the limit is passed later, so the buffer is not full
        have hlong : b.length ≤ length - buffer.length := by omega
        rw [if_neg hgt] at htake
        rw [Delivery.read, dif_neg (by rwa [not_not, List.drop_eq_nil_iff])] at hs'
        rw [List.take_of_length_le hlong] at hs' htake hstep
        have hneed : length - (buffer ++ b).length = length - buffer.length - b.length := by
          rw [List.length_append, Nat.sub_add_eq]
        have hmessage : (message ++ b).length = message.length + b.length := List.length_append
        obtain ⟨s'', hexec, hleft⟩ := @ih (message ++ b) s' fuel (buffer ++ b) hd.tail hs'
          (by omega) (by omega) (by omega) (by omega)
        refine ⟨s'', (hstep.trans (exec_bind_of_ok htake)).trans (hexec.trans ?_), hleft⟩
        rw [if_neg (by omega), hneed, hmessage, ← Nat.sub_sub]
        congr 5
        omega

/-! ### One call -/

theorem readExactSource_exec {length : ℕ} : (readExactSource pin length).exec s =
    (readLoop pin length (s.reader.length + 1) []).exec s :=
  exec_bind_of_ok exec_get

end Streaming

/-- The reader of `s` has delivered the first `n` bytes of `d`. -/
structure At (d : Delivery) (n : ℕ) (output : List UInt8) (offset : ℕ) (s : Streaming) : Prop where
  le : n ≤ d.bytes.length
  reads : Reads (d.bytes.take n) (d.after n) output offset s

theorem At.initial (d : Delivery) (output : List UInt8) (offset : ℕ) :
    At d 0 output offset (.start d output offset) :=
  ⟨Nat.zero_le _, (after_zero d).symm, Sha256.Holds.initial, rfl, rfl, rfl⟩

theorem At.total {d : Delivery} {n : ℕ} {output : List UInt8} {offset : ℕ} {s : Streaming}
    (h : At d n output offset s) : s.total = n := by
  rw [h.reads.total, List.length_take, Nat.min_eq_left h.le]

namespace Streaming

variable {output : List UInt8} {d : Delivery} {offset n : ℕ} {s : Streaming}

theorem readExactSource_fits (pin : FilePin) (length : ℕ) (hd : d.Interrupts)
    (h : At d n output offset s)
    (hfits : min (n + length) d.bytes.length ≤ pin.fileBytes.toNat) :
    (n + length ≤ d.bytes.length →
      ∃ s', (readExactSource pin length).exec s = (.ok ((d.bytes.drop n).take length), s') ∧
        At d (n + length) output offset s') ∧
    (d.bytes.length < n + length →
      ∃ s', (readExactSource pin length).exec s = (.error (.err (.source
          (.earlyEof pin.name pin.fileBytes.toNat d.bytes.length))), s') ∧
        Left output offset s') := by
  have hle := h.le
  have hread : (d.bytes.take n).length = n := by rw [List.length_take, Nat.min_eq_left hle]
  have hrest : (d.after n).bytes.length = d.bytes.length - n := by
    rw [bytes_after, List.length_drop]
  obtain ⟨hok, herr⟩ := readLoop_fits pin length []
    (hd.after n) h.reads (Nat.lt_succ_self _) (Nat.zero_le _)
    (by rw [hread, hrest, List.length_nil]; omega)
  rw [readExactSource_exec, h.reads.reader]
  rw [List.length_nil, Nat.sub_zero, hrest] at hok herr
  rw [bytes_after, after_after, ← List.take_add] at hok
  rw [hread] at herr
  refine ⟨fun hn => ?_, fun hn => ?_⟩
  · obtain ⟨s', hexec, hreads⟩ := hok (by omega)
    exact ⟨s', hexec, hn, hreads⟩
  · obtain ⟨s', hexec, hleft⟩ := herr (by omega)
    refine ⟨s', ?_, hleft⟩
    rw [hexec, Nat.add_sub_cancel' hle]

theorem readExactSource_overruns (pin : FilePin) (length : ℕ) (hd : d.Interrupts)
    (h : At d n output offset s)
    (hn : n ≤ pin.fileBytes.toNat) (hlen : n + length < 2 ^ 64)
    (hover : pin.fileBytes.toNat < min (n + length) d.bytes.length) :
    ∃ s', (readExactSource pin length).exec s = (.error (.err (.source (.fileSize pin.name
        pin.fileBytes.toNat (min (n + length) (d.chunkEnd pin.fileBytes.toNat))))), s') ∧
      Left output offset s' := by
  have hle := h.le
  have hread : (d.bytes.take n).length = n := by rw [List.length_take, Nat.min_eq_left hle]
  have hrest : (d.after n).bytes.length = d.bytes.length - n := by
    rw [bytes_after, List.length_drop]
  obtain ⟨s', hexec, hleft⟩ := readLoop_overruns pin length []
    (hd.after n) h.reads (Nat.lt_succ_self _) (by rw [hread]; exact hn)
    (by rw [hread, List.length_nil]; omega) (by rw [hread, hrest, List.length_nil]; omega)
  refine ⟨s', ?_, hleft⟩
  rw [readExactSource_exec, h.reads.reader, hexec, hread, List.length_nil, Nat.sub_zero,
    ← Nat.add_min_add_left, chunkEnd_after hn (by omega)]

end Streaming

end WeightStream

end Ferric
