import Ferric.Lib.Coupling
import Ferric.WeightStream.Manifest
import Ferric.WeightStream.Reading

/-!
# Two readers in step

Two readers that deliver the same file go through `stream_file` in step until its end is checked:
they fill the same buffers, write the same bytes and fail with the same error, unless the file is
longer than its pin within its length or its header. The sections are those of one pass over the
whole file.

## Main definitions

* `Reaches` — the file passes every check before that of its end
* `Overruns`, `crossing` — the file is too long within its header, and where that shows
* `Passes` — one pass over the whole file

## Main results

* `tensors_coupled` — the tensors
* `beforeEnd_coupled` — everything before the end
-/

namespace Ferric

namespace WeightStream

open Ferric.Action (query fail)
open Delivery
open Safetensors
open Spec (ModelRole)

theorem slice_append (file : List UInt8) (n i j : ℕ) :
    (file.drop n).take i ++ (file.drop (n + i)).take j = (file.drop n).take (i + j) := by
  rw [← List.drop_drop, ← List.take_add]

/-! ### Two readers of one file -/

/-- Two deliveries of one file, with no error but `Interrupted`. -/
structure Deliver (d₁ d₂ : Delivery) (file : List UInt8) : Prop where
  interrupts₁ : d₁.Interrupts
  interrupts₂ : d₂.Interrupts
  bytes₁ : d₁.bytes = file
  bytes₂ : d₂.bytes = file

/-- Both readers have delivered the first `n` bytes. -/
structure Both (d₁ d₂ : Delivery) (n : ℕ) (output : List UInt8) (offset : ℕ) (s t : Streaming) :
    Prop where
  left : At d₁ n output offset s
  right : At d₂ n output offset t

theorem Both.write {d₁ d₂ : Delivery} {n : ℕ} {output : List UInt8} {offset : ℕ}
    {s t : Streaming} (h : Both d₁ d₂ n output offset s t) (bytes : List UInt8) :
    Both d₁ d₂ n (output ++ bytes) offset { s with output := s.output ++ bytes }
      { t with output := t.output ++ bytes } := by
  have hwrite : ∀ {d : Delivery} {s : Streaming}, At d n output offset s →
      At d n (output ++ bytes) offset { s with output := s.output ++ bytes } := fun h =>
    ⟨h.le, h.reads.reader, h.reads.hasher, h.reads.total, by rw [h.reads.output], h.reads.offset⟩
  exact ⟨hwrite h.left, hwrite h.right⟩

theorem Both.place {d₁ d₂ : Delivery} {n : ℕ} {output : List UInt8} {offset : ℕ}
    {s t : Streaming} (h : Both d₁ d₂ n output offset s t) (offset' : ℕ) :
    Both d₁ d₂ n output offset' { s with destinationOffset := offset' }
      { t with destinationOffset := offset' } := by
  have hplace : ∀ {d : Delivery} {s : Streaming}, At d n output offset s →
      At d n output offset' { s with destinationOffset := offset' } := fun h =>
    ⟨h.le, h.reads.reader, h.reads.hasher, h.reads.total, h.reads.output, rfl⟩
  exact ⟨hplace h.left, hplace h.right⟩

/-- The same was written, and the next section goes to the same place. -/
def SameLeft (s t : Streaming) : Prop :=
  s.output = t.output ∧ s.destinationOffset = t.destinationOffset

theorem Left.same {output : List UInt8} {offset : ℕ} {s t : Streaming} (hs : Left output offset s)
    (ht : Left output offset t) : SameLeft s t :=
  ⟨hs.output.trans ht.output.symm, hs.offset.trans ht.offset.symm⟩

theorem At.left {d : Delivery} {n : ℕ} {output : List UInt8} {offset : ℕ} {s : Streaming}
    (h : At d n output offset s) : Left output offset s :=
  ⟨h.reads.output, h.reads.offset⟩

theorem Both.same {d₁ d₂ : Delivery} {n : ℕ} {output : List UInt8} {offset : ℕ} {s t : Streaming}
    (h : Both d₁ d₂ n output offset s t) : SameLeft s t :=
  h.left.left.same h.right.left

namespace Streaming

variable {pin : FilePin} {role : ModelRole} {d₁ d₂ : Delivery} {file output : List UInt8}
  {offset n : ℕ} {s t : Streaming}

theorem readExactSource_coupled (pin : FilePin) (length : ℕ) (hd : Deliver d₁ d₂ file)
    (h : Both d₁ d₂ n output offset s t)
    (hfits : min (n + length) file.length ≤ pin.fileBytes.toNat) :
    Coupled s t (readExactSource pin length)
      (fun bytes s' t' => n + length ≤ file.length ∧ bytes = (file.drop n).take length ∧
        Both d₁ d₂ (n + length) output offset s' t')
      (fun s' t' => file.length < n + length ∧ SameLeft s' t') := by
  have hleft := readExactSource_fits pin length hd.interrupts₁ h.left
    (by rwa [hd.bytes₁])
  have hright := readExactSource_fits pin length hd.interrupts₂ h.right
    (by rwa [hd.bytes₂])
  rw [hd.bytes₁] at hleft
  rw [hd.bytes₂] at hright
  rcases Nat.lt_or_ge file.length (n + length) with hlt | hge
  · obtain ⟨s', hs, hs'⟩ := hleft.2 hlt
    obtain ⟨t', ht, ht'⟩ := hright.2 hlt
    exact coupled_of_error hs ht ⟨hlt, hs'.same ht'⟩
  · obtain ⟨s', hs, hs'⟩ := hleft.1 hge
    obtain ⟨t', ht, ht'⟩ := hright.1 hge
    exact coupled_of_ok hs ht ⟨hge, rfl, hs', ht'⟩

/-! ### One section -/

/-- Piece after piece of a section: the same bytes are hashed and written. -/
theorem sectionLoop_coupled (pin : FilePin) {fuel remaining : ℕ} {hasher : Sha256}
    {message : List UInt8}
    (hd : Deliver d₁ d₂ file) (h : Both d₁ d₂ n output offset s t)
    (hhasher : hasher.Holds message) (hfuel : remaining < fuel)
    (hfits : n + remaining ≤ pin.fileBytes.toNat) (hlen : message.length + remaining < 2 ^ 64) :
    Coupled s t (sectionLoop pin fuel remaining hasher)
      (fun hasher' s' t' => n + remaining ≤ file.length ∧
        hasher'.Holds (message ++ (file.drop n).take remaining) ∧
        Both d₁ d₂ (n + remaining) (output ++ (file.drop n).take remaining) offset s' t')
      (fun s' t' => file.length < n + remaining ∧ SameLeft s' t') := by
  induction fuel generalizing remaining hasher message n output s t with
  | zero => exact absurd hfuel (Nat.not_lt_zero _)
  | succ fuel ih =>
    rw [sectionLoop]
    by_cases hremaining : remaining ≠ 0
    · rw [if_pos hremaining]
      have hchunk : min remaining streamBufferBytes +
          (remaining - min remaining streamBufferBytes) = remaining :=
            Nat.add_sub_cancel' (Nat.min_le_left _ _)
      have hpos : 0 < min remaining streamBufferBytes :=
        Nat.lt_min.mpr ⟨Nat.pos_of_ne_zero hremaining, by decide⟩
      generalize min remaining streamBufferBytes = chunk at hchunk hpos
      refine (readExactSource_coupled pin chunk hd h (by omega)).bind ?_ ?_
      · intro s' t' herror
        exact ⟨by omega, herror.2⟩
      · rintro bytes s' t' ⟨hle, rfl, hboth⟩
        have hbytes : ((file.drop n).take chunk).length = chunk := by
          rw [List.length_take, List.length_drop]
          omega
        have htaken : (message ++ (file.drop n).take chunk).length < 2 ^ 64 := by
          rw [List.length_append, hbytes]
          omega
        obtain ⟨next, hupdate, hnext⟩ := hhasher.update (ε := WeightStreamError) htaken
        refine coupled_query rfl (fun hne => absurd hupdate (hne next)) fun hasher' hhasher' => ?_
        obtain rfl := Except.ok.inj (hupdate.symm.trans hhasher')
        refine coupled_modify ?_
        have hsub : checkedSub remaining chunk = some (remaining - chunk) :=
          checkedSub_of_le (by omega)
        refine coupled_query rfl (fun hne => absurd (orErr_eq_ok.mpr hsub) (hne _)) ?_
        rintro _ hremaining'
        obtain rfl := Option.some.inj (hsub.symm.trans (orErr_eq_ok.mp hremaining'))
        have hslice : (file.drop n).take chunk ++ (file.drop (n + chunk)).take (remaining - chunk) =
            (file.drop n).take remaining := by
          rw [slice_append, hchunk]
        have hloop := ih (hboth.write ((file.drop n).take chunk)) hnext
          (show remaining - chunk < fuel by omega) (by omega)
          (by rw [List.length_append, hbytes]; omega)
        rw [List.append_assoc, List.append_assoc, hslice, Nat.add_assoc, hchunk] at hloop
        exact hloop
    · rw [if_neg hremaining]
      rw [not_not] at hremaining
      subst hremaining
      have hle := h.left.le
      rw [hd.bytes₁] at hle
      simp only [Nat.add_zero, List.take_zero, List.append_nil]
      exact coupled_pure ⟨hle, hhasher, h⟩

theorem streamSection_coupled (pin : FilePin) (length : ℕ) (hd : Deliver d₁ d₂ file)
    (h : Both d₁ d₂ n output offset s t) (hfits : n + length ≤ pin.fileBytes.toNat)
    (hlen : length < 2 ^ 61) :
    Coupled s t (streamSection pin length)
      (fun digest s' t' => n + length ≤ file.length ∧
        digest = sha256 ((file.drop n).take length) ∧
        Both d₁ d₂ (n + length) (output ++ (file.drop n).take length) offset s' t')
      (fun s' t' => file.length < n + length ∧ SameLeft s' t') := by
  have hloop := sectionLoop_coupled pin hd h Sha256.Holds.initial (Nat.lt_succ_self length)
    hfits (by rw [List.length_nil]; omega)
  refine hloop.bind (fun _ _ => id) ?_
  rintro hasher s' t' ⟨hle, hholds, hboth⟩
  rw [List.nil_append] at hholds
  have hfinish := hholds.finish (ε := WeightStreamError)
    (by rw [List.length_take]; omega)
  refine coupled_query_last rfl (fun hne => absurd hfinish (hne _)) fun digest hdigest => ?_
  exact ⟨hle, Except.ok.inj (hdigest.symm.trans hfinish), hboth⟩

/-! ### One tensor -/

/-- The checks of `stream_file` before a tensor is streamed. -/
def Placed (role : ModelRole) (dataBase offset : ℕ) (tensor : ParsedTensor) : Prop :=
  (dataBase + tensor.start) % 2 = 0 ∧ offset % 2 = 0 ∧
    offset + (tensor.stop - tensor.start) ≤ role.tensorDataBytes

/-- The progress over a file that is read in one piece. -/
def progressAt (file : List UInt8) (n : ℕ) (output : List UInt8) (offset : ℕ)
    (sections : List WeightSection) : Progress :=
  ⟨⟨file.take n, file.drop n⟩, output, offset, sections⟩

/-- A section with the digest of the bytes it names. -/
def Hashed (file : List UInt8) (s : WeightSection) : Prop :=
  s.sha256 = Ferric.sha256 ((file.drop s.sourceOffset.toNat).take s.sourceLength.toNat)

theorem whole_readExactSource (pin : FilePin) (file : List UInt8) (n length : ℕ)
    (hle : n + length ≤ file.length)
    (hfits : n + length ≤ pin.fileBytes.toNat) :
    WeightStream.readExactSource pin ⟨file.take n, file.drop n⟩ length =
      .ok ((file.drop n).take length, ⟨file.take (n + length), file.drop (n + length)⟩) := by
  have hbound := pin.fileBytes.toNat_lt
  have hread : min length (file.drop n).length = length := by
    rw [List.length_drop]
    omega
  have htake : (file.take n).length = n := by
    rw [List.length_take]
    omega
  have htotal : checkedAdd 64 n length = some (n + length) :=
    checkedAdd_eq_some.mpr ⟨by omega, rfl⟩
  rw [WeightStream.readExactSource, hread, htake, htotal, orErr, ok_bind,
    failIf_of_not (by omega), ok_bind, failIf_of_not (Nat.lt_irrefl _), ok_bind, List.take_add,
    List.drop_drop]
  rfl

/-- The section that is made of a tensor. -/
def sectionOf (pin : FilePin) (role : ModelRole) (dataBase offset : ℕ) (tensor : ParsedTensor)
    (digest : Digest) : WeightSection where
  tensorName := tensor.name
  role := role
  dtype := tensor.metadata.dtype
  rank := .ofNat tensor.metadata.rank
  dimension0 := .ofNat tensor.metadata.dimension0
  dimension1 := .ofNat tensor.metadata.dimension1
  sourceArtifact := pin.name
  sourceOffset := .ofNat (dataBase + tensor.start)
  sourceLength := .ofNat (tensor.stop - tensor.start)
  destinationOffset := .ofNat offset
  destinationLength := .ofNat (tensor.stop - tensor.start)
  alignment := sectionAlignment
  transform := .bf16RowMajorIdentityV1
  sha256 := digest

theorem Planned.even {tensor : ParsedTensor} (ht : Planned role tensor) :
    (tensor.stop - tensor.start) % 2 = 0 := by
  have hbytes := ht.bytes
  omega

theorem whole_streamTensor {dataBase : ℕ} {tensor : ParsedTensor} {sections : List WeightSection}
    (ht : Planned role tensor) (hplaced : Placed role dataBase offset tensor)
    (hle : dataBase + tensor.stop ≤ file.length)
    (hfits : dataBase + tensor.stop ≤ pin.fileBytes.toNat) :
    WeightStream.streamTensor Ferric.sha256 pin role dataBase
      (progressAt file (dataBase + tensor.start) output offset sections) tensor =
      .ok (progressAt file (dataBase + tensor.stop)
        (output ++ (file.drop (dataBase + tensor.start)).take (tensor.stop - tensor.start))
        (offset + (tensor.stop - tensor.start))
        (sections ++ [sectionOf pin role dataBase offset tensor (Ferric.sha256
          ((file.drop (dataBase + tensor.start)).take (tensor.stop - tensor.start)))])) := by
  have hlt := ht.start_lt
  have hbound := pin.fileBytes.toNat_lt
  have hrole : role.tensorDataBytes < 2 ^ 61 := by cases role <;> decide
  obtain ⟨hsource, hoffset, hroom⟩ := hplaced
  have hadd : checkedAdd 64 dataBase tensor.start = some (dataBase + tensor.start) :=
    checkedAdd_eq_some.mpr ⟨by omega, rfl⟩
  have hend : checkedAdd 64 offset (tensor.stop - tensor.start) =
      some (offset + (tensor.stop - tensor.start)) :=
    checkedAdd_eq_some.mpr ⟨by omega, rfl⟩
  have haligned : ¬ ((dataBase + tensor.start) % 2 ≠ 0 ∨ offset % 2 ≠ 0 ∨
      (tensor.stop - tensor.start) % 2 ≠ 0) := by
    have heven := Planned.even ht
    omega
  have hread := whole_readExactSource pin file (dataBase + tensor.start)
    (tensor.stop - tensor.start) (by omega) (by omega)
  rw [show dataBase + tensor.start + (tensor.stop - tensor.start) = dataBase + tensor.stop by omega]
    at hread
  rw [WeightStream.streamTensor, checkedSub_of_le hlt.le, hadd, orErr, ok_bind, orErr, ok_bind]
  refine bind_eq_ok.mpr ⟨(), failIf_of_not haligned, ?_⟩
  refine bind_eq_ok.mpr ⟨_, orErr_eq_ok.mpr hend, ?_⟩
  refine bind_eq_ok.mpr ⟨(), failIf_of_not (Nat.not_lt_of_ge hroom), ?_⟩
  exact bind_eq_ok.mpr ⟨_, hread, rfl⟩

theorem hashed_sectionOf {dataBase : ℕ} {tensor : ParsedTensor}
    (hplaced : Placed role dataBase offset tensor)
    (hfits : dataBase + tensor.start ≤ pin.fileBytes.toNat) :
    Hashed file (sectionOf pin role dataBase offset tensor (Ferric.sha256
      ((file.drop (dataBase + tensor.start)).take (tensor.stop - tensor.start)))) := by
  have hbound := pin.fileBytes.toNat_lt
  have hrole : role.tensorDataBytes < 2 ^ 61 := by cases role <;> decide
  have hroom := hplaced.2.2
  rw [Hashed, sectionOf]
  dsimp only
  rw [UInt64.toNat_ofNat_of_lt' (by show _ < 2 ^ 64; omega),
    UInt64.toNat_ofNat_of_lt' (by show _ < 2 ^ 64; omega)]

theorem streamTensor_coupled (pin : FilePin) {dataBase : ℕ} {tensor : ParsedTensor}
    {sections : List WeightSection}
    (hd : Deliver d₁ d₂ file) (ht : Planned role tensor)
    (h : Both d₁ d₂ (dataBase + tensor.start) output offset s t)
    (hfits : dataBase + tensor.stop ≤ pin.fileBytes.toNat) :
    Coupled s t (streamTensor pin role dataBase sections tensor)
      (fun sections' s' t' => Placed role dataBase offset tensor ∧
        dataBase + tensor.stop ≤ file.length ∧
        sections' = sections ++ [sectionOf pin role dataBase offset tensor (Ferric.sha256
          ((file.drop (dataBase + tensor.start)).take (tensor.stop - tensor.start)))] ∧
        Both d₁ d₂ (dataBase + tensor.stop)
          (output ++ (file.drop (dataBase + tensor.start)).take (tensor.stop - tensor.start))
          (offset + (tensor.stop - tensor.start)) s' t')
      (fun s' t' => ¬ (Placed role dataBase offset tensor ∧ dataBase + tensor.stop ≤ file.length) ∧
        SameLeft s' t') := by
  have hlt := ht.start_lt
  have hbound := pin.fileBytes.toNat_lt
  have hrole : role.tensorDataBytes < 2 ^ 61 := by cases role <;> decide
  have heven := Planned.even ht
  have hsub : checkedSub tensor.stop tensor.start = some (tensor.stop - tensor.start) :=
    checkedSub_of_le hlt.le
  have hadd : checkedAdd 64 dataBase tensor.start = some (dataBase + tensor.start) :=
    checkedAdd_eq_some.mpr ⟨by omega, rfl⟩
  rw [streamTensor]
  refine coupled_query rfl (fun hne => absurd (orErr_eq_ok.mpr hsub) (hne _)) fun _ hlength => ?_
  obtain rfl := Option.some.inj (hsub.symm.trans (orErr_eq_ok.mp hlength))
  refine coupled_query rfl (fun hne => absurd (orErr_eq_ok.mpr hadd) (hne _)) fun _ hoffset => ?_
  obtain rfl := Option.some.inj (hadd.symm.trans (orErr_eq_ok.mp hoffset))
  have hstart : s.destinationOffset = offset := h.left.reads.offset
  refine coupled_query (congrArg _ h.same.2) (fun hne => absurd rfl (hne _)) fun _ hdest => ?_
  obtain rfl := hstart.symm.trans (Except.ok.inj hdest)
  refine coupled_failIf (fun hodd => ⟨fun hplaced => ?_, h.same⟩) fun haligned => ?_
  · obtain ⟨⟨hsource, hoffset, -⟩, -⟩ := hplaced
    omega
  refine coupled_query rfl (fun hne => ⟨fun hplaced => ?_, h.same⟩) fun destinationEnd hend => ?_
  · refine absurd (orErr_eq_ok.mpr (checkedAdd_eq_some.mpr ⟨?_, rfl⟩)) (hne _)
    have hroom := hplaced.1.2.2
    omega
  obtain ⟨-, rfl⟩ := checkedAdd_eq_some.mp (orErr_eq_ok.mp hend)
  refine coupled_failIf (fun hover => ⟨fun hplaced => ?_, h.same⟩) fun hroom => ?_
  · exact absurd hplaced.1.2.2 (Nat.not_le_of_gt hover)
  have hplaced : Placed role dataBase offset tensor :=
    ⟨by omega, by omega, Nat.le_of_not_gt hroom⟩
  have hsection := streamSection_coupled pin (tensor.stop - tensor.start) hd h
    (by omega) (by omega)
  rw [show dataBase + tensor.start + (tensor.stop - tensor.start) = dataBase + tensor.stop by omega]
    at hsection
  refine hsection.bind (fun s' t' herror => ⟨fun hall => ?_, herror.2⟩) ?_
  · exact absurd hall.2 (Nat.not_le_of_gt herror.1)
  rintro digest s' t' ⟨hle, rfl, hboth⟩
  refine coupled_modify (coupled_pure ⟨hplaced, hle, rfl, ?_⟩)
  exact hboth.place _

/-! ### All tensors -/

/-- Tensors that cover the data from `a` to `b` pass the checks of `stream_file`. -/
def AllPlaced (role : ModelRole) (dataBase offset a b : ℕ) (tensors : List ParsedTensor) : Prop :=
  tensors ≠ [] → (dataBase + a) % 2 = 0 ∧ offset % 2 = 0 ∧ offset + (b - a) ≤ role.tensorDataBytes

theorem allPlaced_cons (dataBase offset : ℕ) {a b : ℕ} {tensor : ParsedTensor}
    {tensors : List ParsedTensor}
    (ht : Planned role tensor) (htiles : TilesFrom a (tensor :: tensors) b) :
    AllPlaced role dataBase offset a b (tensor :: tensors) ↔ Placed role dataBase offset tensor ∧
      AllPlaced role dataBase (offset + (tensor.stop - tensor.start)) tensor.stop b tensors := by
  obtain ⟨rfl, hlt, hrest⟩ := htiles
  have heven := Planned.even ht
  have hle := hrest.bound.1
  constructor
  · intro h
    obtain ⟨hsource, hoffset, hroom⟩ := h (List.cons_ne_nil _ _)
    exact ⟨⟨hsource, hoffset, by omega⟩, fun _ => ⟨by omega, by omega, by omega⟩⟩
  · rintro ⟨⟨hsource, hoffset, hroom⟩, hall⟩ -
    refine ⟨hsource, hoffset, ?_⟩
    cases tensors with
    | nil =>
      have hstop : tensor.stop = b := hrest
      rwa [← hstop]
    | cons next tensors =>
      obtain ⟨-, -, hroom'⟩ := hall (List.cons_ne_nil _ _)
      omega

/-- **Tensor after tensor**, with the progress of one pass over the whole file. -/
theorem tensors_coupled (pin : FilePin) (dataBase : ℕ) {a b : ℕ} {tensors : List ParsedTensor}
    (sections : List WeightSection) (hd : Deliver d₁ d₂ file)
    (ht : ∀ tensor ∈ tensors, Planned role tensor) (htiles : TilesFrom a tensors b)
    (h : Both d₁ d₂ (dataBase + a) output offset s t) (hfits : dataBase + b ≤ pin.fileBytes.toNat) :
    Coupled s t (tensors.foldlM (streamTensor pin role dataBase) sections)
      (fun sections' s' t' => AllPlaced role dataBase offset a b tensors ∧
        dataBase + b ≤ file.length ∧
        tensors.foldlM (WeightStream.streamTensor Ferric.sha256 pin role dataBase)
          (progressAt file (dataBase + a) output offset sections) =
          .ok (progressAt file (dataBase + b) (output ++ (file.drop (dataBase + a)).take (b - a))
            (offset + (b - a)) sections') ∧
        (∀ x ∈ sections', x ∈ sections ∨ Hashed file x) ∧
        Both d₁ d₂ (dataBase + b) (output ++ (file.drop (dataBase + a)).take (b - a))
          (offset + (b - a)) s' t')
      (fun s' t' => ¬ (AllPlaced role dataBase offset a b tensors ∧ dataBase + b ≤ file.length) ∧
        SameLeft s' t') := by
  induction tensors generalizing a offset output sections s t with
  | nil =>
    have hab : a = b := htiles
    subst hab
    have hle := h.left.le
    rw [hd.bytes₁] at hle
    simp only [Nat.sub_self, List.take_zero, List.append_nil, Nat.add_zero]
    exact coupled_pure ⟨fun hne => absurd rfl hne, hle, rfl, fun x hx => .inl hx, h⟩
  | cons tensor tensors ih =>
    obtain ⟨htensor, htensors⟩ := List.forall_mem_cons.mp ht
    have hall := allPlaced_cons dataBase offset htensor htiles
    obtain ⟨rfl, hlt, hrest⟩ := htiles
    have hle := hrest.bound.1
    rw [List.foldlM_cons, List.foldlM_cons, hall]
    refine (streamTensor_coupled pin hd htensor h (by omega)).bind ?_ ?_
    · rintro s' t' ⟨hnot, hsame⟩
      exact ⟨fun hboth => hnot ⟨hboth.1.1, by omega⟩, hsame⟩
    · rintro _ s' t' ⟨hplaced, hlength, rfl, hboth⟩
      have hslice : (file.drop (dataBase + tensor.start)).take (tensor.stop - tensor.start) ++
          (file.drop (dataBase + tensor.stop)).take (b - tensor.stop) =
          (file.drop (dataBase + tensor.start)).take (b - tensor.start) := by
        have hsplice := slice_append file (dataBase + tensor.start) (tensor.stop - tensor.start)
          (b - tensor.stop)
        rwa [show dataBase + tensor.start + (tensor.stop - tensor.start) = dataBase + tensor.stop by
          omega, show tensor.stop - tensor.start + (b - tensor.stop) = b - tensor.start by omega]
          at hsplice
      have hnext := ih (sections ++ [sectionOf pin role dataBase offset tensor (Ferric.sha256
        ((file.drop (dataBase + tensor.start)).take (tensor.stop - tensor.start)))]) htensors hrest
        hboth
      rw [List.append_assoc, hslice, Nat.add_assoc,
        show tensor.stop - tensor.start + (b - tensor.stop) = b - tensor.start by omega] at hnext
      refine hnext.mono ?_ ?_
      · rintro sections' s'' t'' ⟨hall', hlength', hwhole, hhashed, hboth'⟩
        refine ⟨⟨hplaced, hall'⟩, hlength', bind_eq_ok.mpr
          ⟨_, whole_streamTensor htensor hplaced hlength (by omega), hwhole⟩, fun x hx => ?_,
          hboth'⟩
        rcases hhashed x hx with hx | hx
        · rcases List.mem_append.mp hx with hx | hx
          · exact .inl hx
          · rw [List.mem_singleton.mp hx]
            exact .inr (hashed_sectionOf hplaced (by omega))
        · exact .inr hx
      · rintro s'' t'' ⟨hnot, hsame⟩
        exact ⟨fun hboth => hnot ⟨hboth.1.2, hboth.2⟩, hsame⟩

/-! ### One file -/

/-- The header has the length of the pin, within the limit of the code. -/
structure HeaderAccepted (pin : FilePin) (file : List UInt8) : Prop where
  length : ofLe (file.take 8) = pin.headerBytes.toNat
  bounded : pin.headerBytes.toNat ≤ maxSafetensorsHeaderBytes

/-- The file is longer than its pin says, and that shows within its length or its header. -/
def Overruns (pin : FilePin) (file : List UInt8) : Prop :=
  pin.fileBytes.toNat < file.length ∧
    (pin.fileBytes.toNat < 8 ∨ HeaderAccepted pin file ∧ pin.fileBytes.toNat < pin.dataStart)

/-- The total at which the file is found too long: where the piece ends that passes the limit, or
the buffer. -/
def crossing (pin : FilePin) (d : Delivery) : ℕ :=
  min (if pin.fileBytes.toNat < 8 then 8 else pin.dataStart) (d.chunkEnd pin.fileBytes.toNat)

/-- The file passes every check of `stream_file` before that of its end. -/
structure Reaches (pin : FilePin) (role : ModelRole)
    (validateHeader : List UInt8 → ℕ → Outcome SourceError ParsedShard) (file : List UInt8)
    (offset : ℕ) : Prop where
  header : HeaderAccepted pin file
  covers : pin.dataStart + pin.tensorDataBytes.toNat = pin.fileBytes.toNat
  whole : pin.fileBytes.toNat ≤ file.length
  plan : ∃ parsed,
    validateHeader ((file.drop 8).take pin.headerBytes.toNat) pin.tensorDataBytes.toNat =
      .ok parsed ∧
    validateStreamPlan role parsed pin.tensorDataBytes.toNat = .ok () ∧
    AllPlaced role pin.dataStart offset 0 pin.tensorDataBytes.toNat parsed.tensors

theorem streamHeader_coupled (hd : Deliver d₁ d₂ file) (h : Both d₁ d₂ 0 output offset s t)
    (hover : ¬ Overruns pin file) :
    Coupled s t (streamHeader pin)
      (fun r s' t' => (HeaderAccepted pin file ∧ pin.dataStart ≤ file.length) ∧
        pin.dataStart ≤ pin.fileBytes.toNat ∧ r.1 = pin.headerBytes.toNat ∧
        r.2 = (file.drop 8).take pin.headerBytes.toNat ∧
        Both d₁ d₂ pin.dataStart output offset s' t')
      (fun s' t' => ¬ (HeaderAccepted pin file ∧ pin.dataStart ≤ file.length) ∧
        SameLeft s' t') := by
  rw [Overruns, not_and_or, not_or, not_lt, not_lt, not_and, not_lt] at hover
  have hstart : pin.dataStart = 8 + pin.headerBytes.toNat := rfl
  refine (readExactSource_coupled pin 8 hd h (by omega)).bind ?_ ?_
  · rintro s' t' ⟨hshort, hsame⟩
    exact ⟨fun hall => by have := hall.2; omega, hsame⟩
  rintro _ s' t' ⟨hlength, rfl, hboth⟩
  rw [List.drop_zero]
  refine coupled_failIf (fun hlarge => ⟨fun hall => ?_, hboth.same⟩) fun hsmall => ?_
  · rw [hall.1.length] at hlarge
    exact absurd hall.1.bounded (Nat.not_le_of_gt hlarge)
  refine coupled_failIf (fun hne => ⟨fun hall => absurd hall.1.length hne, hboth.same⟩)
    fun heq => ?_
  rw [not_not] at heq
  have haccepted : HeaderAccepted pin file := ⟨heq, by omega⟩
  have hfits : min (0 + 8 + ofLe (file.take 8)) file.length ≤ pin.fileBytes.toNat := by
    rcases hover with hle | ⟨-, hheader⟩
    · omega
    · have hle := hheader haccepted
      omega
  refine (readExactSource_coupled pin _ hd hboth hfits).bind ?_ ?_
  · rintro s'' t'' ⟨hshort, hsame⟩
    exact ⟨fun hall => by have := hall.2; omega, hsame⟩
  rintro _ s'' t'' ⟨hlength', rfl, hboth'⟩
  rw [heq, Nat.zero_add] at hboth'
  exact coupled_pure ⟨⟨haccepted, by omega⟩, by omega, heq, by rw [heq], hboth'⟩

/-- The error of a file that is too long within its length or its header. -/
theorem streamHeader_overruns {d : Delivery} (hd : d.Interrupts) (h : At d 0 output offset s)
    (hover : Overruns pin d.bytes) :
    ∃ s', (streamHeader pin).exec s = (.error (.err (.source
        (.fileSize pin.name pin.fileBytes.toNat (crossing pin d)))), s') ∧
      Left output offset s' := by
  obtain ⟨hlong, hcase⟩ := hover
  have hstart : pin.dataStart = 8 + pin.headerBytes.toNat := rfl
  by_cases h8 : pin.fileBytes.toNat < 8
  · obtain ⟨s', hexec, hleft⟩ := readExactSource_overruns pin 8 hd h
      (Nat.zero_le _) (by decide) (by omega)
    refine ⟨s', ?_, hleft⟩
    rw [streamHeader, exec_bind, hexec, crossing, if_pos h8]
  · obtain ⟨haccepted, hheader⟩ := hcase.resolve_left h8
    have hbounded := haccepted.bounded
    rw [maxSafetensorsHeaderBytes] at hbounded
    obtain ⟨s', hexec, hs'⟩ := (readExactSource_fits pin 8 hd h
      (by omega)).1 (by omega)
    rw [List.drop_zero] at hexec
    obtain ⟨s'', hexec', hleft⟩ := readExactSource_overruns pin
      pin.headerBytes.toNat hd hs' (by omega) (by omega) (by omega)
    refine ⟨s'', ?_, hleft⟩
    rw [streamHeader, exec_bind_of_ok hexec, haccepted.length]
    refine (exec_bind_of_ok (congrArg (Action.exec · s') (if_neg (Nat.not_lt_of_ge
      haccepted.bounded)))).trans ?_
    refine (exec_bind_of_ok (congrArg (Action.exec · s') (if_neg (not_not.mpr rfl)))).trans ?_
    rw [exec_bind, hexec', crossing, if_neg h8]
    rfl

variable {validateHeader : List UInt8 → ℕ → Outcome SourceError ParsedShard}

/-- The sections of a file that reaches its end: those of one pass over the whole file, each with
the digest of its own bytes. -/
structure Passes (pin : FilePin) (role : ModelRole)
    (validateHeader : List UInt8 → ℕ → Outcome SourceError ParsedShard) (file output : List UInt8)
    (offset : ℕ) (result : ParsedShard × List WeightSection) : Prop where
  parsed : validateHeader ((file.drop 8).take pin.headerBytes.toNat) pin.tensorDataBytes.toNat =
    .ok result.1
  plan : validateStreamPlan role result.1 pin.tensorDataBytes.toNat = .ok ()
  whole : result.1.tensors.foldlM
    (WeightStream.streamTensor Ferric.sha256 pin role pin.dataStart)
    (progressAt file pin.dataStart output offset []) =
      .ok (progressAt file pin.fileBytes.toNat
        (output ++ (file.drop pin.dataStart).take pin.tensorDataBytes.toNat)
        (offset + pin.tensorDataBytes.toNat) result.2)
  hashed : ∀ x ∈ result.2, Hashed file x

theorem streamTensors_coupled (hd : Deliver d₁ d₂ file)
    (h : Both d₁ d₂ pin.dataStart output offset s t) (haccepted : HeaderAccepted pin file) :
    Coupled s t (streamTensors pin role validateHeader pin.headerBytes.toNat
        ((file.drop 8).take pin.headerBytes.toNat))
      (fun result s' t' => Reaches pin role validateHeader file offset ∧
        Passes pin role validateHeader file output offset result ∧
        Both d₁ d₂ pin.fileBytes.toNat
          (output ++ (file.drop pin.dataStart).take pin.tensorDataBytes.toNat)
          (offset + pin.tensorDataBytes.toNat) s' t')
      (fun s' t' => ¬ Reaches pin role validateHeader file offset ∧ SameLeft s' t') := by
  have hbounded := haccepted.bounded
  rw [maxSafetensorsHeaderBytes] at hbounded
  rw [streamTensors]
  refine coupled_query rfl (fun hne => ⟨fun hall => ?_, h.same⟩) fun parsed hparsed => ?_
  · obtain ⟨parsed, hparsed, -⟩ := hall.plan
    exact hne parsed (mapErr_eq_ok.mpr hparsed)
  have hparsed := mapErr_eq_ok.mp hparsed
  have hunique : ∀ {other}, validateHeader ((file.drop 8).take pin.headerBytes.toNat)
      pin.tensorDataBytes.toNat = .ok other → other = parsed := fun hother =>
    Except.ok.inj (hother.symm.trans hparsed)
  refine coupled_query rfl (fun hne => ⟨fun hall => ?_, h.same⟩) fun ⟨⟩ hplan => ?_
  · obtain ⟨other, hother, hplan, -⟩ := hall.plan
    rw [hunique hother] at hplan
    exact hne () hplan
  have hbase : checkedAdd 64 8 pin.headerBytes.toNat = some pin.dataStart :=
    checkedAdd_eq_some.mpr ⟨by omega, rfl⟩
  refine coupled_query rfl (fun hne => absurd (orErr_eq_ok.mpr hbase) (hne _)) fun _ hdata => ?_
  obtain rfl := Option.some.inj (hbase.symm.trans (orErr_eq_ok.mp hdata))
  have hbound := pin.fileBytes.toNat_lt
  refine coupled_query rfl (fun hne => ⟨fun hall => ?_, h.same⟩) fun sourceEnd hend => ?_
  · refine hne _ (orErr_eq_ok.mpr (checkedAdd_eq_some.mpr ⟨?_, rfl⟩))
    rw [hall.covers]
    exact hbound
  obtain ⟨-, rfl⟩ := checkedAdd_eq_some.mp (orErr_eq_ok.mp hend)
  refine coupled_failIf (fun hne => ⟨fun hall => hne hall.covers, h.same⟩) fun hcovers => ?_
  rw [not_not] at hcovers
  -- the plan: tensors behind each other that cover the data
  have hchecked := hplan
  simp only [validateStreamPlan, bind_eq_ok, failIf_eq_ok, mapErr_eq_ok, not_not] at hchecked
  obtain ⟨-, -, ⟨⟩, hcoverage, hplanned⟩ := hchecked
  have ht := foldlM_validatePlannedTensor hplanned
  simp only [validateOffsetCoverage, bind_eq_ok, failIf_eq_ok, not_not] at hcoverage
  obtain ⟨_, hcoverage, rfl⟩ := hcoverage
  have htiles := tilesFrom_of_coverage (fun t hmem => (ht t hmem).start_lt) hcoverage
  have htensors := tensors_coupled pin pin.dataStart (a := 0) [] hd ht htiles h hcovers.le
  rw [hcovers, Nat.sub_zero, Nat.add_zero] at htensors
  refine htensors.bind ?_ ?_
  · rintro s' t' ⟨hnot, hsame⟩
    refine ⟨fun hall => hnot ⟨?_, hall.whole⟩, hsame⟩
    obtain ⟨other, hother, -, hplaced⟩ := hall.plan
    rwa [hunique hother] at hplaced
  · rintro sections s' t' ⟨hplaced, hlength, hwhole, hhashed, hboth⟩
    refine coupled_pure ⟨⟨haccepted, hcovers, hlength, parsed, hparsed, hplan, hplaced⟩,
      ⟨hparsed, hplan, hwhole, fun x hx => ?_⟩, hboth⟩
    exact (hhashed x hx).resolve_left List.not_mem_nil

/-- `stream_file` before the check of the end. -/
def beforeEnd (pin : FilePin) (role : ModelRole)
    (validateHeader : List UInt8 → ℕ → Outcome SourceError ParsedShard) :
    Step (ParsedShard × List WeightSection) := do
  let (headerBytes, header) ← streamHeader pin
  streamTensors pin role validateHeader headerBytes header

theorem streamFile_eq : streamFile pin role validateHeader = (do
    let result ← beforeEnd pin role validateHeader
    requireExactSourceEnd pin
    return result) := by
  rw [streamFile, beforeEnd, bind_assoc]

/-- **Up to the end of the file** nothing tells the deliveries apart. -/
theorem beforeEnd_coupled (role : ModelRole)
    (validateHeader : List UInt8 → ℕ → Outcome SourceError ParsedShard) (hd : Deliver d₁ d₂ file)
    (h : Both d₁ d₂ 0 output offset s t)
    (hover : ¬ Overruns pin file) :
    Coupled s t (beforeEnd pin role validateHeader)
      (fun result s' t' => Reaches pin role validateHeader file offset ∧
        Passes pin role validateHeader file output offset result ∧
        Both d₁ d₂ pin.fileBytes.toNat
          (output ++ (file.drop pin.dataStart).take pin.tensorDataBytes.toNat)
          (offset + pin.tensorDataBytes.toNat) s' t')
      (fun s' t' => ¬ Reaches pin role validateHeader file offset ∧ SameLeft s' t') := by
  refine (streamHeader_coupled hd h hover).bind ?_ ?_
  · rintro s' t' ⟨hnot, hsame⟩
    refine ⟨fun hall => hnot ⟨hall.header, ?_⟩, hsame⟩
    have hcovers := hall.covers
    have hwhole := hall.whole
    omega
  · rintro ⟨headerBytes, header⟩ s' t' ⟨⟨haccepted, -⟩, -, rfl, rfl, hboth⟩
    exact streamTensors_coupled hd hboth haccepted

end Streaming

end WeightStream

end Ferric
