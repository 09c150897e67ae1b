import Ferric.WeightStream.InStep

/-!
# Streaming depends on the bytes alone, up to the end of the file

What the caller of `stream_file` sees of two readers of one file. Two things tell them apart:
`require_exact_source_end` does not try again after `Interrupted`, although every other read does;
and a file that is longer than its pin within its header is noticed piece by piece, which no pinned
file is.

## Main definitions

* `Succeeded` — what a successful streaming has done

## Main results

* `streamFile_of_observe` — a success is the pass over a file that is read in one piece
* `observe_eq_iff` — when two deliveries are told apart, and what a success has written
-/

namespace Ferric

namespace WeightStream

open Ferric.Action (query)
open Delivery
open Safetensors
open Spec (ModelRole)

namespace Streaming

variable {pin : FilePin} {role : ModelRole} {d d₁ d₂ : Delivery} {file output : List UInt8}
  {offset n : ℕ} {s : Streaming}
  {validateHeader : List UInt8 → ℕ → Outcome SourceError ParsedShard}

/-! ### The end of the file -/

/-- What the check of the end returns when the read finds no error. -/
def endOf (pin : FilePin) (file : List UInt8) : Outcome WeightStreamError Unit := do
  failIf (pin.fileBytes.toNat < file.length) (.source (.trailingData pin.name))
  failIf (Ferric.sha256 file ≠ pin.sha256) (.source (.digestMismatch pin.name))

/-- `Interrupted` is not tried again. -/
theorem requireExactSourceEnd_interrupted (pin : FilePin) (h : At d n output offset s)
    (hi : d.InterruptedAt n) :
    ∃ s', (requireExactSourceEnd pin).exec s =
        (.error (.err (.source (.io pin.name .interrupted))), s') ∧ Left output offset s' := by
  obtain ⟨rest, hrest⟩ := List.head?_eq_some_iff.mp hi
  refine ⟨{ s with reader := rest }, ?_, h.reads.output, h.reads.offset⟩
  rw [requireExactSourceEnd, exec_bind_of_ok exec_get, h.reads.reader, hrest]
  rfl

theorem requireExactSourceEnd_exec (hd : d.Interrupts)
    (h : At d pin.fileBytes.toNat output offset s) (hi : ¬ d.InterruptedAt pin.fileBytes.toNat)
    (hlen : pin.fileBytes.toNat < 2 ^ 61) :
    ∃ s', (requireExactSourceEnd pin).exec s = (endOf pin d.bytes, s') ∧ Left output offset s' := by
  have hbytes := bytes_after pin.fileBytes.toNat d
  have hreads := h.reads
  cases hrest : d.after pin.fileBytes.toNat with
  | nil =>
    rw [hrest, bytes_nil] at hbytes
    have hle : d.bytes.length ≤ pin.fileBytes.toNat := List.drop_eq_nil_iff.mp hbytes.symm
    have hfinish := hreads.hasher.finish (ε := WeightStreamError)
      (by rw [List.length_take]; omega)
    rw [List.take_of_length_le hle] at hfinish
    have hquery : (query fun s => s.hasher.finish : Step Digest).exec { s with reader := [] } =
        (.ok (Ferric.sha256 d.bytes), { s with reader := [] }) := by
      rw [exec_query, hfinish]
    refine ⟨{ s with reader := [] }, ?_, hreads.output, hreads.offset⟩
    rw [requireExactSourceEnd, exec_bind_of_ok exec_get, hreads.reader, hrest, endOf,
      failIf_of_not (Nat.not_lt_of_ge hle), ok_bind]
    refine (exec_bind_of_ok exec_modify).trans ?_
    refine (exec_bind_of_ok exec_pure).trans ?_
    refine (exec_bind_of_ok (congrArg (Action.exec · _) (if_neg (not_not.mpr h.total)))).trans ?_
    refine (exec_bind_of_ok hquery).trans ?_
    by_cases hdigest : Ferric.sha256 d.bytes = pin.sha256
    · rw [failIf_of_not (not_not.mpr hdigest)]
      exact congrArg (Action.exec · _) (if_neg (not_not.mpr hdigest))
    · rw [failIf, if_pos hdigest]
      exact congrArg (Action.exec · _) (if_pos hdigest)
  | cons event rest =>
    rw [hrest] at hbytes
    cases event with
    | failure kind =>
      have hmem : Event.failure kind ∈ d.after pin.fileBytes.toNat := by
        rw [hrest]
        exact List.mem_cons_self
      obtain rfl := hd.after _ kind hmem
      exact absurd (congrArg List.head? hrest) hi
    | chunk b hb =>
      rw [bytes_chunk] at hbytes
      have hlong : pin.fileBytes.toNat < d.bytes.length := by
        have hlength := congrArg List.length hbytes
        have hpos := List.length_pos_of_ne_nil hb
        rw [List.length_append, List.length_drop] at hlength
        omega
      obtain ⟨x, tail, hx⟩ := List.exists_cons_of_ne_nil hb
      refine ⟨{ s with reader := (Delivery.read 1 (.chunk b hb :: rest)).2 }, ?_,
        hreads.output, hreads.offset⟩
      rw [requireExactSourceEnd, exec_bind_of_ok exec_get, hreads.reader, hrest, endOf, failIf,
        if_pos hlong]
      subst hx
      rfl

/-- The check of the end never returns an error of the reader. -/
theorem endOf_bind_ne (pin : FilePin) (file : List UInt8)
    (result : ParsedShard × List WeightSection) :
    (do endOf pin file; return result) ≠
      (.error (.err (.source (.io pin.name .interrupted))) : Outcome WeightStreamError _) := by
  rw [endOf]
  by_cases hlong : pin.fileBytes.toNat < file.length
  · rw [failIf, if_pos hlong]
    simp [error_bind]
  · rw [failIf_of_not hlong, ok_bind]
    by_cases hdigest : Ferric.sha256 file ≠ pin.sha256
    · rw [failIf, if_pos hdigest]
      simp
    · rw [failIf_of_not hdigest]
      rintro ⟨⟩

/-! ### What the caller sees -/

theorem observe_of_exec {r : Outcome WeightStreamError (ParsedShard × List WeightSection)}
    {s' : Streaming}
    (h : (streamFile pin role validateHeader).exec (start d output offset) = (r, s')) :
    observe pin role validateHeader output offset d = ⟨r, s'.output, s'.destinationOffset⟩ := by
  rw [observe, h]

/-- A file that is too long within its header. -/
theorem observe_overruns (hd : d.Interrupts) (hover : Overruns pin d.bytes) :
    observe pin role validateHeader output offset d =
      ⟨.error (.err (.source (.fileSize pin.name pin.fileBytes.toNat (crossing pin d)))), output,
        offset⟩ := by
  obtain ⟨s', hexec, hleft⟩ := streamHeader_overruns hd (At.initial d output offset) hover
  rw [observe_of_exec (by rw [streamFile, exec_bind, hexec]), hleft.output, hleft.offset]

theorem Reaches.small (h : Reaches pin role validateHeader file offset) :
    pin.fileBytes.toNat < 2 ^ 61 := by
  obtain ⟨parsed, -, hplan, hplaced⟩ := h.plan
  have hbounded := h.header.bounded
  have hcovers := h.covers
  have hstart : pin.dataStart = 8 + pin.headerBytes.toNat := rfl
  have hrole : role.tensorDataBytes < 2 ^ 60 := by cases role <;> decide
  rw [maxSafetensorsHeaderBytes] at hbounded
  by_cases hnil : parsed.tensors = []
  · -- without tensors there are no data
    simp only [validateStreamPlan, bind_eq_ok, failIf_eq_ok, mapErr_eq_ok, hnil,
      validateOffsetCoverage, coverageFrom] at hplan
    obtain ⟨-, -, -, ⟨_, hzero, hdata⟩, -⟩ := hplan
    have hzero := Except.ok.inj hzero
    omega
  · have hroom := (hplaced hnil).2.2
    omega

/-- A file that reaches its end. -/
theorem observe_reaches (output : List UInt8) (hd : d.Interrupts)
    (hreaches : Reaches pin role validateHeader d.bytes offset) :
    ∃ result, Passes pin role validateHeader d.bytes output offset result ∧
      observe pin role validateHeader output offset d =
        ⟨if d.InterruptedAt pin.fileBytes.toNat
            then .error (.err (.source (.io pin.name .interrupted)))
            else do
              endOf pin d.bytes
              return result,
          output ++ (d.bytes.drop pin.dataStart).take pin.tensorDataBytes.toNat,
          offset + pin.tensorDataBytes.toNat⟩ := by
  have hover : ¬ Overruns pin d.bytes := by
    rintro ⟨hlong, hcase⟩
    have hcovers := hreaches.covers
    have hstart : pin.dataStart = 8 + pin.headerBytes.toNat := rfl
    omega
  have hstart := At.initial d output offset
  rcases (beforeEnd_coupled role validateHeader
    ⟨hd, hd, rfl, rfl⟩ ⟨hstart, hstart⟩ hover).cases with
    ⟨result, s', t', hexec, -, -, hpasses, hboth⟩ | ⟨-, -, -, -, -, hnot, -⟩
  · refine ⟨result, hpasses, ?_⟩
    by_cases hi : d.InterruptedAt pin.fileBytes.toNat
    · obtain ⟨s'', hend, hleft⟩ := requireExactSourceEnd_interrupted pin hboth.left hi
      have hrun : (streamFile pin role validateHeader).exec (start d output offset) =
          (.error (.err (.source (.io pin.name .interrupted))), s'') := by
        rw [streamFile_eq, exec_bind_of_ok hexec, exec_bind, hend]
      rw [if_pos hi, observe_of_exec hrun, hleft.output, hleft.offset]
    · obtain ⟨s'', hend, hleft⟩ := requireExactSourceEnd_exec hd hboth.left hi hreaches.small
      have hrun : (streamFile pin role validateHeader).exec (start d output offset) =
          (do endOf pin d.bytes; return result, s'') := by
        rw [streamFile_eq, exec_bind_of_ok hexec, exec_bind, hend]
        cases endOf pin d.bytes <;> rfl
      rw [if_neg hi, observe_of_exec hrun, hleft.output, hleft.offset]
  · exact absurd hreaches hnot

/-- A file that does not. -/
theorem observe_fails (output : List UInt8) (hd : Deliver d₁ d₂ file) (hover : ¬ Overruns pin file)
    (hnot : ¬ Reaches pin role validateHeader file offset) :
    ∃ e, (observe pin role validateHeader output offset d₁).result = .error e ∧
      observe pin role validateHeader output offset d₁ =
        observe pin role validateHeader output offset d₂ := by
  rcases (beforeEnd_coupled role validateHeader hd
    ⟨At.initial d₁ output offset, At.initial d₂ output offset⟩ hover).cases with
    ⟨-, -, -, -, -, hreaches, -⟩ | ⟨e, s', t', hs, ht, -, hsame⟩
  · exact absurd hreaches hnot
  · have hrun₁ : (streamFile pin role validateHeader).exec (start d₁ output offset) =
        (.error e, s') := by rw [streamFile_eq, exec_bind, hs]
    have hrun₂ : (streamFile pin role validateHeader).exec (start d₂ output offset) =
        (.error e, t') := by rw [streamFile_eq, exec_bind, ht]
    rw [observe_of_exec hrun₁, observe_of_exec hrun₂, hsame.1, hsame.2]
    exact ⟨e, rfl, rfl⟩

theorem Passes.unique {result result' : ParsedShard × List WeightSection}
    (h : Passes pin role validateHeader file output offset result)
    (h' : Passes pin role validateHeader file output offset result') : result = result' := by
  have hparsed := Except.ok.inj (h.parsed.symm.trans h'.parsed)
  have hwhole := h.whole
  rw [hparsed, h'.whole] at hwhole
  have hsections := congrArg Progress.sections (Except.ok.inj hwhole)
  exact Prod.ext hparsed hsections.symm

/-- What a successful `stream_file` has done: it is a pass over the whole file, it wrote the tensor
data, and each section has the digest of its own bytes. -/
structure Succeeded (pin : FilePin) (file output : List UInt8) (offset : ℕ)
    (result : ParsedShard × List WeightSection) (o : Observation) : Prop where
  length : file.length = pin.dataStart + pin.tensorDataBytes.toNat
  output_eq : o.output = output ++ (file.drop pin.dataStart).take pin.tensorDataBytes.toNat
  offset_eq : o.destinationOffset = offset + pin.tensorDataBytes.toNat
  hashed : ∀ x ∈ result.2,
    x.sha256 = sha256 ((file.drop x.sourceOffset.toNat).take x.sourceLength.toNat)

/-- What a successful `stream_file` was given. -/
theorem reaches_of_observe {result : ParsedShard × List WeightSection} (hd : d.Interrupts)
    (h : (observe pin role validateHeader output offset d).result = .ok result) :
    Reaches pin role validateHeader d.bytes offset ∧
      Passes pin role validateHeader d.bytes output offset result ∧
      endOf pin d.bytes = .ok () ∧ observe pin role validateHeader output offset d =
        ⟨.ok result, output ++ (d.bytes.drop pin.dataStart).take pin.tensorDataBytes.toNat,
          offset + pin.tensorDataBytes.toNat⟩ := by
  by_cases hover : Overruns pin d.bytes
  · rw [observe_overruns hd hover] at h
    cases h
  by_cases hreaches : Reaches pin role validateHeader d.bytes offset
  · obtain ⟨result', hpasses, heq⟩ := observe_reaches output hd hreaches
    rw [heq] at h ⊢
    dsimp only at h
    by_cases hi : d.InterruptedAt pin.fileBytes.toNat
    · rw [if_pos hi] at h
      cases h
    · rw [if_neg hi] at h ⊢
      obtain ⟨⟨⟩, hend, hresult⟩ := bind_eq_ok.mp h
      obtain rfl := Except.ok.inj hresult
      rw [hend]
      exact ⟨hreaches, hpasses, rfl, rfl⟩
  · obtain ⟨e, hfail, -⟩ := observe_fails output ⟨hd, hd, rfl, rfl⟩ hover hreaches
    cases hfail.symm.trans h

/-- **A streaming that succeeds is the pass over the whole file.** -/
theorem streamFile_of_observe {result : ParsedShard × List WeightSection} (hd : d.Interrupts)
    (h : (observe pin role validateHeader output offset d).result = .ok result) :
    WeightStream.streamFile Ferric.sha256 d.bytes output pin role offset validateHeader =
      .ok (result.1, result.2, (observe pin role validateHeader output offset d).output,
        (observe pin role validateHeader output offset d).destinationOffset) := by
  obtain ⟨hreaches, hpasses, hend, heq⟩ := reaches_of_observe hd h
  obtain ⟨⟨hlength, hbounded⟩, hcovers, hwhole, -⟩ := hreaches
  have hstart : pin.dataStart = 8 + pin.headerBytes.toNat := rfl
  have hbound := pin.fileBytes.toNat_lt
  have hread₁ := whole_readExactSource pin d.bytes 0 8 (by omega) (by omega)
  have hread₂ := whole_readExactSource pin d.bytes 8 pin.headerBytes.toNat (by omega) (by omega)
  rw [Nat.zero_add, List.take_zero, List.drop_zero] at hread₁
  rw [heq, WeightStream.streamFile]
  refine bind_eq_ok.mpr ⟨_, hread₁, ?_⟩
  show (failIf (ofLe (d.bytes.take 8) > _) _ >>= _) = _
  rw [hlength]
  refine bind_eq_ok.mpr ⟨(), failIf_of_not (Nat.not_lt_of_ge hbounded), ?_⟩
  refine bind_eq_ok.mpr ⟨(), failIf_of_not (not_not.mpr rfl), bind_eq_ok.mpr ⟨_, hread₂, ?_⟩⟩
  refine bind_eq_ok.mpr ⟨_, mapErr_eq_ok.mpr hpasses.parsed, bind_eq_ok.mpr ⟨(), hpasses.plan, ?_⟩⟩
  refine bind_eq_ok.mpr ⟨pin.dataStart,
    orErr_eq_ok.mpr (checkedAdd_eq_some.mpr ⟨by omega, rfl⟩), ?_⟩
  refine bind_eq_ok.mpr ⟨_, orErr_eq_ok.mpr (checkedAdd_eq_some.mpr ⟨by omega, rfl⟩), ?_⟩
  refine bind_eq_ok.mpr ⟨(), failIf_of_not (not_not.mpr hcovers), ?_⟩
  refine bind_eq_ok.mpr ⟨_, hpasses.whole, bind_eq_ok.mpr ⟨(), ?_, rfl⟩⟩
  -- the check of the end, on a file that was read to its end
  simp only [endOf, bind_eq_ok, failIf_eq_ok, not_lt, not_not] at hend
  obtain ⟨-, hle, hdigest⟩ := hend
  have htake : d.bytes.take pin.fileBytes.toNat = d.bytes := List.take_of_length_le hle
  have hdrop : d.bytes.drop pin.fileBytes.toNat = [] := List.drop_of_length_le hle
  have hexact : d.bytes.length = pin.fileBytes.toNat := le_antisymm hle hwhole
  refine bind_eq_ok.mpr ⟨(), failIf_of_not (not_not.mpr hdrop), bind_eq_ok.mpr ⟨(), ?_, ?_⟩⟩
  · refine failIf_of_not (not_not.mpr ?_)
    show (d.bytes.take pin.fileBytes.toNat).length = _
    rw [htake, hexact]
  · refine failIf_of_not (not_not.mpr ?_)
    show Ferric.sha256 (d.bytes.take pin.fileBytes.toNat) = _
    rw [htake, hdigest]

/-- No pinned file is shorter than its header. -/
theorem not_overruns (h : pin ∈ filePins role) : ¬ Overruns pin file := by
  have hstart : pin.dataStart = 8 + pin.headerBytes.toNat := rfl
  have hlt : ∀ role, ∀ pin ∈ filePins role, pin.dataStart < pin.fileBytes.toNat := by
    intro role
    cases role <;> decide
  have hpin := hlt role pin h
  rintro ⟨-, hcase⟩
  omega

theorem succeeded_of_observe {result : ParsedShard × List WeightSection} (hd : d.Interrupts)
    (h : (observe pin role validateHeader output offset d).result = .ok result) :
    Succeeded pin d.bytes output offset result
      (observe pin role validateHeader output offset d) := by
  obtain ⟨hreaches, hpasses, hend, heq⟩ := reaches_of_observe hd h
  simp only [endOf, bind_eq_ok, failIf_eq_ok, not_lt, not_not] at hend
  obtain ⟨-, hle, -⟩ := hend
  rw [heq]
  exact ⟨(le_antisymm hle hreaches.whole).trans hreaches.covers.symm, rfl, rfl, hpasses.hashed⟩

/-- **Weight streaming depends only on the bytes, up to the end of the file.** Two deliveries of the
same file, cut and interrupted in any way, are told apart exactly if the file is longer than its pin
within its header and the limit is passed at different totals, or if it passes every check up to its
end and an `Interrupted` error waits there in one delivery and not in the other. What a success has
written is the tensor data, and every section has the digest of its own bytes. -/
theorem observe_eq_iff (pin : FilePin) (role : ModelRole)
    (validateHeader : List UInt8 → ℕ → Outcome SourceError ParsedShard) (output : List UInt8)
    (offset : ℕ) (d₁ d₂ : Delivery) (h₁ : d₁.Interrupts) (h₂ : d₂.Interrupts)
    (hbytes : d₂.bytes = d₁.bytes) :
    (observe pin role validateHeader output offset d₁ =
        observe pin role validateHeader output offset d₂ ↔
      (Overruns pin d₁.bytes → crossing pin d₁ = crossing pin d₂) ∧
      (Reaches pin role validateHeader d₁.bytes offset →
        (d₁.InterruptedAt pin.fileBytes.toNat ↔ d₂.InterruptedAt pin.fileBytes.toNat))) ∧
    ∀ result, (observe pin role validateHeader output offset d₁).result = .ok result →
      Succeeded pin d₁.bytes output offset result
        (observe pin role validateHeader output offset d₁) := by
  refine ⟨?_, fun result h => succeeded_of_observe h₁ h⟩
  by_cases hover : Overruns pin d₁.bytes
  · have hover₂ : Overruns pin d₂.bytes := by rwa [hbytes]
    have hnot : ¬ Reaches pin role validateHeader d₁.bytes offset := fun hreaches => by
      have hcovers := hreaches.covers
      have hcase := hover.2
      have hstart : pin.dataStart = 8 + pin.headerBytes.toNat := rfl
      omega
    rw [observe_overruns h₁ hover, observe_overruns h₂ hover₂]
    refine ⟨fun heq => ⟨fun _ => ?_, fun hreaches => absurd hreaches hnot⟩, fun hsame => ?_⟩
    · simpa using congrArg Observation.result heq
    · rw [hsame.1 hover]
  by_cases hreaches : Reaches pin role validateHeader d₁.bytes offset
  · have hreaches₂ : Reaches pin role validateHeader d₂.bytes offset := by rwa [hbytes]
    obtain ⟨result, hpasses, hleft⟩ := observe_reaches output h₁ hreaches
    obtain ⟨result', hpasses', hright⟩ := observe_reaches output h₂ hreaches₂
    rw [hbytes] at hpasses' hright
    obtain rfl := hpasses.unique hpasses'
    have hne := endOf_bind_ne pin d₁.bytes result
    rw [hleft, hright]
    refine ⟨fun heq => ⟨fun h => absurd h hover, fun _ => ?_⟩, fun hsame => ?_⟩
    · -- only one of the two would be the error of the reader
      have hresult := congrArg Observation.result heq
      dsimp only at hresult
      constructor
      · intro hi
        by_contra hj
        rw [if_pos hi, if_neg hj] at hresult
        exact hne hresult.symm
      · intro hj
        by_contra hi
        rw [if_neg hi, if_pos hj] at hresult
        exact hne hresult
    · simp only [hsame.2 hreaches]
  · obtain ⟨e, -, heq⟩ := observe_fails output ⟨h₁, h₂, rfl, hbytes⟩ hover hreaches
    exact ⟨fun _ => ⟨fun h => absurd h hover, fun h => absurd h hreaches⟩, fun _ => heq⟩

/-- A file of eight zeros: an empty header and no tensors. -/
def emptyPin : FilePin where
  name := "model.safetensors"
  sha256 := decodeHex32 "af5570f5a1810b7af78caf4bc70a660f0df51e42baf91d4de5b2328de0e83dfc"
  fileBytes := 8
  headerBytes := 0
  tensorDataBytes := 0

def emptyShard (_ : List UInt8) (_ : ℕ) : Outcome SourceError ParsedShard :=
  .ok { tensors := [], tensorDataBytes := 0 }

def emptyFile : Delivery := [.chunk (.replicate 8 0) (by decide)]

/-- One `Interrupted` error before the final end of file turns a success into a failure. -/
theorem observe_ne_of_interrupted :
    ¬ ∀ pin role validateHeader output offset (d₁ d₂ : Delivery), d₁.Interrupts → d₂.Interrupts →
      d₂.bytes = d₁.bytes → observe pin role validateHeader output offset d₁ =
        observe pin role validateHeader output offset d₂ := by
  intro h
  have hlast : Interrupts (emptyFile ++ [.failure .interrupted]) := by
    intro kind hkind
    simpa [emptyFile] using hkind
  have heq := h emptyPin .draft06B emptyShard [] 0 emptyFile (emptyFile ++ [.failure .interrupted])
    (fun kind hkind => by simp [emptyFile] at hkind) hlast rfl
  have hok := congrArg (fun o => o.result.isOk) heq
  exact absurd hok (by decide +kernel)

/-- A file of one tensor: the norm of the queries of the first layer, behind a header of blanks. -/
def normBytes : List UInt8 :=
  (le64 128).val ++ .replicate 128 0x20 ++ (List.range 256).map UInt8.ofNat

def normPin : FilePin where
  name := "model.safetensors"
  sha256 := Ferric.sha256 normBytes
  fileBytes := 392
  headerBytes := 128
  tensorDataBytes := 256

def normTensor : ParsedTensor where
  name := "model.layers.0.self_attn.q_norm.weight"
  start := 0
  stop := 256
  ordinal := Safetensors.ordinal .draft06B (.queryNorm, 0)
  metadata := ⟨.draft06B, .queryNorm, 0, .bf16, 1, 128, 1⟩

def normShard (_ : List UInt8) (_ : ℕ) : Outcome SourceError ParsedShard :=
  .ok { tensors := [normTensor], tensorDataBytes := 256 }

def normFile : Delivery := [.chunk normBytes (by decide)]

/-- The same file, cut within the length, the header and the tensor, with errors in between. -/
def choppedFile : Delivery :=
  [.failure .interrupted, .chunk (normBytes.take 5) (by decide), .failure .interrupted,
    .chunk ((normBytes.drop 5).take 45) (by decide),
    .chunk ((normBytes.drop 50).take 250) (by decide), .failure .interrupted,
    .failure .interrupted, .chunk (normBytes.drop 300) (by decide)]

theorem bytes_normFile : Delivery.bytes normFile = normBytes := List.append_nil _

/-- The file passes every check before that of its end, and its digest is that of the pin. -/
theorem reaches_normFile : Reaches normPin .draft06B normShard (Delivery.bytes normFile) 0 where
  header := ⟨by decide +kernel, by decide⟩
  covers := rfl
  whole := by decide +kernel
  plan := ⟨_, rfl, by decide +kernel, fun _ => ⟨rfl, rfl, by decide⟩⟩

theorem endOf_normBytes : endOf normPin normBytes = .ok () := by
  have hlong : ¬ normPin.fileBytes.toNat < normBytes.length := by decide +kernel
  have hdigest : ¬ Ferric.sha256 normBytes ≠ normPin.sha256 := not_not.mpr rfl
  rw [endOf, failIf_of_not hlong, ok_bind, failIf_of_not hdigest]

/-- Both deliveries give the same sections, and the digest of each is that of its bytes. -/
theorem observe_eq_iff_choppedFile :
    observe normPin .draft06B normShard [] 0 normFile =
        observe normPin .draft06B normShard [] 0 choppedFile ∧
    ∃ result, (observe normPin .draft06B normShard [] 0 normFile).result = .ok result ∧
      result.1.tensors = [normTensor] ∧ Succeeded normPin (Delivery.bytes normFile) [] 0 result
        (observe normPin .draft06B normShard [] 0 normFile) := by
  have hwhole : Interrupts normFile := by
    intro kind hkind
    simp [normFile] at hkind
  have hchopped : Interrupts choppedFile := by
    intro kind hkind
    simpa [choppedFile] using hkind
  have hbytes : Delivery.bytes choppedFile = Delivery.bytes normFile := by decide +kernel
  have hend : ¬ InterruptedAt normFile 392 := by decide +kernel
  obtain ⟨hiff, hsucceeded⟩ :=
    observe_eq_iff normPin .draft06B normShard [] 0 normFile choppedFile hwhole hchopped hbytes
  refine ⟨hiff.mpr ⟨fun hover => ?_, fun _ => ?_⟩, ?_⟩
  · exact absurd hover.1 (by decide +kernel)
  · exact iff_of_false hend (by decide +kernel)
  · obtain ⟨result, hpasses, heq⟩ := observe_reaches [] hwhole reaches_normFile
    rw [if_neg (show ¬ InterruptedAt normFile normPin.fileBytes.toNat from hend), bytes_normFile,
      endOf_normBytes] at heq
    have hresult : (observe normPin .draft06B normShard [] 0 normFile).result = .ok result := by
      rw [heq]
      rfl
    have hparsed := Except.ok.inj hpasses.parsed
    exact ⟨result, hresult, congrArg ParsedShard.tensors hparsed.symm, hsucceeded result hresult⟩

end Streaming

end WeightStream

end Ferric
