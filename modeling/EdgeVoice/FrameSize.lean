import EdgeVoice.ByteStream

/-! Settings, Repacketizer and VADWorker on the size of a frame. The settings check rounds,
`_ms_to_bytes` demands whole samples and counts `bytes_per_sample` bytes for each, and VAD
reads two bytes a sample. They agree exactly where the duration is whole, a frame has a
sample, and a sample has two bytes. -/

namespace EdgeVoice.FrameSize
open PythonText Models ChannelRouter ByteStream StepSystem

/-- The fields carry the checks pydantic makes of them. -/
structure RepacketizerSettings where
  incomingMs : ℚ := 20
  outgoingMs : ℚ := 32
  bytesPerSample : ℕ := 2
  incomingMs_gt : 0 < incomingMs := by norm_num
  outgoingMs_gt : 0 < outgoingMs := by norm_num
  bytesPerSample_ge : 1 ≤ bytesPerSample := by norm_num

/-- What the check reads of the settings: `audio.sample_rate`, `repacketizer` and
`vad.window_samples`. -/
structure Settings where
  sampleRate : ℕ := 16000
  repacketizer : RepacketizerSettings := {}
  windowSamples : ℤ := 512

/-- `_check_repacketizer_matches_vad`; `none` is its ValueError. -/
def checkRepacketizerMatchesVad (settings : Settings) : Option Settings :=
  let expectedSamples := settings.repacketizer.outgoingMs * settings.sampleRate / 1000
  if roundHalfEven expectedSamples ≠ settings.windowSamples then none else some settings

/-- The config `_build_router` gives its Repacketizer. -/
def repacketizerConfig (settings : Settings) : RepacketizerConfig where
  incomingMs := settings.repacketizer.incomingMs
  outgoingMs := settings.repacketizer.outgoingMs
  sampleRate := settings.sampleRate
  bytesPerSample := settings.repacketizer.bytesPerSample

section Rounding

theorem roundHalfEven_nonneg {q : ℚ} (nonneg : 0 ≤ q) : 0 ≤ roundHalfEven q := by
  have floor : 0 ≤ ⌊q⌋ := Int.floor_nonneg.mpr nonneg
  unfold roundHalfEven
  split
  · exact floor
  split
  · omega
  split
  · exact floor
  · omega

theorem roundHalfEven_eq_zero {q : ℚ} (nonneg : 0 ≤ q) (small : q < 1 / 2) :
    roundHalfEven q = 0 := by
  have floor : ⌊q⌋ = 0 := Int.floor_eq_zero_iff.mpr ⟨nonneg, by linarith⟩
  simp only [roundHalfEven, floor, Int.cast_zero, sub_zero]
  exact if_pos small

end Rounding

/-- What `_ms_to_bytes` accepts. -/
def NearWhole (samples : ℚ) : Prop := |samples - roundHalfEven samples| ≤ 1 / 10 ^ 6

instance (samples : ℚ) : Decidable (NearWhole samples) := inferInstanceAs (Decidable (_ ≤ _))

theorem msToBytes_eq (ms : ℚ) (sampleRate bytesPerSample : ℕ) :
    (NearWhole (ms * sampleRate / 1000) ∧ msToBytes ms sampleRate bytesPerSample =
        some (roundHalfEven (ms * sampleRate / 1000) * bytesPerSample)) ∨
      (¬NearWhole (ms * sampleRate / 1000) ∧ msToBytes ms sampleRate bytesPerSample = none) := by
  unfold msToBytes NearWhole
  by_cases apart : 1 / 10 ^ 6 < |ms * sampleRate / 1000 - roundHalfEven (ms * sampleRate / 1000)|
  · right
    exact ⟨not_le.mpr apart, if_pos apart⟩
  · left
    exact ⟨not_lt.mp apart, if_neg apart⟩

/-- A duration that is accepted has no samples just when it is under the tolerance. -/
theorem round_pos_iff {samples : ℚ} (nonneg : 0 ≤ samples) (near : NearWhole samples) :
    0 < roundHalfEven samples ↔ 1 / 10 ^ 6 < samples := by
  constructor
  · intro positive
    by_contra small
    have zero : roundHalfEven samples = 0 := roundHalfEven_eq_zero nonneg (by linarith)
    omega
  · intro large
    have floor := roundHalfEven_nonneg nonneg
    by_contra none_left
    have zero : roundHalfEven samples = 0 := by omega
    unfold NearWhole at near
    rw [zero, Int.cast_zero, sub_zero, abs_of_nonneg nonneg] at near
    linarith

section Decoding

theorem int16Samples_length (pcmBytes : List UInt8) (samples : List ℤ)
    (decoded : int16Samples pcmBytes = some samples) : pcmBytes.length = 2 * samples.length := by
  induction pcmBytes using int16Samples.induct generalizing samples with
  | case1 =>
    cases decoded
    rfl
  | case2 low => cases decoded
  | case3 low high rest ih =>
    obtain ⟨tail, readTail, rfl⟩ := Option.map_eq_some_iff.mp decoded
    have length := ih tail readTail
    simp only [List.length_cons]
    omega

theorem pcmToFloat_length {pcmBytes : List UInt8} {samples : List ℚ}
    (decoded : pcmToFloat pcmBytes = some samples) : pcmBytes.length = 2 * samples.length := by
  obtain ⟨words, read, rfl⟩ := Option.map_eq_some_iff.mp decoded
  rw [int16Samples_length _ _ read]
  simp

/-- Bytes decode to `n` samples when there are two for each. -/
theorem decodes_iff (pcmBytes : List UInt8) (n : ℤ) :
    (∃ samples, pcmToFloat pcmBytes = some samples ∧ (samples.length : ℤ) = n) ↔
      (pcmBytes.length : ℤ) = 2 * n := by
  constructor
  · rintro ⟨samples, decoded, length⟩
    have bytes := pcmToFloat_length decoded
    omega
  · intro bytes
    have even : Even pcmBytes.length := by
      rw [Nat.even_iff]
      omega
    obtain ⟨samples, decoded⟩ : ∃ samples, pcmToFloat pcmBytes = some samples :=
      Option.ne_none_iff_exists'.mp fun raised => (pcmToFloat_eq_none pcmBytes).mp raised even
    have length := pcmToFloat_length decoded
    exact ⟨samples, decoded, by omega⟩

end Decoding

section Emitting

variable {r : Repacketizer}

theorem frame_length {packets : List AudioPacket} {frame : AudioPacket}
    (emitted : frame ∈ (calls r packets).2) : frame.samples.length = r.outgoingBytes := by
  obtain ⟨past, packet, later, _, made⟩ := (mem_outputs_iff (call r)).mp emitted
  rw [call_eq] at made
  exact ((feed_conserves _ packet).2.2 frame made).2

/-- What was accepted on a channel and is not in its buffer is in frames. -/
theorem emitted_bytes (c : Str) (packets : List AudioPacket) :
    (onChannel c (calls r packets).2).flatMap (·.samples) ++ ((calls r packets).1 c).buffer =
        (received r c packets).flatMap (·.samples) ∧
      ((calls r packets).1 c).buffer.length < r.outgoingBytes := by
  have whole := @calls_channel r c packets
  have state := congrArg Prod.fst whole
  have emitted := congrArg Prod.snd whole
  simp only at state emitted
  rw [state, emitted]
  exact feeds_conserve (onChannel c packets)

/-- Where a packet has no bytes nothing comes out. -/
theorem none_emitted (empty : r.incomingBytes = 0) (packets : List AudioPacket) :
    (calls r packets).2 = [] := by
  refine List.eq_nil_iff_forall_not_mem.mpr fun frame emitted => ?_
  obtain ⟨bytes, _⟩ := @emitted_bytes r frame.channelId packets
  have nothing : (received r frame.channelId packets).flatMap (·.samples) = [] := by
    refine List.flatMap_eq_nil_iff.mpr fun packet member => ?_
    have accepted : Accepted r packet := by simpa using (List.mem_filter.mp member).2
    rw [Accepted, empty] at accepted
    exact List.length_eq_zero_iff.mp (by exact_mod_cast accepted)
  rw [nothing, List.append_eq_nil_iff, List.flatMap_eq_nil_iff] at bytes
  have no_samples := bytes.1 frame (by simp [onChannel, emitted])
  have size := frame_length emitted
  rw [no_samples, List.length_nil] at size
  exact absurd r.outgoingBytes_pos (by omega)

/-- Packets that have bytes, enough of them, give a frame. -/
theorem some_emitted {size : ℕ} (bytes : r.incomingBytes = size) (positive : 0 < size) :
    ∃ packets, (calls r packets).2 ≠ [] := by
  let packet : AudioPacket := ⟨[], 0, List.replicate size 0⟩
  have accepted : Accepted r packet := by simp [Accepted, packet, bytes]
  refine ⟨List.replicate r.outgoingBytes packet, fun silent => ?_⟩
  obtain ⟨whole, short⟩ := @emitted_bytes r [] (List.replicate r.outgoingBytes packet)
  have all : received r [] (List.replicate r.outgoingBytes packet) =
      List.replicate r.outgoingBytes packet := by
    simp [received, onChannel, accepted, packet]
  rw [silent, all] at whole
  have held := congrArg List.length whole
  have total : ((List.replicate r.outgoingBytes packet).flatMap (·.samples)).length =
      r.outgoingBytes * size := by
    simp [packet]
  have many : r.outgoingBytes ≤ r.outgoingBytes * size := Nat.le_mul_of_pos_right _ positive
  rw [onChannel_nil, List.flatMap_nil, List.nil_append, total] at held
  omega

end Emitting

/-- The frames of a Repacketizer built with `window` samples of `width` bytes. -/
theorem frames_decode_iff {r : Repacketizer} {samples : ℚ} {window : ℤ} {width : ℕ}
    (nonneg : 0 ≤ samples) (near : NearWhole samples) (positive : 0 < window) (byte : 1 ≤ width)
    (incoming : r.incomingBytes = roundHalfEven samples * width)
    (outgoing : (r.outgoingBytes : ℤ) = window * width) :
    (∀ packets, ∀ frame ∈ (calls r packets).2,
        ∃ floats, pcmToFloat frame.samples = some floats ∧ (floats.length : ℤ) = window) ↔
      width = 2 ∨ samples ≤ 1 / 10 ^ 6 := by
  by_cases large : 1 / 10 ^ 6 < samples
  · have rounded := (round_pos_iff nonneg near).mpr large
    constructor
    · intro decodes
      left
      have bytes : r.incomingBytes = ((roundHalfEven samples).toNat * width : ℕ) := by
        rw [incoming]
        push_cast
        rw [Int.toNat_of_nonneg rounded.le]
      obtain ⟨packets, emitted⟩ := some_emitted bytes (Nat.mul_pos (by omega) byte)
      obtain ⟨frame, member⟩ := List.exists_mem_of_ne_nil _ emitted
      have size := (decodes_iff frame.samples window).mp (decodes packets frame member)
      rw [frame_length member, outgoing, mul_comm 2] at size
      have twice := mul_left_cancel₀ positive.ne' size
      omega
    · rintro (two | small) packets frame member
      · refine (decodes_iff frame.samples window).mpr ?_
        rw [frame_length member, outgoing, two, mul_comm]
        rfl
      · exact absurd small (not_le.mpr large)
  · have empty : r.incomingBytes = 0 := by
      rw [incoming, roundHalfEven_eq_zero nonneg (by linarith), zero_mul]
    refine iff_of_true ?_ (Or.inr (not_lt.mp large))
    intro packets frame member
    rw [none_emitted empty] at member
    cases member

/-- Building the router's Repacketizer refuses `incoming_ms`, or its frame is not empty and
all that it emits decodes to VAD's window. -/
def FitsVad (settings : Settings) : Prop :=
  msToBytes settings.repacketizer.incomingMs settings.sampleRate
      settings.repacketizer.bytesPerSample = none ∨
    ∃ r, Repacketizer.ofConfig (repacketizerConfig settings) = some r ∧ 0 < r.outgoingBytes ∧
      ∀ packets, ∀ frame ∈ (calls r packets).2,
        ∃ samples, pcmToFloat frame.samples = some samples ∧
          (samples.length : ℤ) = settings.windowSamples

theorem rounded_of_accepted {settings : Settings}
    (accepted : checkRepacketizerMatchesVad settings = some settings) :
    roundHalfEven (settings.repacketizer.outgoingMs * settings.sampleRate / 1000) =
      settings.windowSamples := by
  unfold checkRepacketizerMatchesVad at accepted
  simp only at accepted
  split at accepted
  · cases accepted
  · rename_i same
    exact not_not.mp same

/-- The sizes of a Repacketizer are those its two durations come to. -/
theorem built_sizes {config : RepacketizerConfig} {r : Repacketizer} {inSize outSize : ℤ}
    (built : Repacketizer.ofConfig config = some r)
    (incoming : msToBytes config.incomingMs config.sampleRate config.bytesPerSample = some inSize)
    (outgoing : msToBytes config.outgoingMs config.sampleRate config.bytesPerSample =
      some outSize) :
    r.incomingBytes = inSize ∧ (r.outgoingBytes : ℤ) = outSize := by
  obtain ⟨inBytes, outBytes, _⟩ := Repacketizer.ofConfig_built built
  exact ⟨Option.some.inj (inBytes.symm.trans incoming),
    Option.some.inj (outBytes.symm.trans outgoing)⟩

/-- The settings the check accepts that fit VAD: the incoming duration is refused, or the
outgoing one is whole, the window has a sample, and a sample has two bytes (or no packet
has any). -/
theorem frames_fit_vad_iff {settings : Settings}
    (accepted : checkRepacketizerMatchesVad settings = some settings) :
    FitsVad settings ↔
      (¬NearWhole (settings.repacketizer.incomingMs * settings.sampleRate / 1000) ∨
        NearWhole (settings.repacketizer.outgoingMs * settings.sampleRate / 1000) ∧
          0 < settings.windowSamples ∧
          (settings.repacketizer.bytesPerSample = 2 ∨
            settings.repacketizer.incomingMs * settings.sampleRate / 1000 ≤ 1 / 10 ^ 6)) := by
  have rounded := rounded_of_accepted accepted
  have nonneg : 0 ≤ settings.repacketizer.incomingMs * settings.sampleRate / 1000 := by
    have positive := settings.repacketizer.incomingMs_gt
    positivity
  have width := settings.repacketizer.bytesPerSample_ge
  rcases msToBytes_eq settings.repacketizer.incomingMs settings.sampleRate
    settings.repacketizer.bytesPerSample with ⟨near, incoming⟩ | ⟨off, incoming⟩
  · -- the left sides say that `incoming_ms` is refused, and it is not
    refine Iff.trans (or_iff_right (by simp [incoming])) (Iff.trans ?_
      (or_iff_right (not_not.mpr near)).symm)
    rcases msToBytes_eq settings.repacketizer.outgoingMs settings.sampleRate
      settings.repacketizer.bytesPerSample with ⟨outNear, outgoing⟩ | ⟨outOff, outgoing⟩
    · rw [rounded] at outgoing
      constructor
      · rintro ⟨r, built, nonempty, decodes⟩
        obtain ⟨inSize, outSize⟩ := built_sizes built incoming outgoing
        have positive : 0 < settings.windowSamples := by
          have frame : (0 : ℤ) < settings.windowSamples * settings.repacketizer.bytesPerSample := by
            omega
          exact (mul_pos_iff_of_pos_right (by positivity)).mp frame
        exact ⟨outNear, positive,
          (frames_decode_iff nonneg near positive width inSize outSize).mp decodes⟩
      · rintro ⟨_, positive, fits⟩
        have frame : (0 : ℤ) < settings.windowSamples * settings.repacketizer.bytesPerSample := by
          positivity
        obtain ⟨r, built⟩ : ∃ r, Repacketizer.ofConfig (repacketizerConfig settings) = some r := by
          unfold Repacketizer.ofConfig repacketizerConfig
          rw [incoming, outgoing]
          exact ⟨_, dif_pos frame⟩
        obtain ⟨inSize, outSize⟩ := built_sizes built incoming outgoing
        exact ⟨r, built, r.outgoingBytes_pos,
          (frames_decode_iff nonneg near positive width inSize outSize).mpr fits⟩
    · -- the outgoing duration is refused, though the check took it
      have fails : Repacketizer.ofConfig (repacketizerConfig settings) = none := by
        unfold Repacketizer.ofConfig repacketizerConfig
        rw [incoming, outgoing]
      refine iff_of_false ?_ fun fits => outOff fits.1
      rintro ⟨r, built, _⟩
      rw [fails] at built
      cases built
  · exact iff_of_true (Or.inl incoming) (Or.inl off)

theorem defaults_fit_vad : FitsVad {} :=
  (frames_fit_vad_iff (if_neg (by decide +kernel))).mpr
    (Or.inr ⟨by decide +kernel, by decide, Or.inl rfl⟩)

/-- Samples of one byte: 512-byte frames, of which VAD makes 256 samples. -/
def oneByteSamples : Settings := { repacketizer := { bytesPerSample := 1 } }

/-- 32.03 ms are 512.48 samples, which the check rounds to the window. -/
def fractionalFrame : Settings := { repacketizer := { outgoingMs := 3203 / 100 } }

theorem accepted_settings_misfit :
    (checkRepacketizerMatchesVad oneByteSamples = some oneByteSamples ∧
        ¬FitsVad oneByteSamples) ∧
      checkRepacketizerMatchesVad fractionalFrame = some fractionalFrame ∧
        ¬FitsVad fractionalFrame := by
  refine ⟨⟨if_neg (by decide +kernel), ?_⟩, if_neg (by decide +kernel), ?_⟩
  · rintro (refused | ⟨r, built, _, decodes⟩)
    · exact absurd refused (by decide +kernel)
    · have incoming : msToBytes 20 16000 1 =
          some (roundHalfEven (20 * 16000 / 1000) * (1 : ℕ)) := by decide +kernel
      have outgoing : msToBytes 32 16000 1 = some (512 * (1 : ℕ)) := by decide +kernel
      obtain ⟨inSize, outSize⟩ := built_sizes built incoming outgoing
      have fits := (@frames_decode_iff r (20 * 16000 / 1000) 512 1 (by norm_num)
        (by decide +kernel) (by decide) (le_refl 1) inSize outSize).mp decodes
      norm_num at fits
  · rintro (refused | ⟨r, built, _⟩)
    · exact absurd refused (by decide +kernel)
    · obtain ⟨_, outgoing, _⟩ := Repacketizer.ofConfig_built built
      have refused : msToBytes (3203 / 100) 16000 2 = none := by decide +kernel
      exact absurd (outgoing.symm.trans refused) (by simp)

end EdgeVoice.FrameSize
