import EdgeVoice.Models

/-! ChannelRouter and its Repacketizer: packets of unknown channels and of the wrong
size are dropped, the others are cut to frames of the outgoing size, channel by
channel. The freshness and latency dictionaries, the log and the debug copies are
left out. -/

namespace EdgeVoice.ChannelRouter
open PythonText Models

structure RepacketizerConfig where
  incomingMs : ℚ := 20
  outgoingMs : ℚ := 32
  sampleRate : ℕ := 16000
  bytesPerSample : ℕ := 2

/-- `none` is the ValueError of a duration that is not a whole number of samples. -/
def msToBytes (ms : ℚ) (sampleRate bytesPerSample : ℕ) : Option ℤ :=
  let samples := ms * sampleRate / 1000
  let rounded := roundHalfEven samples
  if 1 / 10 ^ 6 < |samples - rounded| then none else some (rounded * bytesPerSample)

/-- The constants of a Repacketizer. With an empty outgoing frame the loop of
`process` would not end, so there is none here. -/
structure Repacketizer where
  incomingBytes : ℤ
  outgoingBytes : ℕ
  outgoingS : ℚ
  outgoingBytes_pos : 0 < outgoingBytes

/-- `Repacketizer.__init__`; `none` if it raises or if the outgoing frame is empty. -/
def Repacketizer.ofConfig (config : RepacketizerConfig) : Option Repacketizer :=
  match msToBytes config.incomingMs config.sampleRate config.bytesPerSample,
    msToBytes config.outgoingMs config.sampleRate config.bytesPerSample with
  | some incoming, some outgoing =>
    if positive : 0 < outgoing then
      some ⟨incoming, outgoing.toNat, config.outgoingMs / 1000, by omega⟩
    else none
  | _, _ => none

example : (Repacketizer.ofConfig {}).map (fun r => (r.incomingBytes, r.outgoingBytes)) =
    some (640, 1024) := by
  decide +kernel

theorem Repacketizer.ofConfig_built {config : RepacketizerConfig} {r : Repacketizer}
    (built : Repacketizer.ofConfig config = some r) :
    msToBytes config.incomingMs config.sampleRate config.bytesPerSample = some r.incomingBytes ∧
      msToBytes config.outgoingMs config.sampleRate config.bytesPerSample =
        some (r.outgoingBytes : ℤ) ∧
      r.outgoingS = config.outgoingMs / 1000 := by
  unfold Repacketizer.ofConfig at built
  split at built
  · rename_i incoming outgoing inc out
    split at built
    · rename_i positive
      cases built
      exact ⟨inc, by rw [out, Int.toNat_of_nonneg positive.le], rfl⟩
    · cases built
  · cases built

theorem roundHalfEven_natCast (n : ℕ) : roundHalfEven n = n := by
  simp [roundHalfEven]

theorem msToBytes_whole {ms : ℚ} {sampleRate n : ℕ} (whole : ms * sampleRate / 1000 = n)
    (bytesPerSample : ℕ) :
    msToBytes ms sampleRate bytesPerSample = some ((n * bytesPerSample : ℕ) : ℤ) := by
  unfold msToBytes
  simp [whole, roundHalfEven_natCast]

/-- Durations of whole samples are accepted. -/
theorem Repacketizer.ofConfig_whole {config : RepacketizerConfig} {a b : ℕ}
    (incoming : config.incomingMs * config.sampleRate / 1000 = a)
    (outgoing : config.outgoingMs * config.sampleRate / 1000 = b)
    (positive : 0 < b * config.bytesPerSample) :
    Repacketizer.ofConfig config =
      some ⟨(a * config.bytesPerSample : ℕ), b * config.bytesPerSample,
        config.outgoingMs / 1000, positive⟩ := by
  unfold Repacketizer.ofConfig
  rw [msToBytes_whole incoming, msToBytes_whole outgoing]
  simp only [Int.toNat_natCast]
  exact dif_pos (by exact_mod_cast positive)

/-- One channel's `_buffers` and `_buffer_start_ts`. -/
structure ChannelBuffer where
  buffer : List UInt8 := []
  startTs : ℚ := 0
deriving DecidableEq

abbrev Buffers := Str → ChannelBuffer

variable (r : Repacketizer)

/-- The `while` loop of `process`; one turn per byte is more than enough. -/
def emitFrames (channelId : Str) : ℕ → ChannelBuffer → List AudioPacket × ChannelBuffer
  | 0, held => ([], held)
  | turns + 1, held =>
    if r.outgoingBytes ≤ held.buffer.length then
      let rest := emitFrames channelId turns
        ⟨held.buffer.drop r.outgoingBytes, held.startTs + r.outgoingS⟩
      (⟨channelId, held.startTs, held.buffer.take r.outgoingBytes⟩ :: rest.1, rest.2)
    else ([], held)

/-- `none` is the ValueError of a packet of the wrong size. -/
def process (buffers : Buffers) (packet : AudioPacket) : Option (Buffers × List AudioPacket) :=
  if (packet.samples.length : ℤ) ≠ r.incomingBytes then none
  else
    let old := buffers packet.channelId
    let held : ChannelBuffer :=
      { buffer := old.buffer ++ packet.samples
        startTs := if old.buffer = [] then packet.timestamp else old.startTs }
    let emitted := emitFrames r packet.channelId held.buffer.length held
    some (Function.update buffers packet.channelId emitted.2, emitted.1)

/-- The body of the router's loop: what it puts on the routed queue for one packet. -/
def routePacket (channelIds : List Str) (buffers : Buffers) (packet : AudioPacket) :
    Buffers × List AudioPacket :=
  if packet.channelId ∈ channelIds then (process r buffers packet).getD (buffers, [])
  else (buffers, [])

/-- The frames and what stays behind are the buffer, and less than a frame stays. -/
theorem emitFrames_conserves (channelId : Str) (turns : ℕ) (held : ChannelBuffer)
    (enough : held.buffer.length ≤ turns) :
    let emitted := emitFrames r channelId turns held
    emitted.1.flatMap (·.samples) ++ emitted.2.buffer = held.buffer ∧
      emitted.2.buffer.length < r.outgoingBytes ∧
      ∀ frame ∈ emitted.1,
        frame.channelId = channelId ∧ frame.samples.length = r.outgoingBytes := by
  have positive := r.outgoingBytes_pos
  induction turns generalizing held with
  | zero =>
    have empty : held.buffer.length = 0 := by omega
    simp [emitFrames, empty, positive]
  | succ turns ih =>
    by_cases whole : r.outgoingBytes ≤ held.buffer.length
    · have shorter : (held.buffer.drop r.outgoingBytes).length ≤ turns := by
        rw [List.length_drop]
        omega
      obtain ⟨joined, short, frames⟩ :=
        ih ⟨held.buffer.drop r.outgoingBytes, held.startTs + r.outgoingS⟩ shorter
      simp only [emitFrames, if_pos whole]
      refine ⟨?_, short, fun frame member => ?_⟩
      · rw [List.flatMap_cons, List.append_assoc, joined, List.take_append_drop]
      · rcases List.mem_cons.mp member with rfl | later
        · exact ⟨rfl, by simp [whole]⟩
        · exact frames frame later
    · simp only [emitFrames, if_neg whole]
      exact ⟨rfl, by omega, by simp⟩

end EdgeVoice.ChannelRouter
