import EdgeVoice.PythonText

/-! The dataclasses the stages exchange and the int16 reading of their audio.
Audio is a byte list. Times and samples are exact rationals, not binary floats,
and a transcript's wall-clock `created_at` is left out. -/

namespace EdgeVoice.Models
open PythonText

structure AudioPacket where
  channelId : Str
  timestamp : ℚ
  samples : List UInt8
deriving DecidableEq

/-- `end` is a keyword here, so the field is called `endTs`. -/
structure SpeechSegment where
  channelId : Str
  start : ℚ
  endTs : ℚ
  audio : List UInt8
  segmentId : Str
  isPartial : Bool := false
deriving DecidableEq

structure TranscriptEvent where
  channelId : Str
  segmentId : Str
  text : Str
  start : ℚ
  endTs : ℚ
  isFinal : Bool := true
deriving DecidableEq

/-- `np.frombuffer(pcm_bytes, dtype=np.int16)`, little-endian. It raises when the
byte count is odd. -/
def int16Samples : List UInt8 → Option (List ℤ)
  | [] => some []
  | [_] => none
  | low :: high :: rest =>
    let word : ℤ := low.toNat + 256 * high.toNat
    (int16Samples rest).map fun samples =>
      (if word < 32768 then word else word - 65536) :: samples

theorem int16Samples_isSome (pcmBytes : List UInt8) :
    (int16Samples pcmBytes).isSome ↔ Even pcmBytes.length := by
  fun_induction int16Samples pcmBytes with
  | case1 => simp
  | case2 => simp
  | case3 low high rest word ih =>
    rw [Option.isSome_map, ih]
    simp [Nat.even_add_one]

/-- int16 mono PCM normalised to [-1, 1]. -/
def pcmToFloat (pcmBytes : List UInt8) : Option (List ℚ) :=
  (int16Samples pcmBytes).map fun samples => samples.map fun s => (s : ℚ) / 32768

theorem pcmToFloat_eq_none (pcmBytes : List UInt8) :
    pcmToFloat pcmBytes = none ↔ ¬Even pcmBytes.length := by
  rw [← int16Samples_isSome, pcmToFloat, Option.map_eq_none_iff, Option.not_isSome_iff_eq_none]

end EdgeVoice.Models
