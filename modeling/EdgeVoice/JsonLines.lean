import EdgeVoice.Framing
import EdgeVoice.JsonText

/-! Files with one JSON text a line, in UTF-8. The reader gets bytes and says at the end of each
line what the line holds, if it is UTF-8 and JSON. -/

namespace EdgeVoice.JsonLines
open StepSystem Framing JsonText

def utf8 (text : List Char) : List UInt8 := text.flatMap String.utf8EncodeChar

def decodeUtf8 (bytes : List UInt8) : Option (List Char) :=
  bytes.toByteArray.utf8Decode?.map Array.toList

/-- The line of a text. -/
def line (text : List Char) : List UInt8 := utf8 (text ++ ['\n'])

/-- The state is the line so far. -/
def read (bytes : List UInt8) (b : UInt8) : List UInt8 × List (Option Json) :=
  if b = 10 then ([], [(decodeUtf8 bytes).bind parse]) else (bytes ++ [b], [])

theorem decodeUtf8_utf8 (text : List Char) : decodeUtf8 (utf8 text) = some text := by
  have encoded : (utf8 text).toByteArray = text.utf8Encode := rfl
  rw [decodeUtf8, encoded, List.utf8Decode?_utf8Encode]
  rfl

/-- Only a newline is encoded with the byte of a newline. -/
theorem newline_of_mem {c : Char} (member : 10 ∈ String.utf8EncodeChar c) : c = '\n' := by
  have byte {n : ℕ} (same : 10 = UInt8.ofNat n) : n % 256 = 10 := by
    have value := congrArg UInt8.toNat same
    rw [UInt8.toNat_ofNat'] at value
    exact value.symm
  unfold String.utf8EncodeChar at member
  simp only at member
  split_ifs at member with one two three
  · have value := byte (List.mem_singleton.mp member)
    refine Char.ext (UInt32.toNat_inj.mp ?_)
    change c.val.toNat = 10
    omega
  all_goals
    simp only [List.mem_cons, List.not_mem_nil, or_false] at member
  · rcases member with same | same <;> have value := byte same <;> omega
  · rcases member with same | same | same <;> have value := byte same <;> omega
  · rcases member with same | same | same | same <;> have value := byte same <;> omega

theorem outputs_text {text : List Char} (oneLine : ∀ c ∈ text, c ≠ '\n') :
    outputs read [] (utf8 text) = (utf8 text, []) := by
  have bytes {more : List UInt8} (plain : ∀ b ∈ more, b ≠ 10) (start : List UInt8) :
      outputs read start more = (start ++ more, []) := by
    induction more generalizing start with
    | nil => simp
    | cons b more ih =>
      have first : read start b = (start ++ [b], []) := if_neg (plain b List.mem_cons_self)
      rw [outputs_cons, first, ih fun d member => plain d (List.mem_cons_of_mem _ member)]
      simp
  refine bytes (fun b member => ?_) []
  rintro rfl
  obtain ⟨c, inside, encoded⟩ := List.mem_flatMap.mp member
  exact oneLine c inside (newline_of_mem encoded)

/-- A JSON text without line ends is read on the last byte of its line. -/
theorem line_framed {text : List Char} (oneLine : ∀ c ∈ text, c ≠ '\n') :
    Framed read [] (line text) (parse text) := by
  have split : line text = utf8 text ++ [10] := List.flatMap_append
  have body := outputs_text oneLine
  rw [split]
  refine Framed.of_last (congrArg Prod.snd body) ?_
  rw [outputs_append, body, outputs_cons, read, if_pos rfl, decodeUtf8_utf8]
  rfl

end EdgeVoice.JsonLines
