import EdgeVoice.Framing

/-! A browser's reader of `text/event-stream`, a character at a time: lines end at CR, LF or
both, a blank line dispatches what the lines before it said, and what is not dispatched when
the stream ends is lost. The fields `id` and `retry` are ignored, as is a byte order mark. -/

namespace EdgeVoice.EventStream
open StepSystem Framing

/-- A dispatched event; `onmessage` gets those without a type. -/
structure Message where
  eventType : List Char
  data : List Char
deriving DecidableEq

structure Reader where
  line : List Char := []
  afterCR : Bool := false
  data : List Char := []
  eventType : List Char := []
deriving DecidableEq

namespace Reader

def field (reader : Reader) (name value : List Char) : Reader :=
  if name = ['d', 'a', 't', 'a'] then { reader with data := reader.data ++ value ++ ['\n'] }
  else if name = ['e', 'v', 'e', 'n', 't'] then { reader with eventType := value }
  else reader

/-- One space after the colon is not part of the value. -/
def value : List Char → List Char
  | ' ' :: text => text
  | text => text

def endLine (reader : Reader) : Reader × List Message :=
  let next := { reader with line := [], afterCR := false }
  if reader.line = [] then
    ({ next with data := [], eventType := [] },
      if reader.data = [] then [] else [⟨reader.eventType, reader.data.dropLast⟩])
  else if reader.line.head? = some ':' then (next, [])
  else
    (next.field (reader.line.takeWhile (· ≠ ':'))
      (value (reader.line.dropWhile (· ≠ ':')).tail), [])

def read (reader : Reader) (c : Char) : Reader × List Message :=
  if c = '\n' then
    if reader.afterCR then ({ reader with afterCR := false }, []) else reader.endLine
  else if c = '\r' then ({ reader.endLine.1 with afterCR := true }, reader.endLine.2)
  else ({ reader with line := reader.line ++ [c], afterCR := false }, [])

end Reader

/-- A payload as one event. -/
def frame (payload : List Char) : List Char :=
  ['d', 'a', 't', 'a', ':', ' '] ++ payload ++ ['\n', '\n']

/-- No character that would end a line. -/
def OneLine (text : List Char) : Prop := ∀ c ∈ text, c ≠ '\n' ∧ c ≠ '\r'

instance (text : List Char) : Decidable (OneLine text) := inferInstanceAs (Decidable (∀ _ ∈ _, _))

theorem outputs_line {text : List Char} (line : OneLine text) (start : List Char) :
    outputs Reader.read { line := start } text = ({ line := start ++ text }, []) := by
  induction text generalizing start with
  | nil => simp
  | cons c text ih =>
    obtain ⟨newline, carriage⟩ := line c List.mem_cons_self
    have first : Reader.read { line := start } c = ({ line := start ++ [c] }, []) := by
      rw [Reader.read, if_neg newline, if_neg carriage]
    rw [outputs_cons, first, ih (fun d member => line d (List.mem_cons_of_mem _ member))]
    simp

theorem oneLine_field {payload : List Char} (line : OneLine payload) :
    OneLine (['d', 'a', 't', 'a', ':', ' '] ++ payload) := by
  intro c member
  have name : OneLine ['d', 'a', 't', 'a', ':', ' '] := by simp [OneLine]
  rcases List.mem_append.mp member with named | inside
  · exact name c named
  · exact line c inside

/-- The first of the two line ends takes the payload in. -/
theorem read_field (payload : List Char) :
    Reader.read { line := ['d', 'a', 't', 'a', ':', ' '] ++ payload } '\n' =
      ({ data := payload ++ ['\n'] }, []) := by
  simp [Reader.read, Reader.endLine, Reader.field, Reader.value]

theorem read_blank (payload : List Char) :
    Reader.read { data := payload ++ ['\n'] } '\n' = ({}, [⟨[], payload⟩]) := by
  simp [Reader.read, Reader.endLine]

/-- A payload of one line is one event, dispatched on the last character of its frame. -/
theorem frame_framed {payload : List Char} (line : OneLine payload) :
    Framed Reader.read {} (frame payload) ⟨[], payload⟩ := by
  have named := outputs_line (oneLine_field line) []
  have body : outputs Reader.read {} (['d', 'a', 't', 'a', ':', ' '] ++ payload ++ ['\n']) =
      ({ data := payload ++ ['\n'] }, []) := by
    rw [outputs_append, named, List.nil_append, outputs_cons, read_field]
    rfl
  have split : frame payload = ['d', 'a', 't', 'a', ':', ' '] ++ payload ++ ['\n'] ++ ['\n'] := by
    simp [frame]
  rw [split]
  refine Framed.of_last (congrArg Prod.snd body) ?_
  rw [outputs_append, body, outputs_cons, read_blank]
  rfl

end EdgeVoice.EventStream
