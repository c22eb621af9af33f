import EdgeVoice.ConsoleStream
import EdgeVoice.EventStream
import EdgeVoice.JsonText

/-! The wire between the hub and a console page: `_sse_events` yields each event of its queue
as one JSON frame, and the page's EventSource reads what comes of it, a character at a time. A
float is written by its `repr`, which is a parameter, as is how the page reads a numeral. -/

namespace EdgeVoice.TranscriptStream
open PythonText Models StepSystem Broadcast TranscriptHub ConsolePage ConsoleStream JsonText
  Framing

/-- An event with its `created_at`. -/
structure Stamped where
  event : TranscriptEvent
  createdAt : ℚ
deriving DecidableEq

/-- `float.__repr__`, and the number a page makes of a numeral. -/
structure Floats where
  repr : ℚ → Numeral
  number : Numeral → ℚ

/-- What is read is what was written. -/
def Floats.Exact (floats : Floats) (x : ℚ) : Prop := floats.number (floats.repr x) = x

instance (floats : Floats) (x : ℚ) : Decidable (floats.Exact x) :=
  inferInstanceAs (Decidable (_ = _))

def Stamped.Exact (floats : Floats) (e : Stamped) : Prop :=
  floats.Exact e.event.start ∧ floats.Exact e.event.endTs ∧ floats.Exact e.createdAt

instance (floats : Floats) (e : Stamped) : Decidable (e.Exact floats) :=
  inferInstanceAs (Decidable (_ ∧ _ ∧ _))

variable (floats : Floats)

/-- `_serialize`. -/
def serialize (e : Stamped) : Json :=
  .obj [("channel_id".toList, .str e.event.channelId),
    ("segment_id".toList, .str e.event.segmentId),
    ("text".toList, .str e.event.text),
    ("start".toList, .num (floats.repr e.event.start)),
    ("end".toList, .num (floats.repr e.event.endTs)),
    ("created_at".toList, .num (floats.repr e.createdAt)),
    ("is_final".toList, .bool e.event.isFinal)]

/-- What `_sse_events` yields for an event. -/
def sseEvent (e : Stamped) : List Char := EventStream.frame (write true (serialize floats e))

/-- A property of a parsed object; a later member of the same name replaces an earlier one. -/
def property (name : Str) : Json → Option Json
  | .obj members => members.reverse.lookup name
  | _ => none

def textOf : Json → Option Str
  | .str text => some text
  | _ => none

def numberOf : Json → Option ℚ
  | .num n => some (floats.number n)
  | _ => none

def flagOf : Json → Option Bool
  | .bool b => some b
  | _ => none

/-- What the page finds in a parsed message. -/
def deserialize (m : Json) : Option Stamped := do
  let channelId ← (← property "channel_id".toList m) |> textOf
  let segmentId ← (← property "segment_id".toList m) |> textOf
  let text ← (← property "text".toList m) |> textOf
  let start ← (← property "start".toList m) |> numberOf floats
  let endTs ← (← property "end".toList m) |> numberOf floats
  let createdAt ← (← property "created_at".toList m) |> numberOf floats
  let isFinal ← (← property "is_final".toList m) |> flagOf
  some ⟨{ channelId, segmentId, text, start, endTs, isFinal }, createdAt⟩

/-- `source.onmessage`, up to applyMessage(): `JSON.parse(e.data)`, which may raise. An event
with a type of its own goes to no handler. -/
def onmessage (m : EventStream.Message) : List (Option Stamped) :=
  if m.eventType = [] then [(parse m.data).bind (deserialize floats)] else []

/-- What a page gets of what came on a connection. -/
def received (cut : List Char) : List (Option Stamped) :=
  (outputs EventStream.Reader.read {} cut).2.flatMap (onmessage floats)

variable {floats}

theorem deserialize_serialize {e : Stamped} (exact : e.Exact floats) :
    deserialize floats (serialize floats e) = some e := by
  obtain ⟨start, endTs, createdAt⟩ := exact
  have found : deserialize floats (serialize floats e) =
      some ⟨{ e.event with
        start := floats.number (floats.repr e.event.start)
        endTs := floats.number (floats.repr e.event.endTs) },
        floats.number (floats.repr e.createdAt)⟩ := rfl
  rw [found, start, endTs, createdAt]

theorem oneLine_write (value : Json) : EventStream.OneLine (write true value) := by
  intro c member
  have printable := (printable_write true value c member).1
  constructor
  · rintro rfl
    exact absurd printable (by decide)
  · rintro rfl
    exact absurd printable (by decide)

theorem sseEvent_framed (e : Stamped) :
    Framed EventStream.Reader.read {} (sseEvent floats e) ⟨[], write true (serialize floats e)⟩ :=
  EventStream.frame_framed (oneLine_write _)

/-- The message of an event's frame is the event. -/
theorem onmessage_write {e : Stamped} (exact : e.Exact floats) :
    onmessage floats ⟨[], write true (serialize floats e)⟩ = [some e] := by
  rw [onmessage, if_pos rfl, parse_write, Option.bind_some, deserialize_serialize exact]

theorem sseEvent_ascii {e : Stamped} {c : Char} (member : c ∈ sseEvent floats e) :
    c.toNat < 128 := by
  simp only [sseEvent, EventStream.frame, List.mem_append] at member
  rcases member with (name | inside) | ends
  · have ascii : ['d', 'a', 't', 'a', ':', ' '].all (fun c => decide (c.toNat < 128)) = true := rfl
    exact of_decide_eq_true (List.all_eq_true.mp ascii c name)
  · have printable := (printable_write true _ c inside).2 rfl
    omega
  · have ascii : ['\n', '\n'].all (fun c => decide (c.toNat < 128)) = true := rfl
    exact of_decide_eq_true (List.all_eq_true.mp ascii c ends)

/-- Wherever a connection breaks off, within a frame or between two, the page has got the
events whose frames came whole, in order, with every field as it was sent, and nothing else. A
character is a byte, so this is so of any cut of the bytes. -/
theorem stream_cut_anywhere {events : List Stamped} (exact : ∀ e ∈ events, e.Exact floats)
    {cut : List Char} (early : cut <+: events.flatMap (sseEvent floats)) :
    ∃ arrived, Cut (sseEvent floats) events cut arrived ∧
      received floats cut = arrived.map some ∧ ∀ c ∈ cut, c.toNat < 128 := by
  obtain ⟨arrived, split⟩ := exists_cut (sseEvent floats) events cut
  refine ⟨arrived, split, ?_, fun c member => ?_⟩
  · rw [received, cut_messages (fun e _ => sseEvent_framed e) early split, List.flatMap_map]
    have each : ∀ e ∈ arrived,
        onmessage floats ⟨[], write true (serialize floats e)⟩ = [some e] :=
      fun e member => onmessage_write (exact e (split.order.subset member))
    rw [List.flatMap_congr each, List.map_eq_flatMap]
  · obtain ⟨e, _, inside⟩ := List.mem_flatMap.mp (early.subset member)
    exact sseEvent_ascii inside

/-- What `repr` and a page do with 1, 2 and 2.5. -/
def threeFloats : Floats where
  repr x := if x = 1 then ⟨"1.0".toList, rfl⟩ else if x = 2 then ⟨"2.0".toList, rfl⟩
    else ⟨"2.5".toList, rfl⟩
  number n := if n.text = "1.0".toList then 1 else if n.text = "2.0".toList then 2 else 5 / 2

def greeting : List Stamped :=
  [⟨saying "안녕".toList 1 false, 5 / 2⟩, ⟨saying "안녕 \"😀\"".toList 1 true, 5 / 2⟩]

theorem second_frame_cut :
    ∃ arrived, Cut (sseEvent threeFloats) greeting
        ((greeting.flatMap (sseEvent threeFloats)).take 300) arrived ∧
      received threeFloats ((greeting.flatMap (sseEvent threeFloats)).take 300) =
        arrived.map some := by
  have exact : ∀ e ∈ greeting, e.Exact threeFloats := by decide +kernel
  obtain ⟨arrived, split, got, _⟩ := stream_cut_anywhere exact (List.take_prefix 300 _)
  exact ⟨arrived, split, got⟩

end EdgeVoice.TranscriptStream
