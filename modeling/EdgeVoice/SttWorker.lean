import EdgeVoice.Models
import EdgeVoice.StepSystem

/-! STTWorker: one FIFO consumer of a channel's segment queue over one transcriber.
moonshine's Transcriber is outside the repository: it enters as an arbitrary machine
whose calls may raise and report line events to the collector of the session. Clock
and queue-depth readings are inputs. The log, the model lookup and the options passed
to the model are left out. The transcript callback is the last thing either path
does, so nothing below depends on whether it raises. -/

namespace EdgeVoice.SttWorker
open PythonText Models StepSystem

structure STTWorkerConfig where
  sampleRate : ℕ := 16000
  repetitiveRatio : ℚ := 9 / 20
  partialMaxQueueDepth : ℤ := 0

/-- `_is_repetitive`: too few distinct tokens, judged from four tokens on. -/
def isRepetitive (text : Str) (threshold : ℚ) : Bool :=
  let tokens := split text
  if tokens.length < 4 then false
  else (tokens.dedup.length : ℚ) / tokens.length < threshold

inductive LineEvent
  | textChanged (text : Str)
  | completed (text : Str)
deriving DecidableEq

/-- `_Collector`: the listener of one session. -/
structure Collector where
  lines : List Str := []
  bestPartial : Str := []

def Collector.onLineTextChanged (ratio : ℚ) (text : Str) (c : Collector) : Collector :=
  if isRepetitive text ratio then c else { c with bestPartial := text }

def Collector.onLineCompleted (ratio : ℚ) (text : Str) (c : Collector) : Collector :=
  let text := if isRepetitive text ratio then c.bestPartial else text
  if text ≠ [] then { c with lines := c.lines ++ [text] } else c

def Collector.hear (ratio : ℚ) (c : Collector) : LineEvent → Collector
  | .textChanged text => c.onLineTextChanged ratio text
  | .completed text => c.onLineCompleted ratio text

def Collector.text (c : Collector) : Str := strip (joinWords c.lines)

/-- What a session call did: whether it raised, the events it reported on the way,
and the transcriber it left behind. -/
structure Answer (τ : Type) where
  raised : Bool
  reported : List LineEvent
  next : τ

structure Transcriber (τ : Type) where
  removeAllListeners : τ → Bool × τ
  addListener : τ → Bool × τ
  start : τ → Answer τ
  addAudio : τ → List ℚ → ℕ → Answer τ
  stop : τ → Answer τ
  transcribeWithoutStreaming : τ → List ℚ → ℕ → Option (List Str) × τ

/-- One dequeued segment with the readings its handling takes: the clock at the
dequeue, `qsize()`, and the clock around the decode. -/
structure Turn where
  segment : SpeechSegment
  activityAt : ℚ := 0
  queueSize : ℕ := 0
  startedAt : ℚ := 0
  finishedAt : ℚ := 0
deriving DecidableEq

structure SttState (τ : Type) where
  transcriber : τ
  lastActivity : ℚ := 0
  lastLatencyS : Option ℚ := none
  channelLatencyS : Str → Option ℚ := fun _ => none
  partialsTranscribed : ℕ := 0
  partialsDropped : ℕ := 0

variable {τ : Type} (cfg : STTWorkerConfig) (tr : Transcriber τ)

/-- The text of one streamed session, or nothing when a call raised. `stop()` runs
in a `finally`, so it follows an `add_audio` that raised too. -/
def transcribe (s : τ) (audio : List UInt8) : Option Str × τ :=
  let removed := tr.removeAllListeners s
  if removed.1 then (none, removed.2)
  else
    let added := tr.addListener removed.2
    if added.1 then (none, added.2)
    else
      let started := tr.start added.2
      if started.raised then (none, started.next)
      else
        let fed : Answer τ := match pcmToFloat audio with
          | none => ⟨true, [], started.next⟩
          | some samples => tr.addAudio started.next samples cfg.sampleRate
        let stopped := tr.stop fed.next
        if fed.raised || stopped.raised then (none, stopped.next)
        else
          let collector := (started.reported ++ fed.reported ++ stopped.reported).foldl
            (Collector.hear cfg.repetitiveRatio) {}
          (some collector.text, stopped.next)

def transcribePartial (s : τ) (audio : List UInt8) : Option Str × τ :=
  match pcmToFloat audio with
  | none => (none, s)
  | some samples =>
    let transcript := tr.transcribeWithoutStreaming s samples cfg.sampleRate
    (transcript.1.map fun lines =>
      let text := strip (joinWords (lines.filter (· ≠ [])))
      if isRepetitive text cfg.repetitiveRatio then [] else text, transcript.2)

def handlePartial (turn : Turn) (state : SttState τ) : SttState τ × List TranscriptEvent :=
  if cfg.partialMaxQueueDepth < turn.queueSize then
    ({ state with partialsDropped := state.partialsDropped + 1 }, [])
  else
    let decoded := transcribePartial cfg tr state.transcriber turn.segment.audio
    match decoded.1 with
    | none => ({ state with transcriber := decoded.2 }, [])
    | some text =>
      ({ state with
          transcriber := decoded.2, partialsTranscribed := state.partialsTranscribed + 1 },
        if text = [] then []
        else [{ channelId := turn.segment.channelId, segmentId := turn.segment.segmentId,
                text := text, start := turn.segment.start, endTs := turn.segment.endTs,
                isFinal := false }])

/-- The exception of a failed decode ends the method before the latency is written. -/
def handleSegment (turn : Turn) (state : SttState τ) : SttState τ × List TranscriptEvent :=
  if turn.segment.isPartial then handlePartial cfg tr turn state
  else
    let decoded := transcribe cfg tr state.transcriber turn.segment.audio
    match decoded.1 with
    | none => ({ state with transcriber := decoded.2 }, [])
    | some text =>
      let latency := turn.finishedAt - turn.startedAt
      ({ state with
          transcriber := decoded.2
          lastLatencyS := some latency
          channelLatencyS :=
            Function.update state.channelLatencyS turn.segment.channelId (some latency) },
        if text = [] then []
        else [{ channelId := turn.segment.channelId, segmentId := turn.segment.segmentId,
                text := text, start := turn.segment.start, endTs := turn.segment.endTs }])

/-- The body of run() after a dequeue; an exception is logged and changes nothing more. -/
def sttStep (state : SttState τ) (turn : Turn) : SttState τ × List TranscriptEvent :=
  handleSegment cfg tr turn { state with lastActivity := turn.activityAt }

/-- A turn publishes at most one event, of its own segment and kind. -/
theorem sttStep_events (state : SttState τ) (turn : Turn) :
    ∃ text : Option Str, (sttStep cfg tr state turn).2 = text.toList.map fun text =>
      { channelId := turn.segment.channelId, segmentId := turn.segment.segmentId, text := text,
        start := turn.segment.start, endTs := turn.segment.endTs,
        isFinal := !turn.segment.isPartial } := by
  unfold sttStep handleSegment handlePartial
  by_cases throwaway : turn.segment.isPartial = true
  · rw [if_pos throwaway]
    split
    · exact ⟨none, rfl⟩
    simp only
    split
    · exact ⟨none, rfl⟩
    rename_i text _
    by_cases blank : text = []
    · exact ⟨none, by simp [blank]⟩
    · exact ⟨some text, by simp [blank, throwaway]⟩
  · rw [if_neg throwaway]
    simp only
    split
    · exact ⟨none, rfl⟩
    rename_i text _
    by_cases blank : text = []
    · exact ⟨none, by simp [blank]⟩
    · exact ⟨some text, by simp [blank, throwaway]⟩

/-- The events of a run, by id and kind, are the dequeued segments with some left out. -/
theorem events_sublist_turns (state : SttState τ) (turns : List Turn) :
    ((outputs (sttStep cfg tr) state turns).2.map fun e => (e.segmentId, e.isFinal)).Sublist
      (turns.map fun t => (t.segment.segmentId, !t.segment.isPartial)) := by
  induction turns generalizing state with
  | nil => exact List.Sublist.refl _
  | cons turn turns ih =>
    obtain ⟨text, published⟩ := sttStep_events cfg tr state turn
    have later := ih (sttStep cfg tr state turn).1
    rw [outputs_cons, List.map_append, published]
    cases text with
    | none => simpa using later.cons (turn.segment.segmentId, !turn.segment.isPartial)
    | some text => simpa using later

end EdgeVoice.SttWorker
