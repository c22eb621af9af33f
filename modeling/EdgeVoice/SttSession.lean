import EdgeVoice.SegmentAdmission

/-! One transcriber object under every segment of a channel: what it may carry from one
segment to the next, and what reaches a transcript all the same. Every collector ever made
stays, since a stale one can still be registered; the cached collector class holds nothing
of its own. A segment comes with `ε`, whatever decides which calls raise while it is
handled. -/

namespace EdgeVoice.SttSession
open PythonText Models SttWorker SegmentAdmission StepSystem

/-- moonshine's Transcriber. Its listeners are named by the order in which they were made. -/
structure SharedTranscriber (τ ε : Type) where
  sessionOpen : τ → Bool
  listeners : τ → List ℕ
  removeAllListeners : τ → τ
  addListener : τ → ℕ → τ
  start : ε → τ → Answer τ
  addAudio : ε → τ → List ℚ → ℕ → Answer τ
  stop : ε → τ → Answer τ
  transcribeWithoutStreaming : ε → τ → List ℚ → ℕ → Answer τ × List Str

/-- What is assumed of it, for a part of its state that is its decoder. -/
structure Documented {τ ε δ : Type} (tr : SharedTranscriber τ ε) (decoder : τ → δ) :
    Prop where
  remove_clears : ∀ s, tr.listeners (tr.removeAllListeners s) = []
  remove_session : ∀ s, tr.sessionOpen (tr.removeAllListeners s) = tr.sessionOpen s
  add_registers : ∀ s id, tr.listeners (tr.addListener s id) = tr.listeners s ++ [id]
  add_session : ∀ s id, tr.sessionOpen (tr.addListener s id) = tr.sessionOpen s
  start_succeeds : ∀ e s, tr.sessionOpen s = false → (tr.start e s).raised = false
  start_resets : ∀ e s s', tr.sessionOpen s = false → tr.sessionOpen s' = false →
    (tr.start e s).reported = (tr.start e s').reported ∧
      decoder (tr.start e s).next = decoder (tr.start e s').next
  start_listeners : ∀ e s, tr.listeners (tr.start e s).next = tr.listeners s
  addAudio_decodes : ∀ e s s' samples rate, decoder s = decoder s' →
    (tr.addAudio e s samples rate).raised = (tr.addAudio e s' samples rate).raised ∧
      (tr.addAudio e s samples rate).reported = (tr.addAudio e s' samples rate).reported ∧
      decoder (tr.addAudio e s samples rate).next = decoder (tr.addAudio e s' samples rate).next
  addAudio_listeners : ∀ e s samples rate,
    tr.listeners (tr.addAudio e s samples rate).next = tr.listeners s
  stop_decodes : ∀ e s s', decoder s = decoder s' →
    (tr.stop e s).raised = (tr.stop e s').raised ∧
      (tr.stop e s).reported = (tr.stop e s').reported
  stop_closes : ∀ e s, tr.sessionOpen (tr.stop e s).next = false
  whole_stateless : ∀ e s s' samples rate,
    tr.sessionOpen s = false → tr.sessionOpen s' = false →
    (tr.transcribeWithoutStreaming e s samples rate).1.raised =
        (tr.transcribeWithoutStreaming e s' samples rate).1.raised ∧
      (tr.transcribeWithoutStreaming e s samples rate).2 =
        (tr.transcribeWithoutStreaming e s' samples rate).2
  whole_session : ∀ e s samples rate, tr.sessionOpen s = false →
    tr.sessionOpen (tr.transcribeWithoutStreaming e s samples rate).1.next = false

inductive Call
  | removeAllListeners | addListener | start | addAudio | stop | transcribeWithoutStreaming
deriving DecidableEq

/-- The worker's transcriber, every collector made for it, and the calls it took, each with
whether a session was open before it. -/
structure Worker (τ : Type) where
  transcriber : τ
  collectors : List Collector := []
  calls : List (Call × Bool) := []

/-- Every registered listener hears every event reported. -/
def deliver (ratio : ℚ) (listeners : List ℕ) (reported : List LineEvent)
    (collectors : List Collector) : List Collector :=
  listeners.foldl (fun cs id => cs.modify id fun c => reported.foldl (Collector.hear ratio) c)
    collectors

variable {τ ε δ : Type} (cfg : STTWorkerConfig) (tr : SharedTranscriber τ ε)

/-- One call has been answered. -/
def Worker.after (w : Worker τ) (call : Call) (answer : Answer τ) : Worker τ :=
  { transcriber := answer.next
    collectors :=
      deliver cfg.repetitiveRatio (tr.listeners w.transcriber) answer.reported w.collectors
    calls := w.calls ++ [(call, tr.sessionOpen w.transcriber)] }

/-- `_transcribe` up to the session: a new collector, the only one registered. -/
def register (w : Worker τ) : Worker τ :=
  let made := { w with collectors := w.collectors ++ [({} : Collector)] }
  let removed := made.after cfg tr .removeAllListeners
    ⟨false, [], tr.removeAllListeners made.transcriber⟩
  removed.after cfg tr .addListener
    ⟨false, [], tr.addListener removed.transcriber w.collectors.length⟩

/-- The body of the `try`: whether it raised. -/
def feed (e : ε) (w : Worker τ) (audio : List UInt8) : Bool × Worker τ :=
  match pcmToFloat audio with
  | none => (true, w)
  | some samples =>
    let answer := tr.addAudio e w.transcriber samples cfg.sampleRate
    (answer.raised, w.after cfg tr .addAudio answer)

def transcribe (e : ε) (w : Worker τ) (audio : List UInt8) : Option Str × Worker τ :=
  let registered := register cfg tr w
  let start := tr.start e registered.transcriber
  let started := registered.after cfg tr .start start
  if start.raised then (none, started)
  else
    let fed := feed cfg tr e started audio
    let stop := tr.stop e fed.2.transcriber
    let stopped := fed.2.after cfg tr .stop stop
    if fed.1 || stop.raised then (none, stopped)
    else (some (stopped.collectors.getD w.collectors.length {}).text, stopped)

def transcribePartial (e : ε) (w : Worker τ) (audio : List UInt8) : Option Str × Worker τ :=
  match pcmToFloat audio with
  | none => (none, w)
  | some samples =>
    let transcript := tr.transcribeWithoutStreaming e w.transcriber samples cfg.sampleRate
    let done := w.after cfg tr .transcribeWithoutStreaming transcript.1
    if transcript.1.raised then (none, done)
    else
      let text := strip (joinWords (transcript.2.filter (· ≠ [])))
      (some (if isRepetitive text cfg.repetitiveRatio then [] else text), done)

def decode (e : ε) (w : Worker τ) (segment : SpeechSegment) : Option Str × Worker τ :=
  if segment.isPartial then transcribePartial cfg tr e w segment.audio
  else transcribe cfg tr e w segment.audio

def published (segment : SpeechSegment) (text : Option Str) : List TranscriptEvent :=
  (text.filter (· ≠ [])).toList.map fun text =>
    { channelId := segment.channelId, segmentId := segment.segmentId, text := text,
      start := segment.start, endTs := segment.endTs, isFinal := !segment.isPartial }

/-- One dequeued segment: what it publishes is one entry, empty when there is no event. -/
def handleSegment (w : Worker τ) (input : Turn × ε) : Worker τ × List (List TranscriptEvent) :=
  if sheds cfg input.1 then (w, [[]])
  else
    let decoded := decode cfg tr input.2 w input.1.segment
    (decoded.2, [published input.1.segment decoded.1])

/-- A worker whose transcriber is new, with nothing else queued, handles one segment. -/
def alone (fresh : τ) (input : Turn × ε) : List TranscriptEvent :=
  (handleSegment cfg tr { transcriber := fresh }
    ({ segment := input.1.segment }, input.2)).2.flatten

/-- What a call needs if a session may be open. -/
def Permitted (call : Call × Bool) : Prop :=
  call.2 = true → call.1 = .addAudio ∨ call.1 = .stop

/-- No session is left open, and no call but `add_audio` and `stop` came into an open one. -/
structure Orderly (w : Worker τ) : Prop where
  closed : tr.sessionOpen w.transcriber = false
  permitted : ∀ call ∈ w.calls, Permitted call

/-- The transcriber as one turn sees it, whose collector is named `id`. -/
def asMachine (e : ε) (id : ℕ) : Transcriber τ where
  removeAllListeners := fun s => (false, tr.removeAllListeners s)
  addListener := fun s => (false, tr.addListener s id)
  start := tr.start e
  addAudio := tr.addAudio e
  stop := tr.stop e
  transcribeWithoutStreaming := fun s samples rate =>
    let transcript := tr.transcribeWithoutStreaming e s samples rate
    (if transcript.1.raised then none else some transcript.2, transcript.1.next)

@[simp] theorem deliver_silent (ratio : ℚ) (listeners : List ℕ) (collectors : List Collector) :
    deliver ratio listeners [] collectors = collectors := by
  induction listeners generalizing collectors with
  | nil => rfl
  | cons id listeners ih =>
    have unheard : collectors.modify id (fun c => c) = collectors := List.modify_id id collectors
    simp only [deliver, List.foldl_cons, List.foldl_nil] at ih ⊢
    rw [unheard, ih]

section Calls

variable (w : Worker τ) (call : Call) (answer : Answer τ)

@[simp] theorem after_transcriber : (w.after cfg tr call answer).transcriber = answer.next := rfl

@[simp] theorem after_calls :
    (w.after cfg tr call answer).calls = w.calls ++ [(call, tr.sessionOpen w.transcriber)] := rfl

/-- A call adds itself to the calls that were permitted. -/
theorem after_permitted (before : ∀ c ∈ w.calls, Permitted c)
    (now : Permitted (call, tr.sessionOpen w.transcriber)) :
    ∀ c ∈ (w.after cfg tr call answer).calls, Permitted c := by
  intro c member
  rw [after_calls] at member
  rcases List.mem_append.mp member with earlier | last
  · exact before c earlier
  · rw [List.mem_singleton.mp last]
    exact now

/-- The only registered collector is `id`, and `c` is what it has come to. -/
structure Listening (tr : SharedTranscriber τ ε) (w : Worker τ) (id : ℕ) (c : Collector) :
    Prop where
  only : tr.listeners w.transcriber = [id]
  there : w.collectors[id]? = some c

variable {tr w}

/-- It hears what a call reports. -/
theorem Listening.hears {id : ℕ} {c : Collector} (listening : Listening tr w id c) :
    (w.after cfg tr call answer).collectors[id]? =
      some (answer.reported.foldl (Collector.hear cfg.repetitiveRatio) c) := by
  simp [Worker.after, listening.only, deliver, listening.there]

theorem Listening.after {id : ℕ} {c : Collector} (listening : Listening tr w id c)
    (kept : tr.listeners answer.next = tr.listeners w.transcriber) :
    Listening tr (w.after cfg tr call answer) id
      (answer.reported.foldl (Collector.hear cfg.repetitiveRatio) c) where
  only := kept.trans listening.only
  there := listening.hears cfg call answer

variable (w)

theorem register_collectors :
    (register cfg tr w).collectors = w.collectors ++ [({} : Collector)] := by
  simp [register, Worker.after]

end Calls

theorem transcribePartial_refines (e : ε) (w : Worker τ) (audio : List UInt8) (id : ℕ) :
    ((transcribePartial cfg tr e w audio).1, (transcribePartial cfg tr e w audio).2.transcriber) =
      SttWorker.transcribePartial cfg (asMachine tr e id) w.transcriber audio := by
  unfold transcribePartial SttWorker.transcribePartial
  cases pcmToFloat audio with
  | none => rfl
  | some samples =>
    simp only [asMachine]
    split
    · rfl
    · rfl

variable {tr}

section Session

variable {decoder : τ → δ} (doc : Documented tr decoder) (e : ε) (w : Worker τ)
  (audio : List UInt8)
include doc

theorem register_listening :
    Listening tr (register cfg tr w) w.collectors.length {} where
  only := by simp [register, doc.add_registers, doc.remove_clears]
  there := by rw [register_collectors, List.getElem?_concat_length]

theorem register_session :
    tr.sessionOpen (register cfg tr w).transcriber = tr.sessionOpen w.transcriber := by
  simp [register, doc.add_session, doc.remove_session]

/-- The worker and its machine say the same, and leave the same transcriber. -/
theorem transcribe_refines :
    ((transcribe cfg tr e w audio).1, (transcribe cfg tr e w audio).2.transcriber) =
      SttWorker.transcribe cfg (asMachine tr e w.collectors.length) w.transcriber audio := by
  have registered : tr.addListener (tr.removeAllListeners w.transcriber) w.collectors.length =
      (register cfg tr w).transcriber := rfl
  have listening := register_listening cfg doc w
  unfold transcribe SttWorker.transcribe feed
  simp only [asMachine, Bool.false_eq_true, if_false, registered]
  generalize register cfg tr w = opened at listening
  by_cases refused : (tr.start e opened.transcriber).raised = true
  · simp [refused]
  rw [if_neg refused, if_neg refused]
  have begun := listening.after cfg .start (tr.start e opened.transcriber)
    (doc.start_listeners e _)
  cases pcmToFloat audio with
  | none => simp
  | some samples =>
    have fed := begun.after cfg .addAudio
      (tr.addAudio e (tr.start e opened.transcriber).next samples cfg.sampleRate)
      (doc.addAudio_listeners e _ samples cfg.sampleRate)
    have ended := fed.hears cfg .stop (tr.stop e
      (tr.addAudio e (tr.start e opened.transcriber).next samples cfg.sampleRate).next)
    simp only [after_transcriber, List.getD_eq_getElem?_getD, ended, Option.getD_some,
      List.foldl_append]
    split
    · rfl
    · rfl

/-- The text of a session does not depend on what the transcriber was left as. -/
theorem transcribe_alike {s s' : τ} (closed : tr.sessionOpen s = false)
    (closed' : tr.sessionOpen s' = false) (id id' : ℕ) :
    (SttWorker.transcribe cfg (asMachine tr e id) s audio).1 =
      (SttWorker.transcribe cfg (asMachine tr e id') s' audio).1 := by
  have ready : tr.sessionOpen (tr.addListener (tr.removeAllListeners s) id) = false := by
    rw [doc.add_session, doc.remove_session, closed]
  have ready' : tr.sessionOpen (tr.addListener (tr.removeAllListeners s') id') = false := by
    rw [doc.add_session, doc.remove_session, closed']
  obtain ⟨opening, begun⟩ := doc.start_resets e _ _ ready ready'
  simp only [SttWorker.transcribe, asMachine, Bool.false_eq_true, if_false,
    doc.start_succeeds e _ ready, doc.start_succeeds e _ ready', opening]
  cases pcmToFloat audio with
  | none => simp
  | some samples =>
    obtain ⟨raised, fed, decoded⟩ := doc.addAudio_decodes e _ _ samples cfg.sampleRate begun
    obtain ⟨stopRaised, flushed⟩ := doc.stop_decodes e _ _ decoded
    simp only [raised, fed, stopRaised, flushed]
    split
    · rename_i failed
      simp only [failed, ↓reduceIte]
    · rename_i fine
      rw [Bool.not_eq_true] at fine
      simp only [fine, Bool.false_eq_true, ↓reduceIte]

theorem transcribePartial_alike {s s' : τ} (closed : tr.sessionOpen s = false)
    (closed' : tr.sessionOpen s' = false) (id id' : ℕ) :
    (SttWorker.transcribePartial cfg (asMachine tr e id) s audio).1 =
      (SttWorker.transcribePartial cfg (asMachine tr e id') s' audio).1 := by
  unfold SttWorker.transcribePartial
  cases pcmToFloat audio with
  | none => rfl
  | some samples =>
    obtain ⟨raised, lines⟩ :=
      doc.whole_stateless e s s' samples cfg.sampleRate closed closed'
    simp only [asMachine, raised, lines]

end Session

section Turns

variable {decoder : τ → δ} (doc : Documented tr decoder) (e : ε) {w : Worker τ}
  (audio : List UInt8)
include doc

theorem register_orderly (orderly : Orderly tr w) : Orderly tr (register cfg tr w) := by
  have idle := orderly.closed
  refine ⟨by rw [register_session cfg doc, idle], ?_⟩
  unfold register
  refine after_permitted cfg tr _ _ _ (after_permitted cfg tr _ _ _ orderly.permitted ?_) ?_
  · simp [Permitted, idle]
  · simp [Permitted, doc.remove_session, idle]

/-- A session is closed whatever raised in it. -/
theorem transcribe_orderly (orderly : Orderly tr w) :
    Orderly tr (transcribe cfg tr e w audio).2 := by
  have ready := register_orderly cfg doc orderly
  have begun := after_permitted cfg tr (register cfg tr w) .start
    (tr.start e (register cfg tr w).transcriber) ready.permitted (by simp [Permitted, ready.closed])
  have fed : ∀ c ∈ (feed cfg tr e ((register cfg tr w).after cfg tr .start
      (tr.start e (register cfg tr w).transcriber)) audio).2.calls, Permitted c := by
    unfold feed
    cases pcmToFloat audio with
    | none => exact begun
    | some samples => exact after_permitted cfg tr _ _ _ begun (by simp [Permitted])
  unfold transcribe
  simp only [doc.start_succeeds e _ ready.closed, Bool.false_eq_true, if_false]
  split
  · exact ⟨doc.stop_closes e _, after_permitted cfg tr _ _ _ fed (by simp [Permitted])⟩
  · exact ⟨doc.stop_closes e _, after_permitted cfg tr _ _ _ fed (by simp [Permitted])⟩

theorem transcribePartial_orderly (orderly : Orderly tr w) :
    Orderly tr (transcribePartial cfg tr e w audio).2 := by
  unfold transcribePartial
  cases pcmToFloat audio with
  | none => exact orderly
  | some samples =>
    have done : Orderly tr (w.after cfg tr .transcribeWithoutStreaming
        (tr.transcribeWithoutStreaming e w.transcriber samples cfg.sampleRate).1) :=
      ⟨doc.whole_session e _ samples cfg.sampleRate orderly.closed,
        after_permitted cfg tr _ _ _ orderly.permitted (by simp [Permitted, orderly.closed])⟩
    simp only
    split
    · exact done
    · exact done

theorem decode_orderly (segment : SpeechSegment) (orderly : Orderly tr w) :
    Orderly tr (decode cfg tr e w segment).2 := by
  unfold decode
  split
  · exact transcribePartial_orderly cfg doc e segment.audio orderly
  · exact transcribe_orderly cfg doc e segment.audio orderly

theorem decode_alike (w' : Worker τ) (segment : SpeechSegment)
    (closed : tr.sessionOpen w.transcriber = false)
    (closed' : tr.sessionOpen w'.transcriber = false) :
    (decode cfg tr e w segment).1 = (decode cfg tr e w' segment).1 := by
  unfold decode
  split
  · have left := congrArg Prod.fst (transcribePartial_refines cfg tr e w segment.audio 0)
    have right := congrArg Prod.fst (transcribePartial_refines cfg tr e w' segment.audio 0)
    exact left.trans ((transcribePartial_alike cfg doc e segment.audio closed closed' 0 0).trans
      right.symm)
  · have left := congrArg Prod.fst (transcribe_refines cfg doc e w segment.audio)
    have right := congrArg Prod.fst (transcribe_refines cfg doc e w' segment.audio)
    exact left.trans ((transcribe_alike cfg doc e segment.audio closed closed' _ _).trans
      right.symm)

theorem decode_refines (turn : Turn) :
    ((decode cfg tr e w turn.segment).1, (decode cfg tr e w turn.segment).2.transcriber) =
      if turn.segment.isPartial then
        SttWorker.transcribePartial cfg (asMachine tr e w.collectors.length) w.transcriber
          turn.segment.audio
      else SttWorker.transcribe cfg (asMachine tr e w.collectors.length) w.transcriber
        turn.segment.audio := by
  unfold decode
  split
  · exact transcribePartial_refines cfg tr e w turn.segment.audio _
  · exact transcribe_refines cfg doc e w turn.segment.audio

/-- A turn is the turn of the model in which every session has its own listener. -/
theorem handleSegment_refines (input : Turn × ε) (state : SttState τ)
    (same : state.transcriber = w.transcriber) :
    (handleSegment cfg tr w input).2 =
        [(sttStep cfg (asMachine tr input.2 w.collectors.length) state input.1).2] ∧
      (handleSegment cfg tr w input).1.transcriber =
        (sttStep cfg (asMachine tr input.2 w.collectors.length) state input.1).1.transcriber := by
  have decoded := decode_refines cfg doc input.2 (w := w) input.1
  unfold handleSegment sttStep SttWorker.handleSegment handlePartial sheds
  by_cases throwaway : input.1.segment.isPartial = true
  · by_cases late : cfg.partialMaxQueueDepth < input.1.queueSize
    · simp [throwaway, late, same]
    · rw [if_pos throwaway] at decoded
      simp only [throwaway, late, same, ← decoded]
      cases (decode cfg tr input.2 w input.1.segment).1 with
      | none => simp [published]
      | some text =>
        by_cases blank : text = []
        · simp [published, blank]
        · simp [published, blank, throwaway]
  · rw [if_neg throwaway] at decoded
    simp only [throwaway, same, ← decoded]
    cases (decode cfg tr input.2 w input.1.segment).1 with
    | none => simp [published]
    | some text =>
      by_cases blank : text = []
      · simp [published, blank]
      · simp [published, blank, throwaway]

/-- A segment that is not shed is handled as by a worker with a new transcriber. -/
theorem handleSegment_alone (fresh : τ) (unused : tr.sessionOpen fresh = false)
    (orderly : Orderly tr w) (input : Turn × ε) :
    Orderly tr (handleSegment cfg tr w input).1 ∧
      (handleSegment cfg tr w input).2 =
        [if sheds cfg input.1 then [] else alone cfg tr fresh input] := by
  unfold handleSegment
  by_cases late : sheds cfg input.1 = true
  · rw [if_pos late, if_pos late]
    exact ⟨orderly, rfl⟩
  · have early : sheds cfg { segment := input.1.segment } = false := by
      simp only [sheds, Bool.and_eq_true, decide_eq_true_eq, not_and, not_lt] at late
      simp only [sheds, Bool.and_eq_false_iff, decide_eq_false_iff_not, not_lt]
      by_cases throwaway : input.1.segment.isPartial = true
      · have room := late throwaway
        right
        push_cast
        omega
      · exact Or.inl (by simpa using throwaway)
    rw [if_neg late, if_neg late]
    refine ⟨decode_orderly cfg doc input.2 input.1.segment orderly, ?_⟩
    have same := decode_alike cfg doc input.2 { transcriber := fresh } input.1.segment
      orderly.closed unused
    simp [alone, handleSegment, early, same]

/-- Sessions leave nothing behind that a later segment's text could depend on. -/
theorem history_independent (s fresh : τ) (closed : tr.sessionOpen s = false)
    (unused : tr.sessionOpen fresh = false) (inputs : List (Turn × ε)) :
    Orderly tr (outputs (handleSegment cfg tr) { transcriber := s } inputs).1 ∧
      (outputs (handleSegment cfg tr) { transcriber := s } inputs).2 =
        inputs.map fun input =>
          if sheds cfg input.1 then [] else alone cfg tr fresh input := by
  have start : Orderly tr { transcriber := s } := ⟨closed, by simp⟩
  generalize ({ transcriber := s } : Worker τ) = w at start ⊢
  induction inputs generalizing w with
  | nil => exact ⟨start, rfl⟩
  | cons input inputs ih =>
    obtain ⟨orderly, now⟩ := handleSegment_alone cfg doc fresh unused start input
    obtain ⟨ends, later⟩ := ih _ orderly
    rw [outputs_cons, List.map_cons]
    exact ⟨ends, by rw [now, later, List.singleton_append]⟩

end Turns

/-- A decoder that keeps the audio of its session, and says one word of it. -/
structure OneWord where
  isOpen : Bool := false
  listeners : List ℕ := []
  heard : List ℚ := []

def oneWord : SharedTranscriber OneWord (Option Call) where
  sessionOpen := OneWord.isOpen
  listeners := OneWord.listeners
  removeAllListeners := fun s => { s with listeners := [] }
  addListener := fun s id => { s with listeners := s.listeners ++ [id] }
  start := fun _ s => ⟨false, [], { s with isOpen := true, heard := [] }⟩
  addAudio := fun e s samples _ =>
    ⟨e = some .addAudio, [.textChanged ['h']], { s with heard := s.heard ++ samples }⟩
  stop := fun e s =>
    ⟨e = some .stop, if s.heard = [] then [] else [.completed ['h', 'i']],
      { s with isOpen := false }⟩
  transcribeWithoutStreaming := fun e s samples _ =>
    (⟨e = some .transcribeWithoutStreaming, [.textChanged ['l', 'o']], s⟩,
      if samples = [] then [] else [['h', 'm']])

theorem oneWord_documented : Documented oneWord OneWord.heard where
  remove_clears _ := rfl
  remove_session _ := rfl
  add_registers _ _ := rfl
  add_session _ _ := rfl
  start_succeeds _ _ _ := rfl
  start_resets _ _ _ _ _ := ⟨rfl, rfl⟩
  start_listeners _ _ := rfl
  addAudio_decodes _ _ _ _ _ same := ⟨rfl, rfl, by simp [oneWord, same]⟩
  addAudio_listeners _ _ _ _ := rfl
  stop_decodes _ _ _ same := ⟨rfl, by simp [oneWord, same]⟩
  stop_closes _ _ := rfl
  whole_stateless _ _ _ _ _ _ _ := ⟨rfl, rfl⟩
  whole_session _ _ _ _ closed := closed

/-- A segment of the given audio, and the call that raises in it. -/
def spoken (isPartial : Bool) (audio : List UInt8) (raises : Option Call) :
    Turn × Option Call :=
  ({ segment :=
      { channelId := [], segmentId := [], audio := audio, start := 0, endTs := 1,
        isPartial := isPartial } }, raises)

/-- A failed feed, half a sample, a prefix and a failed flush come before the last one. -/
def troubled : List (Turn × Option Call) :=
  [spoken false [1, 0] (some .addAudio), spoken false [1] none, spoken true [1, 0] none,
    spoken false [1, 0] (some .stop), spoken false [1, 0] none]

theorem troubled_independent :
    Orderly oneWord (outputs (handleSegment {} oneWord) { transcriber := {} } troubled).1 ∧
      (outputs (handleSegment {} oneWord) { transcriber := {} } troubled).2 =
        troubled.map fun input => if sheds {} input.1 then [] else alone {} oneWord {} input :=
  history_independent {} oneWord_documented {} {} rfl rfl troubled

example : (outputs (handleSegment {} oneWord) { transcriber := {} } troubled).2.map
    (·.map TranscriptEvent.text) = [[], [], [['h', 'm']], [], [['h', 'i']]] := by
  decide +kernel

end EdgeVoice.SttSession
