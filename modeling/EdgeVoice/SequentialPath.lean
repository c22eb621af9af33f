import EdgeVoice.ChannelIsolation
import EdgeVoice.Framing
import EdgeVoice.LiveTranscripts

/-! The pipeline on its threads against the same stages one after another. Where nothing gives
up and nothing is replaced, each stage has done what its own function does to what it took, and
what it took is what the stage before it gave, so the queues, the other channels and the order of
the threads' turns leave no trace. -/

namespace EdgeVoice.SequentialPath
open PythonText Models ChannelRouter ByteStream VadWorker VadTrack SttWorker SegmentLifecycle
  StepSystem LossyQueue AudioPath SegmentPath ChannelIsolation Framing LiveTranscripts

section Path

variable {σ : Type} {cfg : VADWorkerConfig} {it : VADIterator σ} {r : Repacketizer}
variable {pc : PathConfig} {p p' : Path σ} {e : PathEvent σ} {iterators : Str → σ}

/-- No put for the next stage gives up, nothing is replaced, and stop() was not called. -/
def Lossless (p : Path σ) : PathEvent σ → Prop
  | .message _ gaveUp => gaveUp = false
  | .forward gaveUp => ∀ put ∈ p.routing.head?, put.1 = .dst → gaveUp = false
  | .emit gaveUp => ∀ put ∈ p.putting.head?, put.1 = .dst → gaveUp = false
  | .flush | .restartRouter | .restartVad _ => False
  | _ => True

instance (p : Path σ) : (e : PathEvent σ) → Decidable (Lossless p e)
  | .message _ gaveUp => inferInstanceAs (Decidable (gaveUp = false))
  | .forward gaveUp =>
    inferInstanceAs (Decidable (∀ put ∈ p.routing.head?, put.1 = .dst → gaveUp = false))
  | .emit gaveUp =>
    inferInstanceAs (Decidable (∀ put ∈ p.putting.head?, put.1 = .dst → gaveUp = false))
  | .flush | .restartRouter | .restartVad _ => isFalse id
  | .route | .hear _ | .idleCheck _ | .take _ | .takeDump | .takeSegmentDump => isTrue trivial

/-- The packets of the messages. -/
def packetsOf (channels : List MQTTChannels) (messages : List MQTTMessage) : List AudioPacket :=
  messages.filterMap (onMessage channels)

/-- Each stage has done its function to what it took. -/
structure InStep (cfg : VADWorkerConfig) (it : VADIterator σ) (r : Repacketizer)
    (pc : PathConfig) (iterators : Str → σ) (p : Path σ) : Prop where
  router : ∃ packets, packets ++ p.ingest = packetsOf pc.channels p.received ∧
    outputs (routePacket r pc.keys.val) (fun _ => {}) packets =
      (p.buffers, p.heard ++ (p.routed ++ owed .dst p.routing))
  worker : ∃ events effects, Reads events p.heard ∧
    outputs (workerStep cfg it pc.keys) (freshChannels it iterators) events =
      (p.channels, effects) ∧
    ∀ c, spoken p c = puts (effectsOn c effects)

theorem InStep.start : InStep cfg it r pc iterators { channels := freshChannels it iterators } :=
  ⟨⟨[], rfl, rfl⟩, [], [], ⟨rfl, by simp⟩, rfl, fun _ => rfl⟩

theorem outputs_concat {S I O : Type*} {step : S → I → S × List O} {s t : S} {is : List I}
    {os : List O} (h : outputs step s is = (t, os)) (i : I) :
    outputs step s (is ++ [i]) = ((step t i).1, os ++ (step t i).2) := by
  rw [outputs_append, h, outputs_cons, outputs_nil, List.append_nil]

/-- A turn of the VADWorker. -/
theorem InStep.turn (h : InStep cfg it r pc iterators p) (idle : p.putting = [])
    {event : VadEvent} {routed heard : List AudioPacket}
    (same : heard ++ routed = p.heard ++ p.routed)
    (reads : ∀ events, Reads events p.heard → Reads (events ++ [event]) heard) :
    InStep cfg it r pc iterators ({ p with routed, heard }.turn cfg it pc event) := by
  obtain ⟨⟨packets, came, ran⟩, events, effects, read, worked, all⟩ := h
  refine ⟨⟨packets, came, ?_⟩, events ++ [event], _, reads events read, outputs_concat worked event,
    fun c => ?_⟩
  · rw [ran]
    simp only [Path.turn]
    rw [← List.append_assoc, ← same, List.append_assoc]
  · have before := all c
    rw [spoken, idle, owed_nil, segmentsOn_nil, List.append_nil] at before
    simp only [spoken, Path.turn, segmentsOn_effects]
    rw [effectsOn_append, puts_append, ← before, List.append_assoc]

theorem InStep.step (h : InStep cfg it r pc iterators p) (lossless : Lossless p e)
    (step : pathStep cfg it r pc p e = some p') : InStep cfg it r pc iterators p' := by
  obtain ⟨⟨packets, came, ran⟩, events, effects, read, worked, all⟩ := h
  cases pathStep_cases step with
  | ignored msg gaveUp empty =>
    refine ⟨⟨packets, ?_, ran⟩, events, effects, read, worked, all⟩
    rw [came, packetsOf, packetsOf, List.filterMap_append]
    simp [empty]
  | arrived msg gaveUp packet found ingest put =>
    obtain rfl := lossless
    rcases offer_cases put with ⟨rfl, _⟩ | ⟨_, full⟩
    · refine ⟨⟨packets, ?_, ran⟩, events, effects, read, worked, all⟩
      rw [← List.append_assoc, came, packetsOf, packetsOf, List.filterMap_append]
      simp [found]
    · simp [offer, full] at put
  | routed packet ingest idle next =>
    refine ⟨⟨packets ++ [packet], ?_, ?_⟩, events, effects, read, worked, all⟩
    · rw [← came, next, List.append_assoc, List.singleton_append]
    · rw [outputs_concat ran packet, idle, owed_nil, List.append_nil]
      simp only [(owed_fanoutPut pc.dumping _).1, List.append_assoc]
  | forwarded gaveUp frame routing next routed put =>
    obtain rfl := lossless (.dst, frame) (by simp [next]) rfl
    rcases offer_cases put with ⟨rfl, _⟩ | ⟨_, full⟩
    · refine ⟨⟨packets, came, ?_⟩, events, effects, read, worked, all⟩
      rw [ran, next, owed_cons, if_pos rfl, List.append_assoc]
    · simp [offer, full] at put
  | copied gaveUp frame routing next dump put =>
    refine ⟨⟨packets, came, ?_⟩, events, effects, read, worked, all⟩
    rw [ran, next, owed_cons, if_neg (by simp), List.nil_append]
  | heard now frame routed idle next =>
    refine InStep.turn ⟨⟨packets, came, ran⟩, events, effects, read, worked, all⟩ idle ?_
      fun events read => ⟨?_, ?_⟩
    · rw [next, List.append_assoc, List.singleton_append]
    · rw [List.filterMap_append, read.packets]
      rfl
    · simpa using read.running
  | checked now idle =>
    refine InStep.turn ⟨⟨packets, came, ran⟩, events, effects, read, worked, all⟩ idle rfl
      fun events read => ⟨?_, ?_⟩
    · rw [List.filterMap_append, read.packets]
      exact List.append_nil _
    · simpa using read.running
  | emitted gaveUp d segment putting next queue put =>
    obtain rfl := lossless (.dst, d, segment) (by simp [next]) rfl
    rcases offer_cases put with ⟨rfl, _⟩ | ⟨_, full⟩
    · refine ⟨⟨packets, came, ran⟩, events, effects, read, worked, fun c => ?_⟩
      rw [← all c, spoken_emitted next]
    · simp [offer, full] at put
  | emittedCopy gaveUp d segment putting next segmentDump put =>
    refine ⟨⟨packets, came, ran⟩, events, effects, read, worked, fun c => ?_⟩
    rw [← all c, spoken_copied next]
  | took d segment queue next =>
    refine ⟨⟨packets, came, ran⟩, events, effects, read, worked, fun c => ?_⟩
    rw [← all c, spoken_took next]
  | tookDump | tookSegmentDump =>
    exact ⟨⟨packets, came, ran⟩, events, effects, read, worked, all⟩
  | flushed | restartedRouter | restartedVad => cases lossless

/-- A channel's frames, from its own packets alone. -/
def framesFrom (r : Repacketizer) (packets : List AudioPacket) : List AudioPacket :=
  (outputs (feed r) {} packets).2

/-- A channel's segments, from its own frames alone. -/
def segmentsFrom (cfg : VADWorkerConfig) (it : VADIterator σ) (iterators : Str → σ) (c : Str)
    (frames : List AudioPacket) : List SpeechSegment :=
  puts (outputs (channelStep cfg it c) (freshChannels it iterators c)
    (frames.map fun frame => .packet frame 0)).2

theorem framesFrom_mono {packets packets' : List AudioPacket} (early : packets <+: packets') :
    framesFrom r packets <+: framesFrom r packets' :=
  outputs_mono early _

theorem segmentsFrom_mono {c : Str} {frames frames' : List AudioPacket}
    (early : frames <+: frames') :
    segmentsFrom cfg it iterators c frames <+: segmentsFrom cfg it iterators c frames' :=
  (outputs_mono (early.map _) _).filterMap _

/-- Nothing of the channel is on its way to the VADWorker. -/
def Drained (p : Path σ) (c : Str) : Prop :=
  onChannel c p.ingest = [] ∧ onChannel c (owed .dst p.routing) = [] ∧ onChannel c p.routed = []

instance (p : Path σ) (c : Str) : Decidable (Drained p c) :=
  inferInstanceAs (Decidable (_ ∧ _ ∧ _))

theorem InStep.segments (h : InStep cfg it r pc iterators p) (never : cfg.idleFlushS ≤ 0) {c : Str}
    (known : c ∈ pc.keys.val) :
    spoken p c <+: segmentsFrom cfg it iterators c
        (framesFrom r (onChannel c (packetsOf pc.channels p.received))) ∧
      (Drained p c → spoken p c = segmentsFrom cfg it iterators c
        (framesFrom r (onChannel c (packetsOf pc.channels p.received)))) := by
  obtain ⟨⟨packets, came, ran⟩, events, effects, read, worked, all⟩ := h
  have frames : framesFrom r (onChannel c packets) = onChannel c p.heard ++
      (onChannel c p.routed ++ onChannel c (owed .dst p.routing)) := by
    have seen := @routed_channel r pc.keys.val c known packets
    rw [ChannelIsolation.routed, ran] at seen
    rw [framesFrom, ← seen, onChannel_append, onChannel_append]
  have split : onChannel c packets ++ onChannel c p.ingest =
      onChannel c (packetsOf pc.channels p.received) := by
    rw [← onChannel_append, came]
  have made : spoken p c = segmentsFrom cfg it iterators c (onChannel c p.heard) := by
    have queue := segmentQueue_timeless cfg it never pc.keys iterators known read [] (Or.inl rfl)
    rw [List.append_nil, List.append_nil, worked] at queue
    rw [all c, segmentsFrom, ← queue]
    rfl
  constructor
  · rw [made]
    refine segmentsFrom_mono (List.IsPrefix.trans ?_ (framesFrom_mono
      (split ▸ List.prefix_append (onChannel c packets) (onChannel c p.ingest))))
    rw [frames]
    exact List.prefix_append _ _
  · rintro ⟨ingest, routing, routed⟩
    rw [ingest, List.append_nil] at split
    rw [routed, routing, List.append_nil, List.append_nil, split] at frames
    rw [made, frames]

theorem run_in_step {events : List (PathEvent σ)}
    (lossless : Along (pathStep cfg it r pc) Lossless
      { channels := freshChannels it iterators } events)
    (reached : run (pathStep cfg it r pc) { channels := freshChannels it iterators } events =
      some p) : InStep cfg it r pc iterators p :=
  run_invariant_along (pathStep cfg it r pc) InStep.start
    (fun _ _ _ before lossless step => before.step lossless step) lossless reached

/-- On its threads, in any interleaving with any other channels, the path makes the segments the
stages make one after another of the channel's own messages: it has put a part of them from the
first on, and all of them once nothing of the channel is on its way. -/
theorem path_is_sequential (never : cfg.idleFlushS ≤ 0) {c : Str} (known : c ∈ pc.keys.val)
    {events : List (PathEvent σ)}
    (lossless : Along (pathStep cfg it r pc) Lossless
      { channels := freshChannels it iterators } events)
    (reached : run (pathStep cfg it r pc) { channels := freshChannels it iterators } events =
      some p) :
    spoken p c <+: segmentsFrom cfg it iterators c
        (framesFrom r (onChannel c (packetsOf pc.channels p.received))) ∧
      (Drained p c → spoken p c = segmentsFrom cfg it iterators c
        (framesFrom r (onChannel c (packetsOf pc.channels p.received)))) :=
  (run_in_step lossless reached).segments never known

/-- A sample of speech and one of silence, with a drop of a debug copy and two messages that
are no one's. -/
def wordPassed : List (PathEvent Bool) :=
  [.message ⟨['a', '/', 'r'], [1, 0], 0⟩ false, .route, .message ⟨['b', '/', 'x'], [1, 0], 0⟩ false,
    .forward false, .forward false, .idleCheck 1, .hear 7, .route,
    .message ⟨['a', '/', 'r'], [0, 0], 1⟩ false, .route, .forward false, .forward true, .hear 8,
    .emit false, .take ['r']]

theorem wordPassed_sequential :
    ∃ p, run (pathStep unflushed levelIterator ⟨2, 2, 1, Nat.two_pos⟩ onePlace)
        { channels := freshChannels levelIterator fun _ => false } wordPassed = some p ∧
      (p.taken ['r']).map SpeechSegment.audio = [[1, 0, 0, 0]] ∧
      spoken p ['r'] = segmentsFrom unflushed levelIterator (fun _ => false) ['r']
        (framesFrom ⟨2, 2, 1, Nat.two_pos⟩ [⟨['r'], 0, [1, 0]⟩, ⟨['r'], 1, [0, 0]⟩]) := by
  have ends : ((run (pathStep unflushed levelIterator ⟨2, 2, 1, Nat.two_pos⟩ onePlace)
      { channels := freshChannels levelIterator fun _ => false } wordPassed).map fun p =>
        ((p.taken ['r']).map SpeechSegment.audio, decide (Drained p ['r']),
          onChannel ['r'] (packetsOf onePlace.channels p.received))) =
        some ([[1, 0, 0, 0]], true, [⟨['r'], 0, [1, 0]⟩, ⟨['r'], 1, [0, 0]⟩]) := by
    decide +kernel
  obtain ⟨p, reached, facts⟩ := Option.map_eq_some_iff.mp ends
  simp only [Prod.mk.injEq, decide_eq_true_eq] at facts
  obtain ⟨audio, drained, packets⟩ := facts
  have sequential := (path_is_sequential (by decide) (by decide) (by decide +kernel) reached).2
    drained
  exact ⟨p, reached, audio, packets ▸ sequential⟩

end Path

section Pipeline

variable {σ τ : Type} {o : Orchestrator σ τ} {s s' : Live σ τ} {e : LiveEvent σ τ}
variable {iterators : Str → σ} {transcribers : Str → τ} {labels : List (LiveEvent σ τ)}

/-- Nothing is lost for good, and no STT worker is replaced. -/
def Unharmed (s : Live σ τ) : LiveEvent σ τ → Prop
  | .path e => Lossless s.path e
  | .lose _ _ | .restartStt _ _ => False
  | _ => True

instance (s : Live σ τ) : (e : LiveEvent σ τ) → Decidable (Unharmed s e)
  | .path e => inferInstanceAs (Decidable (Lossless s.path e))
  | .lose _ _ | .restartStt _ _ => isFalse id
  | .decode _ _ | .publish _ _ | .console _ => isTrue trivial

/-- Each STT worker has done its function to the segments it took. -/
structure Together (o : Orchestrator σ τ) (iterators : Str → σ) (transcribers : Str → τ)
    (s : Live σ τ) : Prop where
  faithful : Faithful o s
  path : InStep o.vad o.iterator o.repacketizer o.path iterators s.path
  worked : ∀ c, ∃ turns, turns.map Turn.segment = s.path.taken c ∧
    outputs (sttStep o.stt o.transcriber) { transcriber := transcribers c } turns =
      (s.stt c, transcripts s c)

theorem Together.start : Together o iterators transcribers (o.start iterators transcribers) :=
  ⟨Faithful.start iterators transcribers, InStep.start, fun _ => ⟨[], rfl, rfl⟩⟩

theorem Together.step (h : Together o iterators transcribers s) (unharmed : Unharmed s e)
    (step : o.step s e = some s') : Together o iterators transcribers s' := by
  refine ⟨h.faithful.step step, ?_, fun d => ?_⟩
  · cases live_cases step with
    | heard e path other moved => exact h.path.step unharmed moved
    | decoded c turn path moved => exact h.path.step (e := .take c) trivial moved
    | published | lost | restarted | consoled => exact h.path
  · obtain ⟨turns, took, ran⟩ := h.worked d
    cases said_cases h.faithful step with
    | decoded c turn took' worked more =>
      rw [took', worked, more]
      by_cases here : d = c
      · subst here
        refine ⟨turns ++ [turn], ?_, ?_⟩
        · rw [List.map_append, took, if_pos rfl, List.map_singleton]
        · rw [outputs_concat ran turn, if_pos rfl, Function.update_self]
      · rw [if_neg here, if_neg here, Function.update_of_ne here]
        exact ⟨turns, took, ran⟩
    | moved took' worked same => exact ⟨turns, took.trans (took' ▸ rfl), by rw [ran, worked, same]⟩
    | lost | restarted => cases unharmed

theorem run_together
    (unharmed : Along o.step Unharmed (o.start iterators transcribers) labels)
    (reached : run o.step (o.start iterators transcribers) labels = some s) :
    Together o iterators transcribers s :=
  run_invariant_along o.step Together.start
    (fun _ _ _ before unharmed step => before.step unharmed step) unharmed reached

/-- The segments the stages make one after another of what a channel's messages bring. -/
def sequentialSegments (o : Orchestrator σ τ) (iterators : Str → σ) (c : Str)
    (messages : List MQTTMessage) : List SpeechSegment :=
  segmentsFrom o.vad o.iterator iterators c
    (framesFrom o.repacketizer (onChannel c (packetsOf o.path.channels messages)))

theorem Together.sequential (h : Together o iterators transcribers s)
    (never : o.vad.idleFlushS ≤ 0) {c : Str} (known : c ∈ o.path.keys.val) :
    ∃ turns, publishedOn s c ++ s.results c =
        (outputs (sttStep o.stt o.transcriber) { transcriber := transcribers c } turns).2 ∧
      turns.map Turn.segment <+: sequentialSegments o iterators c s.path.received ∧
      (Drained s.path c → s.path.segments c = [] → s.path.putting = [] →
        turns.map Turn.segment = sequentialSegments o iterators c s.path.received) := by
  obtain ⟨turns, took, ran⟩ := h.worked c
  obtain ⟨part, all⟩ := h.path.segments never known
  refine ⟨turns, by rw [ran]; rfl, ?_, fun drained queue hands => ?_⟩
  · rw [took]
    exact (List.prefix_append _ _).trans part
  · have whole := all drained
    rw [spoken, queue, hands, owed_nil, segmentsOn_nil, List.append_nil, List.append_nil] at whole
    rw [took, whole]
    rfl

/-- The pipeline on all its threads and processes is, on each channel, its stages one after
another: the transcripts published, and then those that wait to be, are what the channel's STT
worker makes, in their order, of the first of the segments the channel's own messages make, and
of all of them once nothing is on its way. -/
theorem pipeline_is_sequential (never : o.vad.idleFlushS ≤ 0) {c : Str}
    (known : c ∈ o.path.keys.val)
    (unharmed : Along o.step Unharmed (o.start iterators transcribers) labels)
    (reached : run o.step (o.start iterators transcribers) labels = some s) :
    ∃ turns, publishedOn s c ++ s.results c =
        (outputs (sttStep o.stt o.transcriber) { transcriber := transcribers c } turns).2 ∧
      turns.map Turn.segment <+: segmentsFrom o.vad o.iterator iterators c
        (framesFrom o.repacketizer (onChannel c (packetsOf o.path.channels s.path.received))) ∧
      (Drained s.path c → s.path.segments c = [] → s.path.putting = [] →
        turns.map Turn.segment = segmentsFrom o.vad o.iterator iterators c
          (framesFrom o.repacketizer
            (onChannel c (packetsOf o.path.channels s.path.received)))) :=
  (run_together unharmed reached).sequential never known

def calmOrchestrator : Orchestrator Bool Unit := { smallOrchestrator with vad := unflushed }

theorem wordShown_sequential :
    ∃ s turns, run calmOrchestrator.step (calmOrchestrator.start (fun _ => false) fun _ => ())
        wordShown = some s ∧ (publishedOn s ['r']).map (fun m => m.text) = [['a']] ∧
      publishedOn s ['r'] ++ s.results ['r'] =
        (outputs (sttStep calmOrchestrator.stt oneWord) { transcriber := () } turns).2 ∧
      turns.map Turn.segment = segmentsFrom unflushed levelIterator (fun _ => false) ['r']
        (framesFrom ⟨2, 2, 1 / 1000, Nat.two_pos⟩ [⟨['r'], 1, [1, 0]⟩, ⟨['r'], 2, [0, 0]⟩]) := by
  have ends : ((run calmOrchestrator.step
      (calmOrchestrator.start (fun _ => false) fun _ => ()) wordShown).map fun s =>
        ((publishedOn s ['r']).map (fun m => m.text), decide (Drained s.path ['r']),
          s.path.segments ['r'], decide (s.path.putting = []),
          onChannel ['r'] (packetsOf onePlace.channels s.path.received))) =
        some ([['a']], true, [], true, [⟨['r'], 1, [1, 0]⟩, ⟨['r'], 2, [0, 0]⟩]) := by
    decide +kernel
  obtain ⟨s, reached, facts⟩ := Option.map_eq_some_iff.mp ends
  simp only [Prod.mk.injEq, decide_eq_true_eq] at facts
  obtain ⟨texts, drained, queue, hands, packets⟩ := facts
  have known : ['r'] ∈ calmOrchestrator.path.keys.val := by decide
  obtain ⟨turns, said, _, all⟩ := pipeline_is_sequential (o := calmOrchestrator) (by decide) known
    (by decide +kernel) reached
  exact ⟨s, turns, reached, texts, said, packets ▸ all drained queue hands⟩

end Pipeline

end EdgeVoice.SequentialPath
