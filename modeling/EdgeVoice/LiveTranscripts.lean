import EdgeVoice.SegmentPath
import EdgeVoice.StreamSession

/-! The whole pipeline live: the audio path, the STT workers, the transcripts they hand over to
be published, the hub, the wire, and a console page. Anything may be dropped on the way, and
every worker may be replaced; a replaced worker is taken to have ended, and what it held, or
what its transcript queue held, may be lost. -/

namespace EdgeVoice.LiveTranscripts
open PythonText Models ChannelRouter VadWorker VadTrack SttWorker SegmentLifecycle StepSystem
  AudioPath SegmentPath Broadcast TranscriptHub ConsolePage ConsoleStream TranscriptStream
  StreamSession

structure Orchestrator (σ τ : Type) where
  vad : VADWorkerConfig
  iterator : VADIterator σ
  repacketizer : Repacketizer
  path : PathConfig
  stt : STTWorkerConfig
  transcriber : Transcriber τ
  floats : Floats
  createdAt : Published → ℚ
  maxlen : ℕ

/-- `results` is what a channel's STT worker handed over and is not published yet. -/
structure Live (σ τ : Type) where
  path : Path σ
  stt : Str → SttState τ
  results : Str → List TranscriptEvent := fun _ => []
  console : Wired := {}

/-- `decode` is an STT worker's next segment, and `lose` a transcript that is never published,
or the segment it was of. `restartStt` is of a worker that has ended: a thread that outlives its
join, and may still hand over a transcript, is not looked at. -/
inductive LiveEvent (σ τ : Type)
  | path (e : PathEvent σ)
  | decode (c : Str) (turn : Turn)
  | publish (c : Str) (order : List ℕ)
  | lose (c : Str) (k : ℕ)
  | restartStt (c : Str) (transcriber : τ)
  | console (e : WiredEvent)

variable {σ τ : Type}

namespace Orchestrator

variable (o : Orchestrator σ τ)

def start (iterators : Str → σ) (transcribers : Str → τ) : Live σ τ where
  path := { channels := freshChannels o.iterator iterators }
  stt c := { transcriber := transcribers c }

/-- Each channel's transcripts have one publisher, its STT worker or its receiver thread. -/
def publisher (c : Str) : ℕ := o.path.keys.val.idxOf c

def step (s : Live σ τ) : LiveEvent σ τ → Option (Live σ τ)
  | .path (.take _) => none
  | .path e =>
    (pathStep o.vad o.iterator o.repacketizer o.path s.path e).map fun path => { s with path }
  | .decode c turn =>
    if (s.path.segments c).head? = some turn.segment then
      (pathStep o.vad o.iterator o.repacketizer o.path s.path (.take c)).map fun path =>
        let handled := sttStep o.stt o.transcriber (s.stt c) turn
        { s with
          path
          stt := Function.update s.stt c handled.1
          results := Function.update s.results c (s.results c ++ handled.2) }
    else none
  | .publish c order =>
    match s.results c with
    | [] => none
    | event :: results =>
      (wiredStep o.floats o.createdAt o.maxlen s.console
        (.hub (.publish (o.publisher c) event order))).map fun console =>
          { s with console, results := Function.update s.results c results }
  | .lose c k =>
    some { s with results := Function.update s.results c ((s.results c).eraseIdx k) }
  | .restartStt c transcriber =>
    some { s with stt := Function.update s.stt c { transcriber } }
  | .console (.hub (.publish _ _ _)) => none
  | .console e =>
    (wiredStep o.floats o.createdAt o.maxlen s.console e).map fun console => { s with console }

/-- What an event does on the console's side. -/
def wire (s : Live σ τ) : LiveEvent σ τ → Option WiredEvent
  | .publish c order =>
    (s.results c).head?.map fun event => .hub (.publish (o.publisher c) event order)
  | .console e => some e
  | _ => none

/-- An STT worker's transcript of a segment. -/
def Transcribes (segment : SpeechSegment) (event : TranscriptEvent) : Prop :=
  ∃ state turn, turn.segment = segment ∧ (sttStep o.stt o.transcriber state turn).2 = [event]

/-- Transcripts of segments, in their order; some segments may have none. -/
def Said (segments : List SpeechSegment) (events : List TranscriptEvent) : Prop :=
  ∃ pairs : List (SpeechSegment × TranscriptEvent), pairs.map Prod.snd = events ∧
    (pairs.map Prod.fst).Sublist segments ∧ ∀ pair ∈ pairs, o.Transcribes pair.1 pair.2

end Orchestrator

section Transcripts

variable {o : Orchestrator σ τ} {segments : List SpeechSegment} {events : List TranscriptEvent}

/-- A transcript has all but its text from the segment. -/
theorem Orchestrator.Transcribes.shape {segment : SpeechSegment} {event : TranscriptEvent}
    (h : o.Transcribes segment event) : event =
      { channelId := segment.channelId, segmentId := segment.segmentId, text := event.text,
        start := segment.start, endTs := segment.endTs, isFinal := !segment.isPartial } := by
  obtain ⟨state, turn, rfl, answer⟩ := h
  obtain ⟨text, published⟩ := sttStep_events o.stt o.transcriber state turn
  rw [answer] at published
  cases text with
  | none => simp at published
  | some text =>
    simp only [Option.toList_some, List.map_cons, List.map_nil, List.cons.injEq, and_true]
      at published
    rw [published]

theorem Orchestrator.Said.fewer {events' : List TranscriptEvent} (said : o.Said segments events)
    (less : events'.Sublist events) : o.Said segments events' := by
  obtain ⟨pairs, rfl, order, all⟩ := said
  obtain ⟨kept, inside, rfl⟩ := List.sublist_map_iff.mp less
  exact ⟨kept, rfl, (inside.map _).trans order, fun pair member => all pair (inside.subset member)⟩

/-- A worker handles one more segment. -/
theorem Orchestrator.Said.turn (said : o.Said segments events) (state : SttState τ) (turn : Turn) :
    o.Said (segments ++ [turn.segment]) (events ++ (sttStep o.stt o.transcriber state turn).2) := by
  obtain ⟨pairs, rfl, order, all⟩ := said
  obtain ⟨text, published⟩ := sttStep_events o.stt o.transcriber state turn
  cases text with
  | none =>
    rw [published]
    exact ⟨pairs, by simp, order.trans (List.sublist_append_left _ _), all⟩
  | some text =>
    have one := published
    simp only [Option.toList_some, List.map_cons, List.map_nil] at one
    rw [one]
    refine ⟨pairs ++ [(turn.segment, _)], List.map_append, ?_, fun pair member => ?_⟩
    · simpa using order.append_right [turn.segment]
    · rcases List.mem_append.mp member with old | new
      · exact all pair old
      · rw [List.mem_singleton.mp new]
        exact ⟨state, turn, rfl, one⟩

theorem Orchestrator.Said.source (said : o.Said segments events) {event : TranscriptEvent}
    (member : event ∈ events) : ∃ segment ∈ segments, o.Transcribes segment event := by
  obtain ⟨pairs, rfl, order, all⟩ := said
  obtain ⟨pair, inside, rfl⟩ := List.mem_map.mp member
  exact ⟨pair.1, order.subset (List.mem_map_of_mem inside), all pair inside⟩

/-- Transcripts of segments that keep the protocol of their ids have the final last. -/
theorem Orchestrator.Said.finalLast (said : o.Said segments events)
    (lifecycle : Lifecycle segments) : FinalLast events := by
  obtain ⟨pairs, rfl, order, all⟩ := said
  have shape := lifecycle.shape.sublist order
  rw [List.pairwise_map] at shape
  rw [FinalLast, List.pairwise_map]
  refine shape.imp_of_mem fun {a b} first second once same => ?_
  have here := (all a first).shape
  have there := (all b second).shape
  rw [here, there] at same
  rw [here]
  simp [(once same).1]

end Transcripts

section Steps

variable {o : Orchestrator σ τ} {s s' : Live σ τ} {e : LiveEvent σ τ}

/-- All that a step can do. -/
inductive LiveCase (o : Orchestrator σ τ) (s : Live σ τ) : LiveEvent σ τ → Live σ τ → Prop
  | heard (e : PathEvent σ) (path : Path σ) (other : ∀ c, e ≠ .take c)
      (moved : pathStep o.vad o.iterator o.repacketizer o.path s.path e = some path) :
    LiveCase o s (.path e) { s with path }
  | decoded (c : Str) (turn : Turn) (path : Path σ)
      (moved : pathStep o.vad o.iterator o.repacketizer o.path s.path (.take c) = some path)
      (took : ∀ d, path.taken d = if d = c then s.path.taken c ++ [turn.segment]
        else s.path.taken d) :
    LiveCase o s (.decode c turn) { s with
      path
      stt := Function.update s.stt c (sttStep o.stt o.transcriber (s.stt c) turn).1
      results := Function.update s.results c
        (s.results c ++ (sttStep o.stt o.transcriber (s.stt c) turn).2) }
  | published (c : Str) (order : List ℕ) (event : TranscriptEvent) (results : List TranscriptEvent)
      (next : s.results c = event :: results) (console : Wired)
      (moved : wiredStep o.floats o.createdAt o.maxlen s.console
        (.hub (.publish (o.publisher c) event order)) = some console) :
    LiveCase o s (.publish c order)
      { s with console, results := Function.update s.results c results }
  | lost (c : Str) (k : ℕ) :
    LiveCase o s (.lose c k)
      { s with results := Function.update s.results c ((s.results c).eraseIdx k) }
  | restarted (c : Str) (transcriber : τ) :
    LiveCase o s (.restartStt c transcriber)
      { s with stt := Function.update s.stt c { transcriber } }
  | consoled (e : WiredEvent) (console : Wired)
      (other : ∀ publisher event order, e ≠ .hub (.publish publisher event order))
      (moved : wiredStep o.floats o.createdAt o.maxlen s.console e = some console) :
    LiveCase o s (.console e) { s with console }

theorem live_cases (step : o.step s e = some s') : LiveCase o s e s' := by
  cases e with
  | path e =>
    have other (c : Str) : e ≠ .take c := by
      rintro rfl
      simp [Orchestrator.step] at step
    have moved : (pathStep o.vad o.iterator o.repacketizer o.path s.path e).map
        (fun path => { s with path }) = some s' := by
      cases e with
      | take c => exact absurd rfl (other c)
      | _ => exact step
    obtain ⟨path, next, rfl⟩ := Option.map_eq_some_iff.mp moved
    exact .heard e path other next
  | decode c turn =>
    simp only [Orchestrator.step, Option.ite_none_right_eq_some, Option.map_eq_some_iff] at step
    obtain ⟨first, path, moved, rfl⟩ := step
    refine .decoded c turn path moved fun d => ?_
    cases pathStep_cases moved with
    | took c segment queue next =>
      rw [next, List.head?_cons, Option.some.injEq] at first
      rw [← first]
      simp only [Function.update_apply]
  | publish c order =>
    cases next : s.results c with
    | nil => simp [Orchestrator.step, next] at step
    | cons event results =>
      simp only [Orchestrator.step, next, Option.map_eq_some_iff] at step
      obtain ⟨console, moved, rfl⟩ := step
      exact .published c order event results next console moved
  | lose c k =>
    cases step
    exact .lost c k
  | restartStt c transcriber =>
    cases step
    exact .restarted c transcriber
  | console e =>
    have other (publisher : ℕ) (event : TranscriptEvent) (order : List ℕ) :
        e ≠ .hub (.publish publisher event order) := by
      rintro rfl
      simp [Orchestrator.step] at step
    have moved : (wiredStep o.floats o.createdAt o.maxlen s.console e).map
        (fun console => { s with console }) = some s' := by
      cases e with
      | hub e =>
        cases e with
        | publish publisher event order => exact absurd rfl (other publisher event order)
        | _ => exact step
      | _ => exact step
    obtain ⟨console, next, rfl⟩ := Option.map_eq_some_iff.mp moved
    exact .consoled e console other next

/-- On the console's side a step is one of the wire's, or none. -/
theorem live_wire (step : o.step s e = some s') :
    (o.wire s e = none ∧ s'.console = s.console) ∨
      ∃ f, o.wire s e = some f ∧
        wiredStep o.floats o.createdAt o.maxlen s.console f = some s'.console := by
  cases live_cases step with
  | heard | decoded | lost | restarted => exact Or.inl ⟨rfl, rfl⟩
  | published c order event results next console moved =>
    exact Or.inr ⟨_, by rw [Orchestrator.wire, next]; rfl, moved⟩
  | consoled e console other moved => exact Or.inr ⟨e, rfl, moved⟩

theorem wired_published {floats : Floats} {createdAt : Published → ℚ} {maxlen : ℕ} {w w' : Wired}
    {f : WiredEvent} (other : ∀ publisher event order, f ≠ .hub (.publish publisher event order))
    (step : wiredStep floats createdAt maxlen w f = some w') :
    w'.hub.topic.published = w.hub.topic.published := by
  have quiet {e : HubEvent} {hub : Hub} (moved : hubStep maxlen w.hub e = some hub)
      (none : ∀ publisher event order, e ≠ .publish publisher event order) :
      hub.topic.published = w.hub.topic.published := by
    rcases hubStep_published moved with same | ⟨publisher, event, order, named, _⟩
    · exact same
    · exact absurd named (none publisher event order)
  cases wiredStep_cases step with
  | moved e hub elsewhere moved =>
    exact quiet moved fun publisher event order named => other publisher event order (by rw [named])
  | connected free hub joins =>
    have joined : hubStep maxlen w.hub .subscribe = some hub := by
      rw [hubStep, joins, Option.getD_some]
    exact quiet joined (by simp)
  | sent c reads x rest waits hub moved => exact quiet moved (by simp)
  | refused | received | disconnected => rfl

/-- The transcripts of a channel that were published. -/
def publishedOn (s : Live σ τ) (c : Str) : List TranscriptEvent :=
  (s.console.hub.topic.published.map Publication.item).filter fun event => event.channelId = c

theorem mem_publishedOn {x : Published} (member : x ∈ s.console.hub.topic.published) :
    x.item ∈ publishedOn s x.item.channelId :=
  List.mem_filter.mpr ⟨List.mem_map_of_mem member, by simp⟩

/-- What is published of a channel, and then what is to be. -/
def transcripts (s : Live σ τ) (c : Str) : List TranscriptEvent := publishedOn s c ++ s.results c

/-- What is published of a channel, and then what is to be, are transcripts of its segments. -/
structure Faithful (o : Orchestrator σ τ) (s : Live σ τ) : Prop where
  voiced : Voiced o.vad o.iterator o.repacketizer o.path s.path
  said : ∀ c, o.Said (s.path.taken c) (transcripts s c)
  publishers : ∀ x ∈ s.console.hub.topic.published, x.publisher = o.publisher x.item.channelId

theorem Faithful.start (iterators : Str → σ) (transcribers : Str → τ) :
    Faithful o (o.start iterators transcribers) := by
  refine ⟨⟨Sound.start iterators, ?_⟩, fun c => ⟨[], rfl, List.Sublist.refl _, by simp⟩, ?_⟩
  · intro c s member
    cases member
  · intro x member
    cases member

/-- A transcript that waits is of its channel, and of a segment the STT worker took. -/
theorem Faithful.source (faithful : Faithful o s) {c : Str} {event : TranscriptEvent}
    (member : event ∈ transcripts s c) :
    event.channelId = c ∧ ∃ segment ∈ s.path.taken c, o.Transcribes segment event := by
  obtain ⟨segment, taken, of⟩ := (faithful.said c).source member
  have own := faithful.voiced.sound.segments c segment (List.mem_append_right _ taken)
  exact ⟨by rw [of.shape]; exact own, segment, taken, of⟩

/-- What a step does with the transcripts: a handled segment's are added, a lost one is gone, and
all else moves them on. -/
inductive SaidCase (o : Orchestrator σ τ) (s : Live σ τ) : LiveEvent σ τ → Live σ τ → Prop
  | decoded (c : Str) (turn : Turn) {s' : Live σ τ}
      (took : ∀ d, s'.path.taken d = if d = c then s.path.taken c ++ [turn.segment]
        else s.path.taken d)
      (worked : s'.stt = Function.update s.stt c (sttStep o.stt o.transcriber (s.stt c) turn).1)
      (more : ∀ d, transcripts s' d = if d = c
        then transcripts s c ++ (sttStep o.stt o.transcriber (s.stt c) turn).2
        else transcripts s d) :
    SaidCase o s (.decode c turn) s'
  | lost (c : Str) (k : ℕ) {s' : Live σ τ} (took : s'.path.taken = s.path.taken)
      (fewer : ∀ d, (transcripts s' d).Sublist (transcripts s d)) : SaidCase o s (.lose c k) s'
  | restarted (c : Str) (transcriber : τ) {s' : Live σ τ} (took : s'.path.taken = s.path.taken)
      (same : ∀ d, transcripts s' d = transcripts s d) :
    SaidCase o s (.restartStt c transcriber) s'
  | moved {e : LiveEvent σ τ} {s' : Live σ τ} (took : s'.path.taken = s.path.taken)
      (worked : s'.stt = s.stt) (same : ∀ d, transcripts s' d = transcripts s d) :
    SaidCase o s e s'

/-- A published transcript goes from the ones that wait to the ones that are out. -/
theorem publish_longer {c : Str} {order : List ℕ} {event : TranscriptEvent} {console : Wired}
    (moved : wiredStep o.floats o.createdAt o.maxlen s.console
      (.hub (.publish (o.publisher c) event order)) = some console) :
    console.hub.topic.published = s.console.hub.topic.published ++
      [s.console.hub.topic.next (o.publisher c) event] := by
  cases wiredStep_cases moved with
  | moved e hub elsewhere published =>
    cases hubStep_cases published with
    | published => rfl

theorem said_cases (faithful : Faithful o s) (step : o.step s e = some s') :
    SaidCase o s e s' := by
  cases live_cases step with
  | heard e path other moved =>
    refine .moved ?_ rfl fun d => rfl
    cases pathStep_cases moved with
    | took c => exact absurd rfl (other c)
    | _ => rfl
  | decoded c turn path moved took =>
    refine .decoded c turn took rfl fun d => ?_
    by_cases here : d = c
    · subst here
      simp [transcripts, publishedOn]
    · simp [transcripts, publishedOn, here]
  | published c order event results next console moved =>
    have waiting : event ∈ transcripts s c := by simp [transcripts, next]
    have own := (faithful.source waiting).1
    refine .moved rfl rfl fun d => ?_
    simp only [transcripts, publishedOn, publish_longer moved, List.map_append, List.filter_append]
    by_cases here : d = c
    · subst here
      simp [Topic.next, own, next]
    · have apart : event.channelId ≠ d := fun same => here (same.symm.trans own)
      simp [Topic.next, apart, Function.update_of_ne here]
  | lost c k =>
    refine .lost c k rfl fun d => ?_
    by_cases here : d = c
    · subst here
      simp only [transcripts, publishedOn, Function.update_self]
      exact (List.eraseIdx_sublist _ _).append_left _
    · simp only [transcripts, publishedOn, Function.update_of_ne here]
      exact List.Sublist.refl _
  | restarted c transcriber => exact .restarted c transcriber rfl fun d => rfl
  | consoled e console other moved =>
    refine .moved rfl rfl fun d => ?_
    simp only [transcripts, publishedOn, wired_published other moved]

theorem Faithful.step (faithful : Faithful o s) (step : o.step s e = some s') :
    Faithful o s' := by
  refine ⟨?_, fun d => ?_, ?_⟩
  · cases live_cases step with
    | heard e path other moved => exact faithful.voiced.step moved
    | decoded c turn path moved => exact faithful.voiced.step moved
    | published | lost | restarted | consoled => exact faithful.voiced
  · have before := faithful.said d
    cases said_cases faithful step with
    | decoded c turn took worked more =>
      rw [took, more]
      by_cases here : d = c
      · subst here
        rw [if_pos rfl, if_pos rfl]
        exact before.turn (s.stt d) turn
      · rwa [if_neg here, if_neg here]
    | lost c k took fewer =>
      rw [took]
      exact before.fewer (fewer d)
    | restarted c transcriber took same => rwa [took, same]
    | moved took worked same => rwa [took, same]
  · cases live_cases step with
    | heard | decoded | lost | restarted => exact faithful.publishers
    | published c order event results next console moved =>
      have waiting : event ∈ transcripts s c := by simp [transcripts, next]
      intro x member
      simp only [publish_longer moved] at member
      rcases List.mem_append.mp member with old | new
      · exact faithful.publishers x old
      · rw [List.mem_singleton.mp new]
        simp only [Topic.next, (faithful.source waiting).1]
    | consoled e console other moved =>
      simpa only [wired_published other moved] using faithful.publishers

end Steps

section Runs

variable {o : Orchestrator σ τ} {s s' : Live σ τ} {e : LiveEvent σ τ}
variable {labels : List (LiveEvent σ τ)} {iterators : Str → σ} {transcribers : Str → τ}

/-- The times of what is published survive the wire. -/
def Orchestrator.Sendable (o : Orchestrator σ τ) (s : Live σ τ) (e : LiveEvent σ τ) : Prop :=
  ∀ f ∈ o.wire s e, Sends o.floats f

/-- A connect finds no final in the backlog that the page has finalized already. -/
def Orchestrator.Unrepeated (o : Orchestrator σ τ) (s : Live σ τ) (e : LiveEvent σ τ) : Prop :=
  ∀ f ∈ o.wire s e, WiredUnseen s.console f

/-- The audio path is undisturbed; all else may happen. -/
def Calm : LiveEvent σ τ → Prop
  | .path e => Undisturbed e
  | _ => True

instance (o : Orchestrator σ τ) (s : Live σ τ) (e : LiveEvent σ τ) : Decidable (o.Sendable s e) :=
  inferInstanceAs (Decidable (∀ f ∈ o.wire s e, Sends o.floats f))

instance (o : Orchestrator σ τ) (s : Live σ τ) (e : LiveEvent σ τ) :
    Decidable (o.Unrepeated s e) :=
  inferInstanceAs (Decidable (∀ f ∈ o.wire s e, WiredUnseen s.console f))

instance : (e : LiveEvent σ τ) → Decidable (Calm e)
  | .path e => inferInstanceAs (Decidable (Undisturbed e))
  | .decode _ _ | .publish _ _ | .lose _ _ | .restartStt _ _ | .console _ => isTrue trivial

/-- The console's side of a run is a run of the wire. -/
def Wires (o : Orchestrator σ τ) (ok : Wired → WiredEvent → Prop) (s : Live σ τ) : Prop :=
  ∃ wires, run (wiredStep o.floats o.createdAt o.maxlen) {} wires = some s.console ∧
    (∀ f ∈ wires, Sends o.floats f) ∧ Along (wiredStep o.floats o.createdAt o.maxlen) ok {} wires

variable {ok : Wired → WiredEvent → Prop}

theorem Wires.step (wires : Wires o ok s)
    (allowed : ∀ f, o.wire s e = some f →
      wiredStep o.floats o.createdAt o.maxlen s.console f = some s'.console → ok s.console f)
    (sends : o.Sendable s e) (step : o.step s e = some s') : Wires o ok s' := by
  obtain ⟨past, ran, sent, met⟩ := wires
  rcases live_wire step with ⟨_, same⟩ | ⟨f, named, moved⟩
  · rw [Wires, same]
    exact ⟨past, ran, sent, met⟩
  · refine ⟨past ++ [f], (run_concat _ _ _ _ _).mpr ⟨_, ran, moved⟩, fun g member => ?_,
      (along_append _ _ _ _ _).mpr ⟨met, fun w arrived => ?_⟩⟩
    · rcases List.mem_append.mp member with old | new
      · exact sent g old
      · rw [List.mem_singleton.mp new]
        exact sends f named
    · rw [ran] at arrived
      cases arrived
      exact ⟨allowed f named moved, fun _ _ => trivial⟩

/-- Whatever a page gets was published, whoever publishes when. -/
theorem session_published {maxlen : ℕ} {es : List SessionEvent} {t : Session}
    (ran : run (sessionStep maxlen) {} es = some t) :
    ∀ m ∈ t.seen, ∃ x ∈ t.hub.topic.published, x.item = m := by
  have grows {hub hub' : Hub} {e : HubEvent} (step : hubStep maxlen hub e = some hub') :
      hub.topic.published ⊆ hub'.topic.published := by
    rcases hubStep_published step with same | ⟨_, _, _, _, longer⟩
    · rw [same]
      exact List.Subset.refl _
    · rw [longer]
      exact List.subset_append_left _ _
  have both := run_invariant (sessionStep maxlen)
    (I := fun t => Carries maxlen (fun _ => True) t.hub ∧
      ∀ m ∈ t.seen, ∃ x ∈ t.hub.topic.published, x.item = m)
    ⟨Carries.start maxlen _, by simp⟩ (fun t e t' before step => ?_) ran
  · exact both.2
  obtain ⟨carries, published⟩ := before
  have still {hub : Hub} {e : HubEvent} (moved : hubStep maxlen t.hub e = some hub) :
      ∀ m ∈ t.seen, ∃ x ∈ hub.topic.published, x.item = m := by
    intro m member
    obtain ⟨x, old, same⟩ := published m member
    exact ⟨x, grows moved old, same⟩
  cases sessionStep_cases step with
  | moved e hub elsewhere moved => exact ⟨carries.step (fun _ _ _ _ => trivial) moved, still moved⟩
  | connected hub joins =>
    have joined : hubStep maxlen t.hub .subscribe = some hub := by
      rw [hubStep, joins, Option.getD_some]
    exact ⟨carries.step (fun _ _ _ _ => trivial) joined, still joined⟩
  | refused => exact ⟨carries, published⟩
  | delivered q hub reads x rest waits moved =>
    refine ⟨carries.step (fun _ _ _ _ => trivial) moved, fun m member => ?_⟩
    rcases List.mem_append.mp member with old | new
    · exact still moved m old
    · have waiting : x ∈ t.hub.waiting q := waits ▸ List.mem_cons_self
      exact ⟨x, grows moved (carries.published waiting), (List.mem_singleton.mp new).symm⟩
  | disconnected => exact ⟨carries, published⟩

/-- A model that hears the same word in every session and every prefix. -/
def oneWord : Transcriber Unit where
  removeAllListeners _ := (false, ())
  addListener _ := (false, ())
  start _ := ⟨false, [], ()⟩
  addAudio _ _ _ := ⟨false, [], ()⟩
  stop _ := ⟨false, [.completed ['a']], ()⟩
  transcribeWithoutStreaming _ _ _ := (some [['a']], ())

/-- One sample a packet and a frame. -/
def sampleWide : RepacketizerConfig := { incomingMs := 1, outgoingMs := 1, sampleRate := 1000 }

def smallOrchestrator : Orchestrator Bool Unit where
  vad := ungated
  iterator := levelIterator
  repacketizer := ⟨2, 2, 1 / 1000, Nat.two_pos⟩
  path := { onePlace with dumping := false }
  stt := {}
  transcriber := oneWord
  floats := threeFloats
  createdAt _ := 5 / 2
  maxlen := 1

theorem small_stamps : smallOrchestrator.floats.Exact (5 / 2) := by decide +kernel

/-- A word goes all the way to the page, and then the connection is lost. -/
def wordShown : List (LiveEvent Bool Unit) :=
  [.path (.message ⟨['a', '/', 'r'], [1, 0], 1⟩ false), .path .route, .path (.forward false),
    .path (.hear 1), .console .connect, .path (.message ⟨['a', '/', 'r'], [0, 0], 2⟩ false),
    .path .route, .path (.forward false), .path (.hear 2), .path (.emit false),
    .decode ['r'] { segment := ⟨['r'], 1, 2, [1, 0, 0, 0], "r-1.000-1".toList, false⟩ },
    .publish ['r'] [0], .console (.hub (.put 0 false)), .console .send] ++
    List.replicate 130 (.console .receive) ++ [.console .disconnect]

/-- Everything a page got, over the wire and through reconnects, is a transcript of a segment
its channel's STT worker took, and the segment's audio came in the payloads of that channel's
messages, whatever was dropped on the way and whatever was replaced. -/
theorem page_hears_own_channel (stamps : ∀ x, o.floats.Exact (o.createdAt x))
    (sends : Along o.step o.Sendable (o.start iterators transcribers) labels)
    (reached : run o.step (o.start iterators transcribers) labels = some s) :
    ∀ m ∈ s.console.seen, ∃ segment ∈ s.path.taken m.channelId,
      o.Transcribes segment m ∧ segment.channelId = m.channelId ∧
        segment.segmentId = m.segmentId ∧ segment.start = m.start ∧ segment.endTs = m.endTs ∧
        segment.isPartial = !m.isFinal ∧
        segment.audio.Sublist (payloads o.path.channels m.channelId s.path.received) := by
  have both := run_invariant_along o.step
    (I := fun s => Faithful o s ∧ Wires o (fun _ _ => True) s)
    ⟨Faithful.start iterators transcribers, [], rfl, by simp, trivial⟩
    (fun s e s' before sends step => ⟨before.1.step step,
      before.2.step (fun _ _ _ => trivial) sends step⟩) sends reached
  obtain ⟨faithful, wires, ran, sent, _⟩ := both
  obtain ⟨es, t, session, hub, _, seen, _⟩ := (run_simulated stamps sent ran).session
  intro m member
  obtain ⟨x, published, rfl⟩ := session_published session m (seen ▸ member)
  rw [hub] at published
  obtain ⟨_, segment, taken, of⟩ :=
    faithful.source (List.mem_append_left _ (mem_publishedOn published))
  have shape := of.shape
  refine ⟨segment, taken, of, ?_, ?_, ?_, ?_, ?_, ?_⟩
  · rw [shape]
  · rw [shape]
  · rw [shape]
  · rw [shape]
  · rw [shape, Bool.not_not]
  · exact faithful.voiced.audio _ segment (List.mem_append_left _ taken)

theorem wordShown_heard :
    ∃ s, run smallOrchestrator.step (smallOrchestrator.start (fun _ => false) fun _ => ())
        wordShown = some s ∧ s.console.seen.map (fun m => m.text) = [['a']] ∧
      (payloads onePlace.channels ['r'] s.path.received) = [1, 0, 0, 0] ∧
      (s.console.seen.map fun m => m.segmentId) ⊆
        (s.path.taken ['r']).map fun segment => segment.segmentId := by
  have ends : ((run smallOrchestrator.step (smallOrchestrator.start (fun _ => false) fun _ => ())
      wordShown).map fun s => (s.console.seen.map (fun m => (m.text, m.channelId)),
        payloads onePlace.channels ['r'] s.path.received)) =
          some ([(['a'], ['r'])], [1, 0, 0, 0]) := by
    decide +kernel
  obtain ⟨s, reached, facts⟩ := Option.map_eq_some_iff.mp ends
  obtain ⟨seen, came⟩ := Prod.mk.inj facts
  have heard := page_hears_own_channel (o := smallOrchestrator) (fun _ => small_stamps)
    (by decide +kernel) reached
  refine ⟨s, reached, ?_, came, fun id member => ?_⟩
  · have texts := congrArg (List.map Prod.fst) seen
    simpa [List.map_map] using texts
  · obtain ⟨m, got, rfl⟩ := List.mem_map.mp member
    obtain ⟨segment, taken, _, _, same, _⟩ := heard m got
    have channel : m.channelId = ['r'] := by
      have tagged := List.mem_map_of_mem (f := fun m => (m.text, m.channelId)) got
      rw [seen, List.mem_singleton] at tagged
      exact (Prod.mk.inj tagged).2
    rw [channel] at taken
    exact List.mem_map.mpr ⟨segment, taken, same⟩

/-- A channel's one publisher publishes its transcripts as they were said, each once its last
is on every queue, so the publishers keep their turns of themselves. -/
theorem Faithful.in_turn (faithful : Faithful o s) (orderly : Orderly o.vad o.iterator s.path)
    (step : o.step s e = some s') {f : WiredEvent} (named : o.wire s e = some f)
    (moved : wiredStep o.floats o.createdAt o.maxlen s.console f = some s'.console) :
    WiredInTurn s.console f := by
  cases live_cases step with
  | heard | decoded | lost | restarted => cases named
  | published c order event results next console published =>
    rw [Orchestrator.wire, next, List.head?_cons, Option.map_some, Option.some.injEq] at named
    subst named
    have idle : s.console.hub.topic.pending (o.publisher c) = [] := by
      cases wiredStep_cases moved with
      | moved e hub elsewhere adds =>
        cases hubStep_cases adds with
        | published _ _ _ idle => exact idle
    intro x member same
    have waiting : event ∈ transcripts s c := by simp [transcripts, next]
    obtain ⟨_, segment, taken, of⟩ := faithful.source waiting
    have early := mem_publishedOn member
    obtain ⟨_, segment', taken', of'⟩ := faithful.source (List.mem_append_left _ early)
    have ids : segment'.segmentId = segment.segmentId := by
      rw [of.shape, of'.shape] at same
      exact same
    have here : x.item.channelId = c := orderly.same_channel
      (List.mem_append_left _ taken') (List.mem_append_left _ taken) ids
    have last := (faithful.said c).finalLast (orderly.lifecycle c)
    rw [here] at early
    constructor
    · exact (List.pairwise_append.mp last).2.2 x.item early event (by simp [next]) same
    · rw [faithful.publishers x member, here, idle]
      simp
  | consoled f' console other moved' =>
    cases named
    cases f with
    | hub e =>
      cases e with
      | publish publisher event order => exact absurd rfl (other publisher event order)
      | put | subscribe | unsubscribe | clear | get => trivial
    | connect | send | receive | disconnect => trivial

theorem orderly_live (orderly : Orderly o.vad o.iterator s.path)
    (lasts : 0 ≤ o.repacketizer.outgoingS) (calm : Calm e) (step : o.step s e = some s') :
    Orderly o.vad o.iterator s'.path := by
  cases live_cases step with
  | heard e path other moved => exact orderly.step lasts calm moved
  | decoded c turn path moved => exact orderly.step (e := .take c) lasts trivial moved
  | published | lost | restarted | consoled => exact orderly

/-- Segments of one id start at one time. -/
theorem lifecycle_start {segments : List SpeechSegment} (lifecycle : Lifecycle segments)
    {a b : SpeechSegment} (first : a ∈ segments) (second : b ∈ segments)
    (same : a.segmentId = b.segmentId) : a.start = b.start := by
  have starts := lifecycle.shape.imp (S := fun a b => a.segmentId = b.segmentId →
    a.start = b.start) fun once same => (once same).2
  refine starts.forall_of_forall_of_flip (fun _ _ _ => rfl) ?_ first second same
  exact starts.imp fun start same => (start same.symm).symm

/-- While the VADWorker is not replaced and no connect repeats a final, the page has one bubble
for each segment it got a transcript of, in the order of their starts. A bubble stands for a
segment of its channel, with the segment's start, and its text is the transcript of audio that
came on that channel. No turns of the publishers are assumed, and every other worker may be
replaced. -/
theorem page_follows_speech {config : RepacketizerConfig}
    (built : Repacketizer.ofConfig config = some o.repacketizer)
    (stamps : ∀ x, o.floats.Exact (o.createdAt x)) (calm : ∀ e ∈ labels, Calm e)
    (meets : Along o.step (fun s e => o.Sendable s e ∧ o.Unrepeated s e)
      (o.start iterators transcribers) labels)
    (reached : run o.step (o.start iterators transcribers) labels = some s) :
    Shows s.console.seen s.console.page ∧ ∀ b ∈ s.console.page.feed,
      ∃ segment ∈ s.path.taken b.channelId, segment.segmentId = b.segmentId ∧
        segment.start = b.start ∧ segment.isPartial = b.isPartial ∧
        (∃ m, o.Transcribes segment m ∧ m.text = b.text) ∧
        segment.audio.Sublist (payloads o.path.channels b.channelId s.path.received) := by
  have lasts := ofConfig_lasts built
  have all := run_history_along o.step
    (I := fun past s => (∀ e ∈ past, Calm e) → Faithful o s ∧ Orderly o.vad o.iterator s.path ∧
      Wires o (fun w f => WiredInTurn w f ∧ WiredUnseen w f) s)
    (fun _ => ⟨Faithful.start iterators transcribers, Orderly.start iterators,
      [], rfl, by simp, trivial⟩)
    (fun past s e s' before meets step calm => ?_) meets reached
  · obtain ⟨faithful, orderly, wires, ran, sent, met⟩ := all calm
    obtain ⟨t, linked, hub, page, seen⟩ := (run_simulated stamps sent ran).linked met
    have source (m : TranscriptEvent) (member : m ∈ s.console.seen) :
        ∃ segment ∈ s.path.taken m.channelId, o.Transcribes segment m := by
      obtain ⟨x, published, rfl⟩ := linked.published m (seen ▸ member)
      rw [hub] at published
      exact (faithful.source (List.mem_append_left _ (mem_publishedOn published))).2
    have shows : Shows s.console.seen s.console.page := by
      rw [← page, ← seen]
      exact linked.shows
    refine ⟨shows, fun b member => ?_⟩
    obtain ⟨first, got, last, got', id, channel, start, id', text, final⟩ := shows.source b member
    obtain ⟨opening, taken, of⟩ := source first got
    obtain ⟨segment, taken', of'⟩ := source last got'
    rw [of.shape] at id start
    rw [of'.shape] at id' final
    have ids : segment.segmentId = opening.segmentId := id'.trans id.symm
    have here : last.channelId = b.channelId := (orderly.same_channel
      (List.mem_append_left _ taken') (List.mem_append_left _ taken) ids).trans channel
    rw [here] at taken'
    rw [channel] at taken
    refine ⟨segment, taken', id', ?_, Bool.not_inj final, ⟨last, of', text⟩,
      faithful.voiced.audio _ segment (List.mem_append_left _ taken')⟩
    exact (lifecycle_start (orderly.lifecycle _) taken' taken ids).trans start
  · obtain ⟨faithful, orderly, wires⟩ := before fun f member =>
      calm f (List.mem_append_left _ member)
    refine ⟨faithful.step step, orderly_live orderly lasts (calm e (by simp)) step,
      wires.step (fun f named moved => ⟨faithful.in_turn orderly step named moved, ?_⟩)
        meets.1 step⟩
    exact meets.2 f named

theorem wordShown_follows :
    ∃ s, run smallOrchestrator.step (smallOrchestrator.start (fun _ => false) fun _ => ())
        wordShown = some s ∧ s.console.page.feed.map (fun b => (b.channelId, b.text)) =
          [(['r'], ['a'])] ∧ Shows s.console.seen s.console.page ∧
      (s.console.page.feed.map fun b => b.segmentId) ⊆
        (s.path.taken ['r']).map fun segment => segment.segmentId := by
  have ends : ((run smallOrchestrator.step (smallOrchestrator.start (fun _ => false) fun _ => ())
      wordShown).map fun s => s.console.page.feed.map (fun b => (b.channelId, b.text))) =
        some [(['r'], ['a'])] := by
    decide +kernel
  obtain ⟨s, reached, feed⟩ := Option.map_eq_some_iff.mp ends
  have built : Repacketizer.ofConfig sampleWide = some smallOrchestrator.repacketizer :=
    @Repacketizer.ofConfig_whole sampleWide 1 1 (by norm_num [sampleWide])
      (by norm_num [sampleWide]) (by decide)
  obtain ⟨shows, bubbles⟩ := page_follows_speech (o := smallOrchestrator) built
    (fun _ => small_stamps) (by decide +kernel) (by decide +kernel) reached
  refine ⟨s, reached, feed, shows, fun id member => ?_⟩
  obtain ⟨b, shown, rfl⟩ := List.mem_map.mp member
  obtain ⟨segment, taken, same, _⟩ := bubbles b shown
  have channel : b.channelId = ['r'] := by
    have tagged := List.mem_map_of_mem (f := fun b => (b.channelId, b.text)) shown
    rw [feed, List.mem_singleton] at tagged
    exact (Prod.mk.inj tagged).1
  rw [channel] at taken
  exact List.mem_map.mpr ⟨segment, taken, same⟩

end Runs

end EdgeVoice.LiveTranscripts
