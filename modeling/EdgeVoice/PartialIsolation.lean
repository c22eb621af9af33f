import EdgeVoice.SegmentLifecycle

/-! Two runs that differ in how often partials are emitted and admitted. On the VAD
side the states differ in `last_partial_s` only, so the same finals go to the same
queues; on the STT side the finals see transcribers that no later session can tell
apart, so the same final events come out and the same latencies are left. -/

namespace EdgeVoice.PartialIsolation
open PythonText Models VadWorker VadTrack SegmentLifecycle SttWorker StepSystem

section Vad

variable {σ : Type}

/-- A channel state without its partial clock. -/
def unpaced (state : ChannelState σ) : ChannelState σ := { state with lastPartialS := 0 }

/-- Equal but for partials: the states up to the partial clock, the effects up to
partials and minted ids. -/
def Alike (r r' : ChannelState σ × List Effect) : Prop :=
  unpaced r.1 = unpaced r'.1 ∧ finals r.2 = finals r'.2

theorem Alike.refl (r : ChannelState σ × List Effect) : Alike r r := ⟨rfl, rfl⟩

theorem Alike.symm {r r' : ChannelState σ × List Effect} (h : Alike r r') : Alike r' r :=
  ⟨h.1.symm, h.2.symm⟩

theorem Alike.trans {r r' r'' : ChannelState σ × List Effect} (h : Alike r r')
    (h' : Alike r' r'') : Alike r r'' :=
  ⟨h.1.trans h'.1, h.2.trans h'.2⟩

theorem eq_of_unpaced {s s' : ChannelState σ} (h : unpaced s = unpaced s') :
    s' = { s with lastPartialS := s'.lastPartialS } := by
  obtain ⟨⟩ := s
  obtain ⟨⟩ := s'
  simp only [unpaced, ChannelState.mk.injEq] at h
  simp [h]

section Methods

variable (cfg : VADWorkerConfig) (it : VADIterator σ) (c : Str) (s : ChannelState σ) (x : ℚ)

theorem finalizeSegment_alike (endTs : ℚ) :
    Alike (finalizeSegment c endTs s) (finalizeSegment c endTs { s with lastPartialS := x }) := by
  obtain ⟨vadIter, triggered, preroll, chunks, startTs, segmentId⟩ := s
  cases startTs with
  | none => exact Alike.refl _
  | some startTs =>
    by_cases empty : chunks = []
    · simp only [finalizeSegment, if_pos empty]
      exact ⟨rfl, rfl⟩
    · simp only [finalizeSegment, if_neg empty]
      cases segmentId with
      | none => exact ⟨rfl, rfl⟩
      | some segmentId => exact ⟨rfl, rfl⟩

theorem cutSegment_alike (k : ℕ) (chunkS : ℚ) :
    Alike (cutSegment c k chunkS s) (cutSegment c k chunkS { s with lastPartialS := x }) := by
  obtain ⟨vadIter, triggered, preroll, chunks, startTs, segmentId⟩ := s
  cases startTs with
  | none => exact ⟨rfl, rfl⟩
  | some startTs =>
    by_cases outside : k = 0 ∨ chunks.length < k
    · simp only [cutSegment, if_pos outside]
      exact ⟨rfl, rfl⟩
    simp only [cutSegment, if_neg outside, finalizeSegment]
    by_cases empty : chunks.take k = []
    · simp only [if_pos empty]
      exact ⟨rfl, rfl⟩
    · simp only [if_neg empty]
      cases segmentId with
      | none => exact ⟨rfl, rfl⟩
      | some segmentId => exact ⟨rfl, rfl⟩

theorem maybeCut_alike (packet : AudioPacket) :
    Alike (maybeCut cfg it c packet s) (maybeCut cfg it c packet { s with lastPartialS := x }) := by
  unfold maybeCut
  simp only
  by_cases soundless : packet.samples.length / 2 ≤ 0
  · rw [if_pos soundless, if_pos soundless]
    exact ⟨rfl, rfl⟩
  rw [if_neg soundless, if_neg soundless]
  generalize ((packet.samples.length / 2 : ℕ) : ℚ) / cfg.sampleRate = chunkS
  by_cases hard : cfg.maxSegmentS ≤ s.segmentChunks.length * chunkS
  · rw [if_pos hard, if_pos hard]
    exact cutSegment_alike c s x _ _
  rw [if_neg hard, if_neg hard]
  by_cases off : cfg.softCutEnabled = false
  · rw [if_pos off, if_pos off]
    exact ⟨rfl, rfl⟩
  rw [if_neg off, if_neg off]
  by_cases far : s.segmentChunks.length * chunkS < cfg.softCutS - cfg.softCutLookaheadS
  · rw [if_pos far, if_pos far]
    exact ⟨rfl, rfl⟩
  rw [if_neg far, if_neg far]
  by_cases near : s.segmentChunks.length * chunkS < cfg.softCutS
  · rw [if_pos near, if_pos near]
    exact ⟨rfl, rfl⟩
  rw [if_neg near, if_neg near]
  generalize s.scores ++ [(s.segmentChunks.length - 1, it.lastScore s.vadIter)] = scores
  cases (scores.drop (scores.length -
      (max 1 (truncate (cfg.softCutLookaheadS / chunkS))).toNat)).argmin Prod.snd with
  | none => exact ⟨rfl, rfl⟩
  | some least =>
    simp only
    by_cases dip : least.2 < it.lastScore s.vadIter - cfg.softCutMinDip
    · rw [if_pos dip, if_pos dip]
      exact cutSegment_alike c { s with scores := scores } x _ _
    · rw [if_neg dip, if_neg dip]
      exact ⟨rfl, rfl⟩

theorem flushChannel_alike :
    Alike (flushChannel cfg it c s) (flushChannel cfg it c { s with lastPartialS := x }) := by
  obtain ⟨vadIter, triggered, preroll, chunks, startTs, segmentId⟩ := s
  cases startTs with
  | none => exact ⟨rfl, rfl⟩
  | some startTs =>
    by_cases empty : chunks = []
    · simp only [flushChannel, if_pos empty]
      exact ⟨rfl, rfl⟩
    · simp only [flushChannel, if_neg empty, finalizeSegment]
      cases segmentId with
      | none => exact ⟨rfl, rfl⟩
      | some segmentId => exact ⟨rfl, rfl⟩

theorem endSegment_alike (packet : AudioPacket) :
    Alike (endSegment packet s) (endSegment packet { s with lastPartialS := x }) := by
  have unpacedRest (r r' : ChannelState σ) (h : unpaced r = unpaced r') :
      unpaced { r with scores := [] } = unpaced { r' with scores := [] } := by
    rw [eq_of_unpaced h]
    rfl
  have closed := finalizeSegment_alike packet.channelId { s with triggered := false } x
    packet.timestamp
  exact ⟨unpacedRest _ _ closed.1, closed.2⟩

variable {cfg it s}

/-- Whatever the partial settings are, going on with a segment differs from the cut
check alone by partials only. -/
theorem continueSegment_alike (packet : AudioPacket) {ok : ℚ → Prop} (h : Coherent ok cfg it s)
    (speaking : s.triggered = true) :
    Alike (continueSegment cfg it packet s)
      (if cfg.segmentLimitsEnabled then maybeCut cfg it packet.channelId packet s
        else (s, [])) := by
  unfold continueSegment
  simp only
  generalize hcut : (if cfg.segmentLimitsEnabled then maybeCut cfg it packet.channelId packet s
    else (s, [])) = cut
  have after : Coherent ok cfg it cut.1 ∧ cut.1.triggered = true := by
    rw [← hcut]
    by_cases limited : cfg.segmentLimitsEnabled = true
    · rw [if_pos limited]
      exact (maybeCut_run packet.channelId packet h speaking).2
    · rw [if_neg limited]
      exact ⟨h, speaking⟩
  by_cases paced : 0 < cfg.partialIntervalS
  · rw [if_pos paced]
    obtain ⟨startTs, segmentId, hs, hi⟩ := after.1.open after.2
    obtain same | ⟨segS, _, _, shown⟩ := maybeEmitPartial_cases cfg packet.channelId packet hs hi
    · rw [same, List.append_nil]
      exact Alike.refl cut
    · rw [shown]
      exact ⟨rfl, by simp [finals]⟩
  · rw [if_neg paced]
    exact Alike.refl cut

end Methods

/-- A configuration with other partial settings. -/
def repaced (cfg : VADWorkerConfig) (interval minimum : ℚ) : VADWorkerConfig :=
  { cfg with partialIntervalS := interval, partialMinSegmentS := minimum }

section Steps

variable {cfg : VADWorkerConfig} {it : VADIterator σ} {ok : ℚ → Prop} (interval minimum : ℚ)

theorem continueSegment_repaced (packet : AudioPacket) {s : ChannelState σ} (x : ℚ)
    (h : Coherent ok cfg it s)
    (h' : Coherent ok (repaced cfg interval minimum) it { s with lastPartialS := x })
    (speaking : s.triggered = true) :
    Alike (continueSegment cfg it packet s)
      (continueSegment (repaced cfg interval minimum) it packet { s with lastPartialS := x }) := by
  refine (continueSegment_alike packet h speaking).trans
    (Alike.trans ?_ (continueSegment_alike packet h' speaking).symm)
  by_cases limited : cfg.segmentLimitsEnabled = true
  · rw [if_pos limited,
      if_pos (show (repaced cfg interval minimum).segmentLimitsEnabled = true from limited)]
    exact maybeCut_alike cfg it packet.channelId s x packet
  · rw [if_neg limited,
      if_neg (show ¬(repaced cfg interval minimum).segmentLimitsEnabled = true from limited)]
    exact ⟨rfl, rfl⟩

theorem handlePacket_repaced (packet : AudioPacket) (now : ℚ) {s : ChannelState σ} (x : ℚ)
    (h : Coherent ok cfg it s)
    (h' : Coherent ok (repaced cfg interval minimum) it { s with lastPartialS := x }) :
    Alike (handlePacket cfg it packet now s)
      (handlePacket (repaced cfg interval minimum) it packet now
        { s with lastPartialS := x }) := by
  unfold handlePacket
  cases decoded : pcmToFloat packet.samples with
  | none => exact ⟨rfl, rfl⟩
  | some chunk =>
    simp only [repaced]
    by_cases gated : (cfg.rmsGateEnabled && !s.triggered &&
        rmsBelow chunk cfg.silenceRmsFloor) = true
    · rw [if_pos gated, if_pos gated]
      exact ⟨rfl, rfl⟩
    rw [if_neg gated, if_neg gated]
    have protocol := it.call_protocol s.vadIter chunk
    cases reply : (it.call s.vadIter chunk).1 with
    | raised => exact ⟨rfl, rfl⟩
    | started =>
      rw [reply] at protocol
      have quiet : ¬s.triggered = true := by simp [h.iterator, protocol.1]
      simp only [if_neg quiet]
      exact ⟨rfl, rfl⟩
    | ended =>
      rw [reply] at protocol
      have speaking : s.triggered = true := h.iterator.trans protocol.1
      simp only [if_pos speaking]
      exact endSegment_alike _ x packet
    | nothing =>
      rw [reply] at protocol
      by_cases speaking : s.triggered = true
      · simp only [if_pos speaking]
        have triggered : s.triggered = it.triggered (it.call s.vadIter chunk).2 :=
          h.iterator.trans protocol.symm
        refine continueSegment_repaced interval minimum packet x ⟨triggered, h.startTs,
          h.segmentId, by simp [speaking], h.speech, h.prerollBound, h.times⟩
          ⟨triggered, h'.startTs, h'.segmentId, by simp [speaking], h'.speech, h'.prerollBound,
            h'.times⟩ speaking
      · simp only [if_neg speaking]
        exact ⟨rfl, rfl⟩

theorem channelStep_repaced (c : Str) (event : VadEvent) {s : ChannelState σ} (x : ℚ)
    (h : Coherent ok cfg it s)
    (h' : Coherent ok (repaced cfg interval minimum) it { s with lastPartialS := x }) :
    Alike (channelStep cfg it c s event)
      (channelStep (repaced cfg interval minimum) it c { s with lastPartialS := x } event) := by
  cases event with
  | packet packet now => exact handlePacket_repaced interval minimum packet now x h h'
  | idleCheck now =>
    have flushed := flushChannel_alike cfg it c s x
    have same : channelStep (repaced cfg interval minimum) it c { s with lastPartialS := x }
        (.idleCheck now) = channelStep cfg it c { s with lastPartialS := x } (.idleCheck now) := rfl
    rw [same]
    simp only [channelStep]
    by_cases off : cfg.idleFlushS ≤ 0
    · rw [if_pos off, if_pos off]
      exact ⟨rfl, rfl⟩
    rw [if_neg off, if_neg off]
    by_cases idle : cfg.idleFlushS ≤ now - s.lastPacketAt
    · rw [if_pos idle, if_pos idle]
      exact flushed
    · rw [if_neg idle, if_neg idle]
      exact ⟨rfl, rfl⟩
  | flush => exact flushChannel_alike cfg it c s x

end Steps

section Worker

variable (cfg : VADWorkerConfig) (it : VADIterator σ) (keys : ChannelKeys) (interval minimum : ℚ)

/-- The finals among the effects, each with its channel: what all queues are sent. -/
def fanned (effects : List (Str × Effect)) : List (Str × SpeechSegment) :=
  effects.flatMap fun e => (finals [e.2]).map (e.1, ·)

@[simp] theorem fanned_append (effects later : List (Str × Effect)) :
    fanned (effects ++ later) = fanned effects ++ fanned later := by
  simp [fanned]

theorem fanned_tagged (c : Str) (effects : List Effect) :
    fanned (effects.map (c, ·)) = (finals effects).map (c, ·) := by
  induction effects with
  | nil => rfl
  | cons effect effects ih =>
    have split : effect :: effects = [effect] ++ effects := rfl
    rw [split, List.map_append, fanned_append, finals_append, List.map_append, ih]
    simp [fanned]

/-- The two workers agree on every channel but for the partial clock. -/
def Paced (channels channels' : Channels σ) : Prop :=
  ∀ c, unpaced (channels c) = unpaced (channels' c) ∧ Coherent (fun _ => True) cfg it (channels c) ∧
    Coherent (fun _ => True) (repaced cfg interval minimum) it (channels' c)

theorem channelStep_paced {c : Str} {s s' : ChannelState σ} (event : VadEvent)
    (own : ∀ packet now, event = .packet packet now → packet.channelId = c)
    (same : unpaced s = unpaced s') (h : Coherent (fun _ => True) cfg it s)
    (h' : Coherent (fun _ => True) (repaced cfg interval minimum) it s') :
    Alike (channelStep cfg it c s event)
        (channelStep (repaced cfg interval minimum) it c s' event) ∧
      Coherent (fun _ => True) cfg it (channelStep cfg it c s event).1 ∧
      Coherent (fun _ => True) (repaced cfg interval minimum) it
        (channelStep (repaced cfg interval minimum) it c s' event).1 := by
  have alike := eq_of_unpaced same
  have stamped : ∀ packet now, event = .packet packet now →
      packet.channelId = c ∧ True := fun packet now given => ⟨own packet now given, trivial⟩
  refine ⟨?_, (channelStep_run c h event stamped).2, (channelStep_run c h' event stamped).2⟩
  rw [alike] at h' ⊢
  exact channelStep_repaced interval minimum c event _ h h'

theorem forEachChannel_paced {channels channels' : Channels σ} (event : VadEvent)
    (anyone : ∀ packet now, event ≠ .packet packet now)
    (h : Paced cfg it interval minimum channels channels') :
    Paced cfg it interval minimum (forEachChannel cfg it keys channels event).1
        (forEachChannel (repaced cfg interval minimum) it keys channels' event).1 ∧
      fanned (forEachChannel cfg it keys channels event).2 =
        fanned (forEachChannel (repaced cfg interval minimum) it keys channels' event).2 := by
  have step (c : Str) := channelStep_paced cfg it interval minimum (c := c) event
    (fun packet now given => absurd given (anyone packet now)) (h c).1 (h c).2.1 (h c).2.2
  constructor
  · intro c
    by_cases configured : c ∈ keys.val
    · simp only [forEachChannel, if_pos configured]
      exact ⟨(step c).1.1, (step c).2⟩
    · simp only [forEachChannel, if_neg configured]
      exact h c
  · simp only [forEachChannel]
    induction keys.val with
    | nil => rfl
    | cons c rest ih =>
      rw [List.flatMap_cons, List.flatMap_cons, fanned_append, fanned_append, fanned_tagged,
        fanned_tagged, (step c).1.2, ih]

theorem workerStep_paced {channels channels' : Channels σ} (event : VadEvent)
    (h : Paced cfg it interval minimum channels channels') :
    Paced cfg it interval minimum (workerStep cfg it keys channels event).1
        (workerStep (repaced cfg interval minimum) it keys channels' event).1 ∧
      fanned (workerStep cfg it keys channels event).2 =
        fanned (workerStep (repaced cfg interval minimum) it keys channels' event).2 := by
  cases event with
  | packet packet now =>
    by_cases known : packet.channelId ∈ keys.val
    · obtain ⟨alike, coherent, coherent'⟩ := channelStep_paced cfg it interval minimum
        (c := packet.channelId) (.packet packet now) (fun p n given => by cases given; rfl)
        (h _).1 (h _).2.1 (h _).2.2
      simp only [workerStep, if_pos known]
      constructor
      · intro c
        by_cases mine : c = packet.channelId
        · subst mine
          simp only [Function.update_self]
          exact ⟨alike.1, coherent, coherent'⟩
        · simp only [Function.update_of_ne mine]
          exact h c
      · rw [fanned_tagged, fanned_tagged]
        exact congrArg (List.map _) alike.2
    · simp only [workerStep, if_neg known]
      exact ⟨h, trivial⟩
  | idleCheck now => exact forEachChannel_paced cfg it keys interval minimum _ (by simp) h
  | flush => exact forEachChannel_paced cfg it keys interval minimum _ (by simp) h

/-- Other partial settings send the same finals, in the same order over all channels. -/
theorem fanned_repaced (iterators : Str → σ) (events : List VadEvent) :
    fanned (outputs (workerStep cfg it keys) (freshChannels it iterators) events).2 =
      fanned (outputs (workerStep (repaced cfg interval minimum) it keys)
        (freshChannels it iterators) events).2 := by
  have fresh : Paced cfg it interval minimum (freshChannels it iterators)
      (freshChannels it iterators) := fun c =>
    ⟨rfl, freshChannels_coherent _ _ it iterators c, freshChannels_coherent _ _ it iterators c⟩
  have simulated := outputs_simulates (workerStep cfg it keys)
    (workerStep (repaced cfg interval minimum) it keys) (Paced cfg it interval minimum)
    (fun event => [event]) (fun e => (finals [e.2]).map (e.1, ·))
    (fun e => (finals [e.2]).map (e.1, ·)) (fun channels channels' event related => by
      simpa [fanned] using workerStep_paced cfg it keys interval minimum event related)
    fresh events
  simpa [fanned] using simulated.2

/-- The segment queue of a channel that is never full. -/
def segmentQueue (c : Str) (effects : List (Str × Effect)) : List SpeechSegment :=
  puts (effectsOn c effects)

/-- The dump queue, never full either: `fanout_put` alone writes to it. -/
def dumpQueue (effects : List (Str × Effect)) : List SpeechSegment :=
  finals (effects.map Prod.snd)

theorem dumpQueue_eq (effects : List (Str × Effect)) :
    dumpQueue effects = (fanned effects).map Prod.snd := by
  induction effects with
  | nil => rfl
  | cons e effects ih =>
    have split : e :: effects = [e] ++ effects := rfl
    rw [split, fanned_append, List.map_append, ← ih, dumpQueue, List.map_append, finals_append]
    simp [dumpQueue, fanned, Function.comp_def]

theorem finals_effectsOn (c : Str) (effects : List (Str × Effect)) :
    finals (effectsOn c effects) = ((fanned effects).filter (·.1 = c)).map Prod.snd := by
  induction effects with
  | nil => rfl
  | cons e effects ih =>
    have split : e :: effects = [e] ++ effects := rfl
    rw [split, effectsOn_append, finals_append, fanned_append, List.filter_append,
      List.map_append, ih]
    by_cases mine : e.1 = c
    · simp [effectsOn, fanned, mine, List.filter_map, Function.comp_def]
    · simp [effectsOn, fanned, mine, List.filter_map, Function.comp_def, finals]

/-- `put_nowait` carries partials and `fanout_put` carries finals. -/
def Sorted (effects : List Effect) : Prop :=
  ∀ effect ∈ effects,
    match effect with
    | .minted _ => True
    | .putNowait segment => segment.isPartial = true
    | .fanoutPut segment => segment.isPartial = false

theorem Run.sorted {ok : ℚ → Prop} {c : Str} {t u : Track} {chunks : List (List UInt8)}
    {effects : List Effect} (run : Run ok c t chunks effects u) : Sorted effects := by
  induction run with
  | refl => simp [Sorted]
  | tail _ move ih =>
    intro effect member
    rcases List.mem_append.mp member with old | new
    · exact ih effect old
    · cases move with
      | cut n s k chunkS pos inside nonneg =>
        rcases List.mem_pair.mp new with rfl | rfl
        · rfl
        · trivial
      | opened =>
        rw [List.mem_singleton.mp new]
        trivial
      | shown | closed => rw [List.mem_singleton.mp new]
      | extended => simp at new

theorem worker_sorted (iterators : Str → σ) (events : List VadEvent) (c : Str) :
    Sorted (effectsOn c
      (outputs (workerStep cfg it keys) (freshChannels it iterators) events).2) := by
  by_cases configured : c ∈ keys.val
  · obtain ⟨⟨chunks, run⟩, _⟩ := worker_run (fun _ => True) cfg it keys iterators configured events
      (fun _ _ _ => trivial)
    exact Run.sorted run
  · rw [worker_unconfigured cfg it keys iterators configured events]
    simp [Sorted]

theorem Sorted.finals_eq {effects : List Effect} (h : Sorted effects) :
    finals effects = (puts effects).filter (!·.isPartial) := by
  induction effects with
  | nil => rfl
  | cons effect effects ih =>
    have rest := ih fun later member => h later (by simp [member])
    have first := h effect (by simp)
    have split : effect :: effects = [effect] ++ effects := rfl
    rw [split, finals_append, puts_append, List.filter_append, rest]
    cases effect with
    | minted => rfl
    | putNowait segment => simp [finals, puts, first]
    | fanoutPut segment => simp [finals, puts, first]

theorem Sorted.finals_kind {effects : List Effect} (h : Sorted effects) :
    ∀ segment ∈ finals effects, segment.isPartial = false := by
  intro segment member
  rw [h.finals_eq] at member
  simpa using (List.mem_filter.mp member).2

theorem dumpQueue_kind (iterators : Str → σ) (events : List VadEvent) :
    ∀ segment ∈ dumpQueue
        (outputs (workerStep cfg it keys) (freshChannels it iterators) events).2,
      segment.isPartial = false := by
  intro segment member
  rw [dumpQueue_eq] at member
  obtain ⟨⟨c, other⟩, inside, rfl⟩ := List.mem_map.mp member
  refine (worker_sorted cfg it keys iterators events c).finals_kind other ?_
  rw [finals_effectsOn]
  exact List.mem_map.mpr ⟨(c, other), List.mem_filter.mpr ⟨inside, by simp⟩, rfl⟩

end Worker

end Vad

section Stt

variable {τ : Type} (stt : STTWorkerConfig) (tr : Transcriber τ)

/-- The transcriber driven through streamed sessions alone. -/
def sessionStep (s : τ) (audio : List UInt8) : τ × List (Option Str) :=
  let session := transcribe stt tr s audio
  (session.2, [session.1])

/-- No sequence of sessions can tell the two transcribers apart. -/
def SameSessions (s s' : τ) : Prop :=
  ∀ audios, (outputs (sessionStep stt tr) s audios).2 = (outputs (sessionStep stt tr) s' audios).2

/-- A stateless pass over a prefix leaves every later session's answer as it was. -/
def Undisturbed : Prop :=
  ∀ s samples rate, SameSessions stt tr (tr.transcribeWithoutStreaming s samples rate).2 s

theorem SameSessions.session {s s' : τ} (h : SameSessions stt tr s s') (audio : List UInt8) :
    (transcribe stt tr s audio).1 = (transcribe stt tr s' audio).1 ∧
      SameSessions stt tr (transcribe stt tr s audio).2 (transcribe stt tr s' audio).2 := by
  obtain ⟨answer, onward⟩ := Indistinguishable.next (I := List UInt8) h audio
  exact ⟨by simpa [sessionStep] using answer, onward⟩

/-- What a final leaves to be read: its events, `last_latency_s` and `channel_latencies_s`. -/
structure FinalReading where
  events : List TranscriptEvent
  lastLatencyS : Option ℚ
  channelLatencyS : Str → Option ℚ

/-- The worker observed after every final, and not at all after a partial. -/
def finalStep (state : SttState τ) (turn : Turn) : SttState τ × List FinalReading :=
  let handled := sttStep stt tr state turn
  (handled.1,
    if turn.segment.isPartial then []
    else [⟨handled.2, handled.1.lastLatencyS, handled.1.channelLatencyS⟩])

/-- The finals of a queue with their decode durations. -/
def finalInputs (turns : List Turn) : List (SpeechSegment × ℚ) :=
  (turns.filter (!·.segment.isPartial)).map fun t => (t.segment, t.finishedAt - t.startedAt)

/-- Equal to every later final: same sessions, same latencies. -/
structure SameFinals (state state' : SttState τ) : Prop where
  sessions : SameSessions stt tr state.transcriber state'.transcriber
  last : state.lastLatencyS = state'.lastLatencyS
  channel : state.channelLatencyS = state'.channelLatencyS

/-- A worker with other admission of partials. -/
def readmitted (depth : ℤ) : STTWorkerConfig := { stt with partialMaxQueueDepth := depth }

variable {stt tr} (depth : ℤ)

theorem sttStep_partial_unseen (undisturbed : Undisturbed stt tr) {state state' : SttState τ}
    (h : SameFinals stt tr state state') {turn : Turn}
    (throwaway : turn.segment.isPartial = true) :
    SameFinals stt tr (sttStep (readmitted stt depth) tr state turn).1 state' := by
  have decoded : SameSessions stt tr
      (transcribePartial (readmitted stt depth) tr state.transcriber turn.segment.audio).2
      state'.transcriber := by
    unfold transcribePartial
    cases pcmToFloat turn.segment.audio with
    | none => exact h.sessions
    | some samples =>
      exact fun audios => (undisturbed _ _ _ audios).trans (h.sessions audios)
  simp only [sttStep, handleSegment, throwaway, if_true, handlePartial]
  split
  · exact ⟨h.sessions, h.last, h.channel⟩
  · generalize transcribePartial (readmitted stt depth) tr state.transcriber turn.segment.audio =
      answer at decoded
    obtain ⟨text, next⟩ := answer
    cases text with
    | none => exact ⟨decoded, h.last, h.channel⟩
    | some text => exact ⟨decoded, h.last, h.channel⟩

theorem sttStep_final_same (depth' : ℤ) {state state' : SttState τ}
    (h : SameFinals stt tr state state') {turn turn' : Turn}
    (final : turn.segment.isPartial = false) (segment : turn'.segment = turn.segment)
    (duration : turn'.finishedAt - turn'.startedAt = turn.finishedAt - turn.startedAt) :
    SameFinals stt tr (sttStep (readmitted stt depth) tr state turn).1
        (sttStep (readmitted stt depth') tr state' turn').1 ∧
      (sttStep (readmitted stt depth) tr state turn).2 =
        (sttStep (readmitted stt depth') tr state' turn').2 := by
  obtain ⟨answer, sessions⟩ := h.sessions.session stt tr turn.segment.audio
  have sameDecode (d : ℤ) (s : τ) (audio : List UInt8) :
      transcribe (readmitted stt d) tr s audio = transcribe stt tr s audio := rfl
  simp only [sttStep, handleSegment, segment, final, Bool.false_eq_true, if_false, duration,
    sameDecode]
  generalize transcribe stt tr state.transcriber turn.segment.audio = decoded at answer sessions
  generalize transcribe stt tr state'.transcriber turn.segment.audio = decoded' at answer sessions
  obtain ⟨text, next⟩ := decoded
  obtain ⟨text', next'⟩ := decoded'
  simp only at answer
  subst answer
  cases text with
  | none => exact ⟨⟨sessions, h.last, h.channel⟩, rfl⟩
  | some text => exact ⟨⟨sessions, rfl, by rw [h.channel]⟩, rfl⟩

theorem SameFinals.refl (state : SttState τ) : SameFinals stt tr state state :=
  ⟨fun _ => rfl, rfl, rfl⟩

/-- Partials can be left out of the queue without a reading changing. -/
theorem finalReadings_filter (undisturbed : Undisturbed stt tr) (depth' : ℤ) (turns : List Turn)
    {state state' : SttState τ} (h : SameFinals stt tr state state') :
    (outputs (finalStep (readmitted stt depth) tr) state turns).2 =
      (outputs (finalStep (readmitted stt depth') tr) state'
        (turns.filter (!·.segment.isPartial))).2 := by
  induction turns generalizing state state' with
  | nil => rfl
  | cons turn turns ih =>
    by_cases throwaway : turn.segment.isPartial = true
    · have later := ih (sttStep_partial_unseen depth undisturbed h throwaway)
      simpa [finalStep, throwaway] using later
    · have final : turn.segment.isPartial = false := by simpa using throwaway
      obtain ⟨next, events⟩ := sttStep_final_same depth depth' h final rfl rfl
      have later := ih next
      simp only [outputs_cons, List.filter_cons, final, Bool.not_false, if_true, finalStep,
        Bool.false_eq_true, if_false, events, next.last, next.channel]
      exact congrArg _ later

/-- Of a final only the segment and the decode duration are read. -/
theorem finalReadings_map (depth depth' : ℤ) (finals finals' : List Turn)
    {state state' : SttState τ} (h : SameFinals stt tr state state')
    (kinds : ∀ turn ∈ finals, turn.segment.isPartial = false)
    (same : finals.map (fun t => (t.segment, t.finishedAt - t.startedAt)) =
      finals'.map fun t => (t.segment, t.finishedAt - t.startedAt)) :
    (outputs (finalStep (readmitted stt depth) tr) state finals).2 =
      (outputs (finalStep (readmitted stt depth') tr) state' finals').2 := by
  induction finals generalizing finals' state state' with
  | nil =>
    have empty : finals' = [] := List.map_eq_nil_iff.mp same.symm
    rw [empty]
    rfl
  | cons turn finals ih =>
    cases finals' with
    | nil => simp at same
    | cons turn' finals' =>
      simp only [List.map_cons, List.cons.injEq, Prod.mk.injEq] at same
      obtain ⟨⟨segment, duration⟩, rest⟩ := same
      have final := kinds turn (by simp)
      obtain ⟨next, events⟩ := sttStep_final_same depth depth' h final
        segment.symm duration.symm
      have later := ih finals' next (fun t member => kinds t (by simp [member])) rest
      simp only [outputs_cons, finalStep, final, ← segment, Bool.false_eq_true, if_false, events,
        next.last, next.channel]
      exact congrArg _ later

/-- The final events of a run are those read after its finals. -/
theorem finalReadings_events (cfg : STTWorkerConfig) (state : SttState τ) (turns : List Turn) :
    (outputs (sttStep cfg tr) state turns).2.filter (·.isFinal) =
      (outputs (finalStep cfg tr) state turns).2.flatMap FinalReading.events := by
  induction turns generalizing state with
  | nil => rfl
  | cons turn turns ih =>
    obtain ⟨text, published⟩ := sttStep_events cfg tr state turn
    have later := ih (sttStep cfg tr state turn).1
    rw [outputs_cons, outputs_cons, List.filter_append, List.flatMap_append]
    refine congrArg₂ _ ?_ later
    by_cases throwaway : turn.segment.isPartial = true
    · rw [published]
      cases text <;> simp [finalStep, throwaway]
    · simp only [finalStep, if_neg throwaway, List.flatMap_singleton]
      rw [published]
      cases text <;> simp [throwaway]

theorem finals_undisturbed (undisturbed : Undisturbed stt tr) (depth' : ℤ) (state : SttState τ)
    {turns turns' : List Turn} (same : finalInputs turns = finalInputs turns') :
    (outputs (finalStep (readmitted stt depth) tr) state turns).2 =
      (outputs (finalStep (readmitted stt depth') tr) state turns').2 := by
  have kinds : ∀ turn ∈ turns.filter (!·.segment.isPartial), turn.segment.isPartial = false :=
    fun turn member => by simpa using (List.mem_filter.mp member).2
  calc (outputs (finalStep (readmitted stt depth) tr) state turns).2
      = (outputs (finalStep (readmitted stt depth) tr) state
          (turns.filter (!·.segment.isPartial))).2 :=
        finalReadings_filter depth undisturbed depth turns (SameFinals.refl state)
    _ = (outputs (finalStep (readmitted stt depth') tr) state
          (turns'.filter (!·.segment.isPartial))).2 :=
        finalReadings_map depth depth' _ _ (SameFinals.refl state) kinds same
    _ = (outputs (finalStep (readmitted stt depth') tr) state turns').2 :=
        (finalReadings_filter depth' undisturbed depth' turns' (SameFinals.refl state)).symm

end Stt

/-- Two runs of both workers over the same packets, with any partial settings: the same
finals go to every queue, no partial goes to the dump queue, and an STT worker whose
partial decodes disturb no session publishes the same finals with the same latencies. -/
theorem partials_do_not_interfere {σ : Type} (cfg : VADWorkerConfig) (it : VADIterator σ)
    (keys : ChannelKeys) (interval minimum : ℚ) (iterators : Str → σ) (events : List VadEvent) :
    let effects := (outputs (workerStep cfg it keys) (freshChannels it iterators) events).2
    let effects' := (outputs (workerStep (repaced cfg interval minimum) it keys)
      (freshChannels it iterators) events).2
    dumpQueue effects = dumpQueue effects' ∧
      (∀ segment ∈ dumpQueue effects, segment.isPartial = false) ∧
      ∀ c,
        (segmentQueue c effects).filter (!·.isPartial) =
          (segmentQueue c effects').filter (!·.isPartial) ∧
        ∀ {τ : Type} (stt : STTWorkerConfig) (depth : ℤ) (tr : Transcriber τ),
          Undisturbed stt tr → ∀ (state : SttState τ) (turns turns' : List Turn),
          turns.map Turn.segment = segmentQueue c effects →
          turns'.map Turn.segment = segmentQueue c effects' →
          ((turns.filter (!·.segment.isPartial)).map fun t => t.finishedAt - t.startedAt) =
            ((turns'.filter (!·.segment.isPartial)).map fun t => t.finishedAt - t.startedAt) →
          (outputs (sttStep stt tr) state turns).2.filter (·.isFinal) =
              (outputs (sttStep (readmitted stt depth) tr) state turns').2.filter (·.isFinal) ∧
            (outputs (finalStep stt tr) state turns).2 =
              (outputs (finalStep (readmitted stt depth) tr) state turns').2 := by
  intro effects effects'
  have same : fanned effects = fanned effects' :=
    fanned_repaced cfg it keys interval minimum iterators events
  have queues (c : Str) : (segmentQueue c effects).filter (!·.isPartial) =
      (segmentQueue c effects').filter (!·.isPartial) := by
    rw [segmentQueue, segmentQueue, ← (worker_sorted cfg it keys iterators events c).finals_eq,
      ← (worker_sorted (repaced cfg interval minimum) it keys iterators events c).finals_eq,
      finals_effectsOn, finals_effectsOn, same]
  refine ⟨by rw [dumpQueue_eq, dumpQueue_eq, same], dumpQueue_kind cfg it keys iterators events,
    fun c => ⟨queues c, ?_⟩⟩
  intro τ stt depth tr undisturbed state turns turns' handled handled' durations
  have segments : (turns.filter (!·.segment.isPartial)).map Turn.segment =
      (turns'.filter (!·.segment.isPartial)).map Turn.segment := by
    have queue := queues c
    rw [← handled, ← handled', List.filter_map, List.filter_map] at queue
    exact queue
  have inputs : finalInputs turns = finalInputs turns' := by
    have zipped (l : List Turn) : finalInputs l =
        ((l.filter (!·.segment.isPartial)).map Turn.segment).zip
          ((l.filter (!·.segment.isPartial)).map fun t => t.finishedAt - t.startedAt) := by
      rw [finalInputs, List.zip_map']
    rw [zipped, zipped, segments, durations]
  have readings := finals_undisturbed stt.partialMaxQueueDepth undisturbed depth state inputs
  refine ⟨?_, readings⟩
  rw [finalReadings_events, finalReadings_events]
  exact congrArg _ readings

section EagerPartials

/-- A model that completes one line in every session and raises on every prefix. -/
def finalsOnly : Transcriber Unit where
  removeAllListeners _ := (false, ())
  addListener _ := (false, ())
  start _ := ⟨false, [], ()⟩
  addAudio _ _ _ := ⟨false, [], ()⟩
  stop _ := ⟨false, [.completed ['a']], ()⟩
  transcribeWithoutStreaming _ _ _ := (none, ())

def queueTurns (cfg : VADWorkerConfig) (c : Str) : List Turn :=
  (segmentQueue c (outputs (workerStep cfg levelIterator channelsRT)
    (freshChannels levelIterator fun _ => false) twoChannelRun).2).map fun s => { segment := s }

theorem eager_does_not_interfere :
    (outputs (sttStep {} finalsOnly) { transcriber := () } (queueTurns eager ['r'])).2.filter
        (·.isFinal) =
      (outputs (sttStep (readmitted {} 5) finalsOnly) { transcriber := () }
        (queueTurns (repaced eager 0 0) ['r'])).2.filter (·.isFinal) := by
  have all := partials_do_not_interfere eager levelIterator channelsRT 0 0 (fun _ => false)
    twoChannelRun
  exact ((all.2.2 ['r']).2 {} 5 finalsOnly (fun _ _ _ _ => rfl) { transcriber := () }
    (queueTurns eager ['r']) (queueTurns (repaced eager 0 0) ['r'])
    (by simp [queueTurns, Function.comp_def]) (by simp [queueTurns, Function.comp_def])
    (by decide +kernel)).1

end EagerPartials

end EdgeVoice.PartialIsolation
