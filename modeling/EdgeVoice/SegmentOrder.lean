import EdgeVoice.ChunkTrace

/-! The order of a channel's finals. Two clocks give their times: a start and a VAD `end`
take a packet's arrival time, a cut and a flush count samples from the segment's start.
Where packets arrive faster than they play the counted times run ahead. They meet arrival
times again in two places: at the `end` that closes the tail of a cut, and at the start
that follows a flush. -/

namespace EdgeVoice.SegmentOrder
open PythonText Models VadWorker VadTrack ChunkTrace StepSystem

variable {σ : Type} (cfg : VADWorkerConfig) (it : VADIterator σ)

/-- Where a segment begins that the packet starts. -/
def openingTs (packet : AudioPacket) (state : ChannelState σ) : ℚ :=
  (state.preroll.head?.map Prod.fst).getD packet.timestamp

/-- A direct flush, or an idle check that is due. -/
def FlushDue (event : VadEvent) (state : ChannelState σ) : Prop :=
  match event with
  | .packet _ _ => False
  | .idleCheck now => 0 < cfg.idleFlushS ∧ cfg.idleFlushS ≤ now - state.lastPacketAt
  | .flush => True

/-- The end `_flush_channel` gives a segment that begins at `startTs`. -/
def flushEnd (startTs : ℚ) (state : ChannelState σ) : ℚ :=
  startTs + ((state.segmentChunks.map List.length).sum / 2 : ℕ) / cfg.sampleRate

/-- What an event does to the segment in progress, to its start and to the finals. -/
inductive TimesCase (event : VadEvent) (state : ChannelState σ)
    (result : ChannelState σ × List Effect) : Prop
  | still (silent : finals result.2 = [])
      (same : result.1.segmentStartTs = state.segmentStartTs)
      (preroll : ∀ entry ∈ result.1.preroll, entry ∈ state.preroll ∨
        ∃ packet now, event = .packet packet now ∧ entry.1 = packet.timestamp)
  | started (packet : AudioPacket) (now : ℚ) (received : event = .packet packet now)
      (reply : replyTo cfg it packet state = some .started)
      (before : state.segmentStartTs = none) (silent : finals result.2 = [])
      (after : result.1.segmentStartTs = some (openingTs packet state))
  | cut (segment : SpeechSegment) (before : state.segmentStartTs = some segment.start)
      (forward : segment.start ≤ segment.endTs) (emitted : finals result.2 = [segment])
      (after : result.1.segmentStartTs = some segment.endTs)
  | ended (packet : AudioPacket) (now : ℚ) (received : event = .packet packet now)
      (reply : replyTo cfg it packet state = some .ended) (segment : SpeechSegment)
      (before : state.segmentStartTs = some segment.start)
      (stamp : segment.endTs = packet.timestamp) (emitted : finals result.2 = [segment])
      (after : result.1.segmentStartTs = none) (preroll : result.1.preroll = [])
  | flushed (due : FlushDue cfg event state) (segment : SpeechSegment)
      (before : state.segmentStartTs = some segment.start) (nonempty : state.segmentChunks ≠ [])
      (counted : segment.endTs = flushEnd cfg segment.start state)
      (emitted : finals result.2 = [segment]) (after : result.1.segmentStartTs = none)

/-- The cut check: a final it emits ends where the segment in progress goes on. -/
inductive CutTimes (startTs : ℚ) (result : ChannelState σ × List Effect) : Prop
  | whole (silent : finals result.2 = []) (same : result.1.segmentStartTs = some startTs)
  | cut (segment : SpeechSegment) (start : segment.start = startTs)
      (forward : segment.start ≤ segment.endTs) (emitted : finals result.2 = [segment])
      (after : result.1.segmentStartTs = some segment.endTs)

variable {cfg it}

theorem maybeCut_times (c : Str) (packet : AudioPacket) {state : ChannelState σ} {startTs : ℚ}
    {segmentId : Str} (hs : state.segmentStartTs = some startTs)
    (hi : state.segmentId = some segmentId) :
    CutTimes startTs (maybeCut cfg it c packet state) ∧
      (maybeCut cfg it c packet state).1.segmentId.isSome = true ∧
      (maybeCut cfg it c packet state).1.preroll = state.preroll := by
  obtain ⟨scores, same | ⟨k, chunkS, nonneg, pos, inside, cut⟩⟩ :=
    maybeCut_cases cfg it c packet state
  · rw [same]
    exact ⟨.whole rfl hs, by simp [hi], rfl⟩
  · have opened := @cutSegment_open σ c k chunkS { state with scores := scores } startTs segmentId
      hs hi pos inside
    have forward : startTs ≤ startTs + k * chunkS := le_add_of_nonneg_right (by positivity)
    rw [cut, opened]
    exact ⟨.cut _ rfl forward rfl rfl, rfl, rfl⟩

/-- A partial is no final, and leaves the times alone. -/
theorem maybeEmitPartial_times (c : Str) (packet : AudioPacket) {state : ChannelState σ}
    {startTs : ℚ} {segmentId : Str} (hs : state.segmentStartTs = some startTs)
    (hi : state.segmentId = some segmentId) :
    finals (maybeEmitPartial cfg c packet state).2 = [] ∧
      (maybeEmitPartial cfg c packet state).1.segmentStartTs = state.segmentStartTs ∧
      (maybeEmitPartial cfg c packet state).1.preroll = state.preroll := by
  obtain same | ⟨segS, _, _, shown⟩ := maybeEmitPartial_cases cfg c packet hs hi
  · rw [same]
    exact ⟨rfl, rfl, rfl⟩
  · rw [shown]
    exact ⟨rfl, rfl, rfl⟩

theorem continueSegment_times (packet : AudioPacket) {state : ChannelState σ} {startTs : ℚ}
    {segmentId : Str} (hs : state.segmentStartTs = some startTs)
    (hi : state.segmentId = some segmentId) :
    CutTimes startTs (continueSegment cfg it packet state) ∧
      (continueSegment cfg it packet state).1.preroll = state.preroll := by
  unfold continueSegment
  simp only
  generalize hcut : (if cfg.segmentLimitsEnabled then maybeCut cfg it packet.channelId packet state
    else (state, [])) = cut
  have checked : CutTimes startTs cut ∧ cut.1.segmentId.isSome = true ∧
      cut.1.preroll = state.preroll := by
    rw [← hcut]
    split
    · exact maybeCut_times packet.channelId packet hs hi
    · exact ⟨.whole rfl hs, by simp [hi], rfl⟩
  obtain ⟨times, named, preroll⟩ := checked
  obtain ⟨onwardId, named⟩ := Option.isSome_iff_exists.mp named
  split
  · cases times with
    | whole silent same =>
      obtain ⟨quiet, begun, kept⟩ :=
        @maybeEmitPartial_times σ cfg packet.channelId packet _ _ _ same named
      exact ⟨.whole (by simp [silent, quiet]) (begun.trans same), kept.trans preroll⟩
    | cut segment start forward emitted after =>
      obtain ⟨quiet, begun, kept⟩ :=
        @maybeEmitPartial_times σ cfg packet.channelId packet _ _ _ after named
      exact ⟨.cut segment start forward (by simp [emitted, quiet]) (begun.trans after),
        kept.trans preroll⟩
  · exact ⟨times, preroll⟩

/-- A VAD `end` closes the segment at the arrival of its packet. -/
theorem handlePacket_ended {ok : ℚ → Prop} (packet : AudioPacket) (now : ℚ)
    {state : ChannelState σ} (h : Coherent ok cfg it state)
    (reply : replyTo cfg it packet state = some .ended) :
    ∃ segment : SpeechSegment, state.segmentStartTs = some segment.start ∧
      segment.endTs = packet.timestamp ∧
      finals (handlePacket cfg it packet now state).2 = [segment] ∧
      (handlePacket cfg it packet now state).1.segmentStartTs = none ∧
      (handlePacket cfg it packet now state).1.preroll = [] := by
  obtain ⟨chunk, answered, _⟩ := replyTo_call reply
  have protocol := it.call_protocol state.vadIter chunk
  rw [answered] at protocol
  have speaking : state.triggered = true := h.iterator.trans protocol.1
  obtain ⟨startTs, segmentId, hs, hi⟩ := h.open speaking
  rw [handlePacket_eq, reply]
  simp only [if_pos speaking, endSegment]
  rw [finalizeSegment_open packet.channelId packet.timestamp
    (show _ = some startTs by simpa using hs) (show _ = some segmentId by simpa using hi)
    (by simp)]
  exact ⟨_, hs, rfl, rfl, rfl, h.speech speaking⟩

/-- A packet of the channel, by what the iterator answers to it. -/
theorem handlePacket_times {ok : ℚ → Prop} (packet : AudioPacket) (now : ℚ)
    {state : ChannelState σ} (h : Coherent ok cfg it state) :
    TimesCase cfg it (.packet packet now) state (handlePacket cfg it packet now state) := by
  have equation := handlePacket_eq cfg it packet now state
  have pushed (heard : ChannelState σ) (same : heard.preroll = state.preroll) :
      ∀ entry ∈ (pushPreroll cfg packet heard).preroll, entry ∈ state.preroll ∨
        ∃ other later, (VadEvent.packet packet now) = .packet other later ∧
          entry.1 = other.timestamp := by
    intro entry member
    rcases List.mem_append.mp ((pushPreroll_sublist packet heard).subset member) with old | new
    · exact Or.inl (same ▸ old)
    · rw [List.mem_singleton.mp new]
      exact Or.inr ⟨packet, now, rfl, rfl⟩
  cases reply : replyTo cfg it packet state with
  | none =>
    rw [equation, reply]
    by_cases undecoded : pcmToFloat packet.samples = none
    · simp only [if_pos undecoded]
      exact .still rfl rfl fun entry member => Or.inl member
    · simp only [if_neg undecoded]
      exact .still rfl rfl (pushed _ rfl)
  | some answer =>
    obtain ⟨chunk, answered, _⟩ := replyTo_call reply
    have protocol := it.call_protocol state.vadIter chunk
    rw [answered] at protocol
    cases answer with
    | raised =>
      rw [equation, reply]
      exact .still rfl rfl fun entry member => Or.inl member
    | started =>
      rw [equation, reply]
      have quiet : state.triggered = false := h.iterator.trans protocol.1
      simp only [quiet, Bool.false_eq_true, if_false]
      exact .started packet now rfl reply (h.closed quiet).1 rfl rfl
    | ended =>
      obtain ⟨segment, before, stamp, emitted, after, preroll⟩ :=
        handlePacket_ended packet now h reply
      exact .ended packet now rfl reply segment before stamp emitted after preroll
    | nothing =>
      rw [equation, reply]
      by_cases speaking : state.triggered = true
      · obtain ⟨startTs, segmentId, hs, hi⟩ := h.open speaking
        simp only [if_pos speaking]
        generalize extended : ({ state with
          lastPacketAt := now, vadIter := heardIter it packet state,
          segmentChunks := state.segmentChunks ++ [packet.samples] } : ChannelState σ) = kept
        have begun : kept.segmentStartTs = some startTs := by rw [← extended, ← hs]
        have named : kept.segmentId = some segmentId := by rw [← extended, ← hi]
        have before : kept.preroll = state.preroll := by rw [← extended]
        obtain ⟨times, preroll⟩ := @continueSegment_times σ cfg it packet kept _ _ begun named
        cases times with
        | whole silent same =>
          refine .still silent (same.trans hs.symm) ?_
          rw [preroll, before]
          exact fun entry member => Or.inl member
        | cut segment start forward emitted after =>
          exact .cut segment (by rw [hs, start]) forward emitted after
      · simp only [if_neg speaking]
        exact .still rfl rfl (pushed _ rfl)

theorem flushChannel_times {ok : ℚ → Prop} (c : Str) {event : VadEvent} {state : ChannelState σ}
    (h : Coherent ok cfg it state) (due : FlushDue cfg event state) :
    TimesCase cfg it event state (flushChannel cfg it c state) := by
  unfold flushChannel
  by_cases speaking : state.triggered = true
  · obtain ⟨startTs, segmentId, hs, hi⟩ := h.open speaking
    simp only [hs]
    by_cases nonempty : state.segmentChunks = []
    · rw [if_pos nonempty]
      exact .still rfl rfl fun entry member => Or.inl member
    · rw [if_neg nonempty, finalizeSegment_open c _ hs hi nonempty]
      exact .flushed due _ hs nonempty rfl rfl rfl
  · rw [(h.closed (by simpa using speaking)).1]
    exact .still rfl rfl fun entry member => Or.inl member

/-- The step lemma: an event does one of five things to the times of the channel. -/
theorem channelStep_times {ok : ℚ → Prop} (c : Str) (event : VadEvent) {state : ChannelState σ}
    (h : Coherent ok cfg it state) :
    TimesCase cfg it event state (channelStep cfg it c state event) := by
  cases event with
  | packet packet now => exact handlePacket_times packet now h
  | idleCheck now =>
    simp only [channelStep]
    by_cases disabled : cfg.idleFlushS ≤ 0
    · rw [if_pos disabled]
      exact .still rfl rfl fun entry member => Or.inl member
    · rw [if_neg disabled]
      by_cases due : cfg.idleFlushS ≤ now - state.lastPacketAt
      · rw [if_pos due]
        exact flushChannel_times c h ⟨not_le.mp disabled, due⟩
      · rw [if_neg due]
        exact .still rfl rfl fun entry member => Or.inl member
  | flush => exact flushChannel_times c h trivial

section Run

variable (cfg it)
variable (keys : ChannelKeys) (iterators : Str → σ) (c : Str)

/-- The finals of a channel over a run of the worker, in order. -/
abbrev finalsOn (events : List VadEvent) : List SpeechSegment :=
  finals (effectsOn c (outputs (workerStep cfg it keys) (freshChannels it iterators) events).2)

/-- No VAD `end` comes in before the start of the segment it closes. -/
def EndsInTime (events : List VadEvent) : Prop :=
  ∀ past packet now later, events = past ++ .packet packet now :: later → packet.channelId = c →
    replyTo cfg it packet (reached cfg it keys iterators past c) = some .ended →
    ∀ startTs, (reached cfg it keys iterators past c).segmentStartTs = some startTs →
      startTs ≤ packet.timestamp

/-- An event flushes the channel's segment, whose samples count up to `endTs`. -/
def Flushes (past : List VadEvent) (event : VadEvent) (endTs : ℚ) : Prop :=
  FlushDue cfg event (reached cfg it keys iterators past c) ∧
    (reached cfg it keys iterators past c).segmentChunks ≠ [] ∧
    ∃ startTs, (reached cfg it keys iterators past c).segmentStartTs = some startTs ∧
      endTs = flushEnd cfg startTs (reached cfg it keys iterators past c)

/-- No packet opens a segment at a time before the counted end of a flushed one. -/
def StartsInTime (events : List VadEvent) : Prop :=
  ∀ past event seen packet now later,
    events = past ++ event :: (seen ++ .packet packet now :: later) → packet.channelId = c →
    replyTo cfg it packet (reached cfg it keys iterators (past ++ event :: seen) c) =
      some .started →
    ∀ endTs, Flushes cfg it keys iterators c past event endTs →
      endTs ≤ openingTs packet (reached cfg it keys iterators (past ++ event :: seen) c)

/-- What comes next cannot begin before this end: it is a packet's arrival and older than
all that waits, or the end of a flushed segment. -/
def Behind (past : List VadEvent) (endTs : ℚ) : Prop :=
  (endTs ∈ stampsOn c past ∧
      ∀ entry ∈ (reached cfg it keys iterators past c).preroll, endTs ≤ entry.1) ∨
    ∃ before event seen, past = before ++ event :: seen ∧
      Flushes cfg it keys iterators c before event endTs

/-- The finals are in order, and so is what the channel does next. -/
structure Ordered (past : List VadEvent) : Prop where
  chained : (finalsOn cfg it keys iterators c past).IsChain fun a b => a.endTs ≤ b.start
  opened : ∀ startTs, (reached cfg it keys iterators past c).segmentStartTs = some startTs →
    ∀ last ∈ (finalsOn cfg it keys iterators c past).getLast?, last.endTs ≤ startTs
  closed : (reached cfg it keys iterators past c).segmentStartTs = none →
    ∀ last ∈ (finalsOn cfg it keys iterators c past).getLast?,
      Behind cfg it keys iterators c past last.endTs

variable {cfg it keys iterators c}

theorem reached_coherent (configured : c ∈ keys.val) (events : List VadEvent) :
    Coherent (fun _ => True) cfg it (reached cfg it keys iterators events c) :=
  (worker_run (fun _ => True) cfg it keys iterators configured events fun _ _ _ => trivial).2

theorem finalsOn_concat (configured : c ∈ keys.val) (past : List VadEvent) (event : VadEvent) :
    finalsOn cfg it keys iterators c (past ++ [event]) =
      finalsOn cfg it keys iterators c past ++
        if concerns c event then
          finals (channelStep cfg it c (reached cfg it keys iterators past c) event).2
        else [] := by
  rw [finalsOn, effectsOn_concat cfg it keys iterators configured, finals_append]
  split
  · rfl
  · rfl

theorem StartsInTime.before {past : List VadEvent} {event : VadEvent}
    (h : StartsInTime cfg it keys iterators c (past ++ [event])) :
    StartsInTime cfg it keys iterators c past := by
  intro before flushing seen packet now later whole
  exact h before flushing seen packet now (later ++ [event]) (by rw [whole]; simp)

/-- A last final that ends no later than the segment in progress begins. -/
theorem chain_concat {segments : List SpeechSegment} {segment : SpeechSegment}
    (chained : segments.IsChain fun a b => a.endTs ≤ b.start)
    (behind : ∀ last ∈ segments.getLast?, last.endTs ≤ segment.start) :
    (segments ++ [segment]).IsChain fun a b => a.endTs ≤ b.start := by
  rw [List.isChain_append]
  refine ⟨chained, List.isChain_singleton _, ?_⟩
  intro last at_end next at_head
  cases at_head
  exact behind last at_end

theorem Behind.later {past : List VadEvent} {endTs : ℚ}
    (h : Behind cfg it keys iterators c past endTs) (event : VadEvent)
    (waits : endTs ∈ stampsOn c past →
      ∀ entry ∈ (reached cfg it keys iterators (past ++ [event]) c).preroll,
        entry ∈ (reached cfg it keys iterators past c).preroll ∨ endTs ≤ entry.1) :
    Behind cfg it keys iterators c (past ++ [event]) endTs := by
  rcases h with ⟨arrived, before⟩ | ⟨first, flushing, seen, rfl, flushes⟩
  · refine Or.inl ⟨?_, ?_⟩
    · rw [stampsOn_append]
      exact List.mem_append_left _ arrived
    · intro entry member
      rcases waits arrived entry member with old | new
      · exact before entry old
      · exact new
  · exact Or.inr ⟨first, flushing, seen ++ [event], by simp, flushes⟩

/-- A packet arrives no earlier than those before it. -/
theorem le_arrival {past : List VadEvent} {packet : AudioPacket} {now : ℚ}
    (own : packet.channelId = c)
    (nondecreasing : (stampsOn c (past ++ [.packet packet now])).Pairwise (· ≤ ·)) :
    ∀ stamp ∈ stampsOn c past, stamp ≤ packet.timestamp := by
  rw [stampsOn_append, List.pairwise_append] at nondecreasing
  intro stamp member
  exact nondecreasing.2.2 stamp member packet.timestamp (by simp [stampsOn, own])

/-- What is behind comes before the segment that a packet opens. -/
theorem Behind.opening {past : List VadEvent} {endTs : ℚ}
    (h : Behind cfg it keys iterators c past endTs) {packet : AudioPacket} {now : ℚ}
    (own : packet.channelId = c)
    (nondecreasing : (stampsOn c (past ++ [.packet packet now])).Pairwise (· ≤ ·))
    (starts : StartsInTime cfg it keys iterators c (past ++ [.packet packet now]))
    (reply : replyTo cfg it packet (reached cfg it keys iterators past c) = some .started) :
    endTs ≤ openingTs packet (reached cfg it keys iterators past c) := by
  rcases h with ⟨arrived, before⟩ | ⟨first, flushing, seen, rfl, flushes⟩
  · unfold openingTs
    cases waits : (reached cfg it keys iterators past c).preroll with
    | nil => exact le_arrival own nondecreasing endTs arrived
    | cons entry rest => exact before entry (by simp [waits])
  · exact starts first flushing seen packet now [] (by simp) own reply endTs flushes

/-- A final that closes the segment in progress, or its head. -/
theorem Ordered.concat {past : List VadEvent} {event : VadEvent}
    (h : Ordered cfg it keys iterators c past) {segment : SpeechSegment}
    (before : (reached cfg it keys iterators past c).segmentStartTs = some segment.start)
    (emitted : finalsOn cfg it keys iterators c (past ++ [event]) =
      finalsOn cfg it keys iterators c past ++ [segment])
    (opened : ∀ startTs,
      (reached cfg it keys iterators (past ++ [event]) c).segmentStartTs = some startTs →
        segment.endTs ≤ startTs)
    (closed : (reached cfg it keys iterators (past ++ [event]) c).segmentStartTs = none →
      Behind cfg it keys iterators c (past ++ [event]) segment.endTs) :
    Ordered cfg it keys iterators c (past ++ [event]) := by
  refine ⟨?_, ?_, ?_⟩
  · rw [emitted]
    exact chain_concat h.chained (h.opened segment.start before)
  · rw [emitted, List.getLast?_concat]
    intro startTs begun last at_end
    rw [← Option.some.inj at_end]
    exact opened startTs begun
  · rw [emitted, List.getLast?_concat]
    intro idle last at_end
    rw [← Option.some.inj at_end]
    exact closed idle

/-- The step lemma: one event keeps the order, whatever it does to the channel. -/
theorem Ordered.step (configured : c ∈ keys.val) {past : List VadEvent} {event : VadEvent}
    (h : Ordered cfg it keys iterators c past)
    (nondecreasing : (stampsOn c (past ++ [event])).Pairwise (· ≤ ·))
    (starts : StartsInTime cfg it keys iterators c (past ++ [event])) :
    Ordered cfg it keys iterators c (past ++ [event]) := by
  have emitted := @finalsOn_concat σ cfg it keys iterators c configured past event
  have after := reached_concat cfg it keys iterators configured past event
  by_cases mine : concerns c event = true
  · rw [if_pos mine] at emitted after
    have own : ∀ packet now, event = .packet packet now → packet.channelId = c := by
      rintro packet now rfl
      simpa [concerns] using mine
    have did := @channelStep_times σ cfg it _ c event _ (@reached_coherent σ cfg it keys iterators
      c configured past)
    generalize channelStep cfg it c (reached cfg it keys iterators past c) event = result
      at emitted after did
    cases did with
    | still silent same preroll =>
      rw [silent, List.append_nil] at emitted
      refine ⟨?_, ?_, ?_⟩
      · rw [emitted]
        exact h.chained
      · rw [emitted, after, same]
        exact h.opened
      · rw [emitted, after, same]
        intro idle last at_end
        refine (h.closed idle last at_end).later event fun arrived entry member => ?_
        rw [after] at member
        rcases preroll entry member with old | ⟨packet, now, rfl, stamp⟩
        · exact Or.inl old
        · right
          rw [stamp]
          exact le_arrival (own packet now rfl) nondecreasing last.endTs arrived
    | started packet now received reply before silent onward =>
      subst received
      rw [silent, List.append_nil] at emitted
      refine ⟨?_, ?_, ?_⟩
      · rw [emitted]
        exact h.chained
      · rw [emitted, after, onward]
        intro startTs begun last at_end
        rw [← Option.some.inj begun]
        exact (h.closed before last at_end).opening (own packet now rfl) nondecreasing starts reply
      · rw [after, onward]
        simp
    | cut segment before forward put onward =>
      rw [put] at emitted
      rw [← after] at onward
      refine h.concat before emitted (fun startTs begun => ?_) (fun idle => ?_)
      · rw [onward] at begun
        exact (Option.some.inj begun).le
      · rw [onward] at idle
        cases idle
    | ended packet now received reply segment before stamp put onward preroll =>
      rw [put] at emitted
      rw [← after] at onward preroll
      refine h.concat before emitted (fun startTs begun => ?_) (fun _ => ?_)
      · rw [onward] at begun
        cases begun
      · have arrived : .packet packet now ∈ past ++ [event] := by simp [received]
        rw [stamp]
        refine Or.inl ⟨mem_stampsOn arrived (own packet now received), ?_⟩
        rw [preroll]
        simp
    | flushed due segment before nonempty counted put onward =>
      rw [put] at emitted
      rw [← after] at onward
      refine h.concat before emitted (fun startTs begun => ?_) (fun _ => ?_)
      · rw [onward] at begun
        cases begun
      · exact Or.inr ⟨past, event, [], rfl, due, nonempty, segment.start, before, counted⟩
  · rw [if_neg mine] at emitted after
    rw [List.append_nil] at emitted
    refine ⟨?_, ?_, ?_⟩
    · rw [emitted]
      exact h.chained
    · rw [emitted, after]
      exact h.opened
    · rw [emitted, after]
      intro idle last at_end
      refine (h.closed idle last at_end).later event fun _ entry member => Or.inl ?_
      rw [← after]
      exact member

/-- One event ends its finals no earlier than they begin, but for a VAD `end` that comes in
before the start. -/
theorem forward_step (configured : c ∈ keys.val) (past : List VadEvent) (event : VadEvent) :
    (∀ segment ∈ finals (channelStep cfg it c (reached cfg it keys iterators past c) event).2,
        segment.start ≤ segment.endTs) ↔
      ∀ packet now, event = .packet packet now →
        replyTo cfg it packet (reached cfg it keys iterators past c) = some .ended →
        ∀ startTs, (reached cfg it keys iterators past c).segmentStartTs = some startTs →
          startTs ≤ packet.timestamp := by
  have coherent := @reached_coherent σ cfg it keys iterators c configured past
  constructor
  · rintro forward packet now rfl reply startTs begun
    obtain ⟨segment, before, stamp, emitted, _⟩ := handlePacket_ended packet now coherent reply
    have inOrder := forward segment (by simp [channelStep, emitted])
    rw [begun] at before
    rw [Option.some.inj before, ← stamp]
    exact inOrder
  · intro inTime segment member
    have did := channelStep_times c event coherent
    generalize channelStep cfg it c (reached cfg it keys iterators past c) event = result
      at member did
    cases did with
    | still silent => simp [silent] at member
    | started packet now received reply before silent => simp [silent] at member
    | cut final before forward emitted =>
      rw [emitted, List.mem_singleton] at member
      rw [member]
      exact forward
    | ended packet now received reply final before stamp emitted =>
      rw [emitted, List.mem_singleton] at member
      rw [member, stamp]
      exact inTime packet now received reply final.start before
    | flushed due final before nonempty counted emitted =>
      rw [emitted, List.mem_singleton] at member
      rw [member, counted, flushEnd]
      exact le_add_of_nonneg_right (by positivity)

/-- The same, event by event. -/
theorem endsInTime_iff (events : List VadEvent) :
    EndsInTime cfg it keys iterators c events ↔
      ∀ past event later, events = past ++ event :: later → ∀ packet now,
        event = .packet packet now → packet.channelId = c →
        replyTo cfg it packet (reached cfg it keys iterators past c) = some .ended →
        ∀ startTs, (reached cfg it keys iterators past c).segmentStartTs = some startTs →
          startTs ≤ packet.timestamp := by
  constructor
  · rintro inTime past event later whole packet now rfl
    exact inTime past packet now later whole
  · intro inTime past packet now later whole
    exact inTime past _ later whole packet now rfl

/-- All finals end no earlier than they begin exactly if every VAD `end` is in time. -/
theorem forward_iff (configured : c ∈ keys.val) (events : List VadEvent) :
    (∀ segment ∈ finalsOn cfg it keys iterators c events, segment.start ≤ segment.endTs) ↔
      EndsInTime cfg it keys iterators c events := by
  induction events using List.reverseRecOn with
  | nil => simp [finals, EndsInTime]
  | append_singleton past event ih =>
    rw [endsInTime_iff, forall_inputs_concat, ← endsInTime_iff, ← ih, finalsOn_concat configured]
    simp only [List.mem_append, or_imp, forall_and]
    refine and_congr_right fun _ => ?_
    by_cases mine : concerns c event = true
    · rw [if_pos mine, forward_step configured past event]
      constructor
      · intro now packet at_ same _
        exact now packet at_ same
      · rintro now packet at_ rfl
        exact now packet at_ rfl (by simpa [concerns] using mine)
    · rw [if_neg mine]
      constructor
      · rintro _ packet at_ rfl own
        exact absurd (by simp [concerns, own]) mine
      · simp

/-- The run lemma. -/
theorem run_ordered (configured : c ∈ keys.val) (events : List VadEvent)
    (nondecreasing : (stampsOn c events).Pairwise (· ≤ ·))
    (starts : StartsInTime cfg it keys iterators c events) :
    Ordered cfg it keys iterators c events := by
  induction events using List.reverseRecOn with
  | nil => exact ⟨by simp [finals], by simp [finals], by simp [finals]⟩
  | append_singleton past event ih =>
    have earlier : (stampsOn c past).Pairwise (· ≤ ·) := by
      rw [stampsOn_append, List.pairwise_append] at nondecreasing
      exact nondecreasing.1
    exact (ih earlier starts.before).step configured nondecreasing starts

variable (cfg it keys iterators)

/-- In every run over packets that arrive in order, of whatever lengths: the finals of a
channel each end no earlier than they begin exactly if every VAD `end` is in time, and each
begin no earlier than the one before ends if the starts are too. -/
theorem finals_in_order (configured : c ∈ keys.val) (events : List VadEvent)
    (nondecreasing : (stampsOn c events).Pairwise (· ≤ ·)) :
    ((∀ segment ∈ finalsOn cfg it keys iterators c events, segment.start ≤ segment.endTs) ↔
        EndsInTime cfg it keys iterators c events) ∧
      (StartsInTime cfg it keys iterators c events →
        (finalsOn cfg it keys iterators c events).IsChain fun a b => a.endTs ≤ b.start) :=
  ⟨forward_iff configured events, fun starts => (run_ordered configured events nondecreasing
    starts).chained⟩

end Run

section Runs

/-- Speech that a flush ends, and speech a second later. -/
def resumedRun : List VadEvent :=
  [.packet ⟨['r'], 0, [1, 0]⟩ 0, .flush, .packet ⟨['r'], 1, [1, 0]⟩ 1,
    .packet ⟨['r'], 2, [0, 0]⟩ 2]

theorem resumed_in_order :
    (∀ segment ∈ finalsOn ungated levelIterator channelR (fun _ => false) ['r'] resumedRun,
        segment.start ≤ segment.endTs) ∧
      (finalsOn ungated levelIterator channelR (fun _ => false) ['r'] resumedRun).IsChain
        fun a b => a.endTs ≤ b.start := by
  have both := finals_in_order ungated levelIterator channelR (fun _ => false)
    (c := ['r']) (by decide) resumedRun (by decide +kernel)
  refine ⟨by decide +kernel, both.2 ?_⟩
  intro past event seen packet now later whole _ reply endTs flushes
  obtain ⟨due, _, startTs, begun, counted⟩ := flushes
  have members : event ∈ resumedRun := by simp [whole]
  simp only [resumedRun, List.mem_cons, List.not_mem_nil, or_false] at members
  rcases members with rfl | rfl | rfl | rfl
  · exact due.elim
  · have only := @List.append_cons_inj_of_notMem _ [.packet ⟨['r'], 0, [1, 0]⟩ 0] past
      [.packet ⟨['r'], 1, [1, 0]⟩ 1, .packet ⟨['r'], 2, [0, 0]⟩ 2]
      (seen ++ .packet packet now :: later) .flush VadEvent.flush (by decide) (by decide)
    obtain ⟨rfl, _, rest⟩ := only.mp whole
    cases seen with
    | nil =>
      -- the flushed segment counts one sample after 0, and the packet comes in at 1
      cases rest
      have zero : (reached ungated levelIterator channelR (fun _ => false)
          [.packet ⟨['r'], 0, [1, 0]⟩ 0] ['r']).segmentStartTs = some 0 := by decide +kernel
      rw [zero] at begun
      cases begun
      rw [counted]
      decide +kernel
    | cons other seen =>
      cases seen with
      | nil =>
        cases rest
        exact absurd reply (by decide +kernel)
      | cons last seen => simp at rest
  · exact due.elim
  · exact due.elim

/-- Four packets at once: the limit cuts off the first three, the last ends the tail. -/
def burstRun : List VadEvent :=
  [.packet ⟨['r'], 0, [1, 0]⟩ 0, .packet ⟨['r'], 0, [1, 0]⟩ 0, .packet ⟨['r'], 0, [1, 0]⟩ 0,
    .packet ⟨['r'], 0, [0, 0]⟩ 0]

/-- The tail begins three samples after 0 and ends at 0. -/
theorem burst_ends_before_start :
    (stampsOn ['r'] burstRun).Pairwise (· ≤ ·) ∧
      ¬∀ segment ∈ finalsOn SegmentLifecycle.eager levelIterator channelR (fun _ => false) ['r']
        burstRun, segment.start ≤ segment.endTs := by
  decide +kernel

/-- Two packets at once that a flush ends, and the next no later. -/
def flushedBurst : List VadEvent :=
  [.packet ⟨['r'], 0, [1, 0]⟩ 0, .packet ⟨['r'], 0, [1, 0]⟩ 0, .flush,
    .packet ⟨['r'], 0, [1, 0]⟩ 0, .packet ⟨['r'], 0, [0, 0]⟩ 0]

/-- The first final ends two samples after 0, and the second begins at 0. -/
example : ¬(finalsOn ungated levelIterator channelR (fun _ => false) ['r'] flushedBurst).IsChain
    fun a b => a.endTs ≤ b.start := by
  decide +kernel

end Runs

end EdgeVoice.SegmentOrder
