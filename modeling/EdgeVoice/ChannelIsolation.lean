import EdgeVoice.ByteStream
import EdgeVoice.PartialIsolation

/-! Two runs of router and VAD worker that agree on one channel's packets. Seen at a channel
the router is that channel's buffer and the worker that channel's state, and without idle
flushes the only reading shared with the other channels, the clock, is written and never read. -/

namespace EdgeVoice.ChannelIsolation
open PythonText Models StepSystem ChannelRouter ByteStream VadWorker VadTrack SegmentLifecycle
  PartialIsolation

section Router

variable (r : Repacketizer) (channelIds : List Str)

/-- What the router puts on the routed queue for a sequence of packets. -/
def routed (packets : List AudioPacket) : List AudioPacket :=
  (outputs (routePacket r channelIds) (fun _ => {}) packets).2

variable {r channelIds}

theorem routePacket_channel {c : Str} (known : c ∈ channelIds) (buffers : Buffers)
    (packet : AudioPacket) :
    ((routePacket r channelIds buffers packet).1 c,
        onChannel c (routePacket r channelIds buffers packet).2) =
      if decide (packet.channelId = c) then feed r (buffers c) packet else (buffers c, []) := by
  by_cases listed : packet.channelId ∈ channelIds
  · rw [routePacket, if_pos listed]
    exact call_channel c buffers packet
  · have other : ¬packet.channelId = c := fun same => listed (same ▸ known)
    rw [routePacket, if_neg listed]
    simp [other]

/-- On a known channel the router does what the channel's own packets make of its buffer. -/
theorem routed_channel {c : Str} (known : c ∈ channelIds) (packets : List AudioPacket) :
    onChannel c (routed r channelIds packets) = (outputs (feed r) {} (onChannel c packets)).2 :=
  congrArg Prod.snd (outputs_at rfl (onChannel_append c) (routePacket_channel known)
    (fun _ => {}) packets)

theorem routed_unknown {c : Str} (unknown : c ∉ channelIds) (packets : List AudioPacket) :
    onChannel c (routed r channelIds packets) = [] := by
  refine outputs_history (routePacket r channelIds) (P := fun _ out _ => onChannel c out = [])
    rfl ?_ packets
  intro past out buffers packet ih
  rw [onChannel_append, ih, List.nil_append]
  by_cases listed : packet.channelId ∈ channelIds
  · have other : packet.channelId ≠ c := fun same => unknown (same ▸ listed)
    have carried : ∀ frame ∈ (call r buffers packet).2, frame.channelId = packet.channelId := by
      intro frame member
      rw [call_eq] at member
      exact ((feed_conserves _ packet).2.2 frame member).1
    rw [routePacket, if_pos listed]
    exact onChannel_none other carried
  · rw [routePacket, if_neg listed]
    rfl

end Router

section Clock

variable {σ : Type}

/-- A result at another arrival time. -/
def clocked (now : ℚ) (result : ChannelState σ × List Effect) : ChannelState σ × List Effect :=
  ({ result.1 with lastPacketAt := now }, result.2)

/-- A result with another iterator and at another arrival time. -/
def refitted (v : σ) (x : ℚ) (result : ChannelState σ × List Effect) :
    ChannelState σ × List Effect :=
  ({ result.1 with vadIter := v, lastPacketAt := x }, result.2)

variable (cfg : VADWorkerConfig) (it : VADIterator σ) (c : Str) (s : ChannelState σ) (v : σ)
  (x : ℚ)

theorem finalizeSegment_refitted (endTs : ℚ) :
    finalizeSegment c endTs { s with vadIter := v, lastPacketAt := x } =
      refitted v x (finalizeSegment c endTs s) := by
  obtain ⟨vadIter, triggered, preroll, chunks, startTs, segmentId⟩ := s
  cases startTs with
  | none => rfl
  | some startTs =>
    by_cases empty : chunks = []
    · simp only [finalizeSegment, if_pos empty]
      rfl
    · simp only [finalizeSegment, if_neg empty]
      cases segmentId with
      | none => rfl
      | some segmentId => rfl

theorem cutSegment_refitted (k : ℕ) (chunkS : ℚ) :
    cutSegment c k chunkS { s with vadIter := v, lastPacketAt := x } =
      refitted v x (cutSegment c k chunkS s) := by
  obtain ⟨vadIter, triggered, preroll, chunks, startTs, segmentId⟩ := s
  cases startTs with
  | none => rfl
  | some startTs =>
    by_cases outside : k = 0 ∨ chunks.length < k
    · simp only [cutSegment, if_pos outside]
      rfl
    simp only [cutSegment, if_neg outside, finalizeSegment]
    by_cases empty : chunks.take k = []
    · simp only [if_pos empty]
      rfl
    · simp only [if_neg empty]
      cases segmentId with
      | none => rfl
      | some segmentId => rfl

/-- The cut check reads nothing of the iterator but the score of the last chunk. -/
theorem maybeCut_refitted (packet : AudioPacket)
    (score : cfg.softCutEnabled = true → it.lastScore v = it.lastScore s.vadIter) :
    maybeCut cfg it c packet { s with vadIter := v, lastPacketAt := x } =
      refitted v x (maybeCut cfg it c packet s) := by
  unfold maybeCut
  simp only
  by_cases soundless : packet.samples.length / 2 ≤ 0
  · rw [if_pos soundless, if_pos soundless]
    rfl
  rw [if_neg soundless, if_neg soundless]
  generalize ((packet.samples.length / 2 : ℕ) : ℚ) / cfg.sampleRate = chunkS
  by_cases hard : cfg.maxSegmentS ≤ s.segmentChunks.length * chunkS
  · rw [if_pos hard, if_pos hard]
    exact cutSegment_refitted c s v x _ _
  rw [if_neg hard, if_neg hard]
  by_cases off : cfg.softCutEnabled = false
  · rw [if_pos off, if_pos off]
    rfl
  rw [if_neg off, if_neg off, score (by simpa using off)]
  by_cases far : s.segmentChunks.length * chunkS < cfg.softCutS - cfg.softCutLookaheadS
  · rw [if_pos far, if_pos far]
    rfl
  rw [if_neg far, if_neg far]
  by_cases near : s.segmentChunks.length * chunkS < cfg.softCutS
  · rw [if_pos near, if_pos near]
    rfl
  rw [if_neg near, if_neg near]
  generalize s.scores ++ [(s.segmentChunks.length - 1, it.lastScore s.vadIter)] = scores
  cases (scores.drop (scores.length -
      (max 1 (truncate (cfg.softCutLookaheadS / chunkS))).toNat)).argmin Prod.snd with
  | none => rfl
  | some least =>
    simp only
    by_cases dip : least.2 < it.lastScore s.vadIter - cfg.softCutMinDip
    · rw [if_pos dip, if_pos dip]
      exact cutSegment_refitted c { s with scores := scores } v x _ _
    · rw [if_neg dip, if_neg dip]
      rfl

theorem maybeEmitPartial_refitted (packet : AudioPacket) :
    maybeEmitPartial cfg c packet { s with vadIter := v, lastPacketAt := x } =
      refitted v x (maybeEmitPartial cfg c packet s) := by
  obtain ⟨vadIter, triggered, preroll, chunks, startTs, segmentId⟩ := s
  cases startTs with
  | none => rfl
  | some startTs =>
    unfold maybeEmitPartial
    simp only
    by_cases idle : packet.samples.length / 2 ≤ 0 ∨ chunks = []
    · rw [if_pos idle, if_pos idle]
      rfl
    rw [if_neg idle, if_neg idle]
    split
    · rfl
    split
    · rfl
    · cases segmentId with
      | none => rfl
      | some segmentId => rfl

theorem continueSegment_refitted (packet : AudioPacket)
    (score : cfg.segmentLimitsEnabled = true → cfg.softCutEnabled = true →
      it.lastScore v = it.lastScore s.vadIter) :
    continueSegment cfg it packet { s with vadIter := v, lastPacketAt := x } =
      refitted v x (continueSegment cfg it packet s) := by
  have cut : (if cfg.segmentLimitsEnabled then
        maybeCut cfg it packet.channelId packet { s with vadIter := v, lastPacketAt := x }
      else ({ s with vadIter := v, lastPacketAt := x }, [])) =
      refitted v x (if cfg.segmentLimitsEnabled then maybeCut cfg it packet.channelId packet s
        else (s, [])) := by
    split
    · rename_i limited
      exact maybeCut_refitted cfg it packet.channelId s v x packet (score limited)
    · rfl
  unfold continueSegment
  simp only
  rw [cut]
  generalize (if cfg.segmentLimitsEnabled then maybeCut cfg it packet.channelId packet s
    else (s, [])) = now
  by_cases paced : 0 < cfg.partialIntervalS
  · rw [if_pos paced, if_pos paced]
    simp only [refitted, maybeEmitPartial_refitted]
  · rw [if_neg paced, if_neg paced]

variable {v x} in
theorem refitted_clocked {result : ChannelState σ × List Effect}
    (same : result = refitted v x result) (y : ℚ) : refitted v y result = clocked y result := by
  have kept : result.1.vadIter = v := congrArg (fun r => r.1.vadIter) same
  simp [refitted, clocked, kept]

theorem finalizeSegment_clocked (endTs : ℚ) :
    finalizeSegment c endTs { s with lastPacketAt := x } =
      clocked x (finalizeSegment c endTs s) :=
  (finalizeSegment_refitted c s s.vadIter x endTs).trans
    (refitted_clocked (finalizeSegment_refitted c s s.vadIter s.lastPacketAt endTs) x)

theorem continueSegment_clocked (packet : AudioPacket) :
    continueSegment cfg it packet { s with lastPacketAt := x } =
      clocked x (continueSegment cfg it packet s) :=
  (continueSegment_refitted cfg it s s.vadIter x packet fun _ _ => rfl).trans
    (refitted_clocked (continueSegment_refitted cfg it s s.vadIter s.lastPacketAt packet
      fun _ _ => rfl) x)

theorem flushChannel_clocked :
    flushChannel cfg it c { s with lastPacketAt := x } = clocked x (flushChannel cfg it c s) := by
  obtain ⟨vadIter, triggered, preroll, chunks, startTs, segmentId⟩ := s
  cases startTs with
  | none => rfl
  | some startTs =>
    by_cases empty : chunks = []
    · simp only [flushChannel, if_pos empty]
      rfl
    · simp only [flushChannel, if_neg empty, finalizeSegment]
      cases segmentId with
      | none => rfl
      | some segmentId => rfl

/-- The arrival time is all that a packet's reading of the clock leaves behind. -/
theorem handlePacket_clocked (packet : AudioPacket) (now now' : ℚ) :
    handlePacket cfg it packet now { s with lastPacketAt := x } =
      clocked now (handlePacket cfg it packet now' s) := by
  unfold handlePacket
  cases pcmToFloat packet.samples with
  | none => rfl
  | some chunk =>
    simp only
    by_cases gated : (cfg.rmsGateEnabled && !s.triggered &&
        rmsBelow chunk cfg.silenceRmsFloor) = true
    · rw [if_pos gated, if_pos gated]
      rfl
    rw [if_neg gated, if_neg gated]
    by_cases speaking : s.triggered = true
    · simp only [if_pos speaking]
      cases (it.call s.vadIter chunk).1 with
      | raised => rfl
      | started => rfl
      | ended =>
        have closed := finalizeSegment_clocked packet.channelId
          { s with
            lastPacketAt := now', vadIter := (it.call s.vadIter chunk).2, triggered := false,
            segmentChunks := s.segmentChunks ++ [packet.samples] } now packet.timestamp
        simp only at closed
        simp only [endSegment, closed]
        rfl
      | nothing =>
        exact continueSegment_clocked cfg it
          { s with
            lastPacketAt := now', vadIter := (it.call s.vadIter chunk).2
            segmentChunks := s.segmentChunks ++ [packet.samples] } now packet
    · simp only [if_neg speaking]
      cases (it.call s.vadIter chunk).1 with
      | raised => rfl
      | started => rfl
      | ended =>
        have closed := finalizeSegment_clocked packet.channelId
          { s with
            lastPacketAt := now', vadIter := (it.call s.vadIter chunk).2, triggered := false }
          now packet.timestamp
        simp only at closed
        simp only [endSegment, closed]
        rfl
      | nothing => rfl

/-- What an event does to a channel that idle checks leave alone, whatever the clock reads. -/
def timeless : VadEvent → List VadEvent
  | .packet packet _ => [.packet packet 0]
  | .idleCheck _ => []
  | .flush => [.flush]

/-- A run of a channel, its clock readings and idle checks left out. -/
theorem channel_timeless (never : cfg.idleFlushS ≤ 0) (events : List VadEvent) :
    (outputs (channelStep cfg it c) s events).2 =
      (outputs (channelStep cfg it c) s (events.flatMap timeless)).2 := by
  have simulated := outputs_simulates (channelStep cfg it c) (channelStep cfg it c)
    (fun t t' => ∃ y, t = { t' with lastPacketAt := y }) timeless (fun o => [o]) (fun o => [o])
    (s := s) (t := s) ?_ ⟨s.lastPacketAt, rfl⟩ events
  · simpa using simulated.2
  · rintro _ t event ⟨y, rfl⟩
    cases event with
    | packet packet now =>
      have same := handlePacket_clocked cfg it t y packet now 0
      simp only [timeless, outputs_cons, outputs_nil, channelStep, same, List.append_nil]
      exact ⟨⟨now, rfl⟩, rfl⟩
    | idleCheck now =>
      simp only [timeless, outputs_nil, channelStep, if_pos never]
      exact ⟨⟨y, rfl⟩, trivial⟩
    | flush =>
      have same := flushChannel_clocked cfg it c t y
      simp only [timeless, outputs_cons, outputs_nil, channelStep, same, List.append_nil]
      exact ⟨⟨y, rfl⟩, rfl⟩

end Clock

section TwoRuns

/-- The packet an event brings. -/
def frameOf : VadEvent → Option AudioPacket
  | .packet packet _ => some packet
  | _ => none

/-- The worker's loop over a routed queue: its packets in order, each read at some time, with
idle checks at any time. -/
structure Reads (events : List VadEvent) (frames : List AudioPacket) : Prop where
  packets : events.filterMap frameOf = frames
  running : VadEvent.flush ∉ events

instance (events : List VadEvent) (frames : List AudioPacket) : Decidable (Reads events frames) :=
  decidable_of_iff (events.filterMap frameOf = frames ∧ VadEvent.flush ∉ events)
    ⟨fun h => ⟨h.1, h.2⟩, fun h => ⟨h.packets, h.running⟩⟩

theorem Reads.timeless {events : List VadEvent} {frames : List AudioPacket}
    (reads : Reads events frames) (c : Str) :
    (events.filter (concerns c)).flatMap timeless =
      (onChannel c frames).map fun packet => .packet packet 0 := by
  obtain ⟨rfl, running⟩ := reads
  induction events with
  | nil => rfl
  | cons event events ih =>
    have rest : VadEvent.flush ∉ events := fun member => running (List.mem_cons_of_mem _ member)
    cases event with
    | packet packet now =>
      by_cases own : packet.channelId = c
      · simpa [concerns, own, frameOf, onChannel, ChannelIsolation.timeless] using ih rest
      · simpa [concerns, own, frameOf, onChannel, ChannelIsolation.timeless] using ih rest
    | idleCheck now =>
      have skipped : (VadEvent.idleCheck now :: events).filterMap frameOf =
          events.filterMap frameOf := rfl
      have kept : (VadEvent.idleCheck now :: events).filter (concerns c) =
          .idleCheck now :: events.filter (concerns c) := rfl
      rw [skipped, kept, List.flatMap_cons]
      exact ih rest
    | flush => exact absurd List.mem_cons_self running

variable {σ : Type} (cfg : VADWorkerConfig) (it : VADIterator σ)

/-- All that reaches a segment queue depends on the channel's own frames. -/
theorem segmentQueue_timeless (never : cfg.idleFlushS ≤ 0) (keys : ChannelKeys)
    (iterators : Str → σ) {c : Str} (known : c ∈ keys.val) {events : List VadEvent}
    {frames : List AudioPacket} (reads : Reads events frames) (last : List VadEvent)
    (shutdown : last = [] ∨ last = [.flush]) :
    segmentQueue c (outputs (workerStep cfg it keys) (freshChannels it iterators)
        (events ++ last)).2 =
      puts (outputs (channelStep cfg it c) (freshChannels it iterators c)
        (((onChannel c frames).map fun packet => .packet packet 0) ++ last)).2 := by
  have own := congrArg Prod.snd (worker_on_channel cfg it keys (freshChannels it iterators)
    (events ++ last) known)
  have quiet : (last.filter (concerns c)).flatMap timeless = last := by
    rcases shutdown with rfl | rfl
    · rfl
    · rfl
  simp only at own
  rw [segmentQueue, own, channel_timeless cfg it c _ never, List.filter_append,
    List.flatMap_append, reads.timeless, quiet]

/-- Two runs that agree on the packets of a channel route the same packets on it, and put the
same segments on its queue, whatever the other channels do and whenever the packets are read. -/
theorem channels_isolated (never : cfg.idleFlushS ≤ 0) (keys : ChannelKeys) (iterators : Str → σ)
    (r : Repacketizer) (c : Str) {packets packets' : List AudioPacket}
    (same : onChannel c packets = onChannel c packets') {events events' : List VadEvent}
    (reads : Reads events (routed r keys.val packets))
    (reads' : Reads events' (routed r keys.val packets')) (last : List VadEvent)
    (shutdown : last = [] ∨ last = [.flush]) :
    onChannel c (routed r keys.val packets) = onChannel c (routed r keys.val packets') ∧
      segmentQueue c (outputs (workerStep cfg it keys) (freshChannels it iterators)
          (events ++ last)).2 =
        segmentQueue c (outputs (workerStep cfg it keys) (freshChannels it iterators)
          (events' ++ last)).2 := by
  by_cases known : c ∈ keys.val
  · have frames : onChannel c (routed r keys.val packets) =
        onChannel c (routed r keys.val packets') := by
      rw [routed_channel known, routed_channel known, same]
    refine ⟨frames, ?_⟩
    rw [segmentQueue_timeless cfg it never keys iterators known reads last shutdown,
      segmentQueue_timeless cfg it never keys iterators known reads' last shutdown, frames]
  · refine ⟨by rw [routed_unknown known, routed_unknown known], ?_⟩
    rw [segmentQueue, segmentQueue, worker_unconfigured cfg it keys iterators known,
      worker_unconfigured cfg it keys iterators known]

/-- Never idle, and speech goes by level alone. -/
def unflushed : VADWorkerConfig := { ungated with idleFlushS := 0 }

/-- Two bytes in, two bytes out. -/
def sampleWise : Repacketizer := ⟨2, 2, 1, Nat.two_pos⟩

/-- A word on one channel, alone and with packets of the other, of a third and of no size. -/
theorem word_isolated :
    segmentQueue ['r'] (outputs (workerStep unflushed levelIterator channelsRT)
        (freshChannels levelIterator fun _ => false)
        ([.packet ⟨['r'], 0, [1, 0]⟩ 5, .packet ⟨['r'], 1, [0, 0]⟩ 9] ++ [.flush])).2 =
      segmentQueue ['r'] (outputs (workerStep unflushed levelIterator channelsRT)
        (freshChannels levelIterator fun _ => false)
        ([.packet ⟨['t'], 0, [1, 0]⟩ 1, .packet ⟨['r'], 0, [1, 0]⟩ 2, .idleCheck 3,
          .packet ⟨['r'], 1, [0, 0]⟩ 4] ++ [.flush])).2 :=
  (channels_isolated unflushed levelIterator (by decide) channelsRT (fun _ => false) sampleWise
    ['r'] (show onChannel ['r'] [⟨['r'], 0, [1, 0]⟩, ⟨['r'], 1, [0, 0]⟩] =
      onChannel ['r'] [⟨['t'], 0, [1, 0]⟩, ⟨['x'], 0, [1, 0]⟩, ⟨['r'], 0, [1, 0]⟩,
        ⟨['t'], 1, []⟩, ⟨['r'], 1, [0, 0]⟩] from rfl)
    (by decide +kernel) (by decide +kernel) [.flush] (Or.inr rfl)).2

end TwoRuns

end EdgeVoice.ChannelIsolation
