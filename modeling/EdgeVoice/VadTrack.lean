import EdgeVoice.VadWorker

/-! What a channel does to its segments, stated without the code: at most one
open segment, which is opened, extended, shown as a partial, cut or closed. Opening
times meet any condition `ok` that the packets' timestamps meet.
Every event of a coherent channel state is such a run, so facts about segments
are proved on the five moves below and carried to the worker by `channelStep_run`. -/

namespace EdgeVoice.VadTrack
open PythonText Models VadWorker StepSystem

structure OpenSegment where
  startTs : ℚ
  segmentId : Str
  chunks : List (List UInt8)

/-- How many ids have been minted on the channel, and the open segment if any. -/
structure Track where
  minted : ℕ
  current : Option OpenSegment

/-- One move: the chunks it adds to the open segment, and its effects in order. -/
inductive Move (ok : ℚ → Prop) (channelId : Str) :
    Track → List (List UInt8) → List Effect → Track → Prop
  | opened (n : ℕ) (startTs : ℚ) (chunks : List (List UInt8)) (valid : ok startTs) :
    Move ok channelId ⟨n, none⟩ chunks [.minted (segmentIdText channelId startTs (n + 1))]
      ⟨n + 1, some ⟨startTs, segmentIdText channelId startTs (n + 1), chunks⟩⟩
  | extended (n : ℕ) (s : OpenSegment) (chunk : List UInt8) :
    Move ok channelId ⟨n, some s⟩ [chunk] [] ⟨n, some { s with chunks := s.chunks ++ [chunk] }⟩
  | shown (n : ℕ) (s : OpenSegment) (segS : ℚ) (nonempty : s.chunks ≠ []) :
    Move ok channelId ⟨n, some s⟩ []
      [.putNowait ⟨channelId, s.startTs, s.startTs + segS, s.chunks.flatten, s.segmentId, true⟩]
      ⟨n, some s⟩
  | cut (n : ℕ) (s : OpenSegment) (k : ℕ) (chunkS : ℚ) (pos : 0 < k) (inside : k ≤ s.chunks.length)
      (nonneg : 0 ≤ chunkS) :
    Move ok channelId ⟨n, some s⟩ []
      [.fanoutPut ⟨channelId, s.startTs, s.startTs + k * chunkS, (s.chunks.take k).flatten,
          s.segmentId, false⟩,
        .minted (segmentIdText channelId (s.startTs + k * chunkS) (n + 1))]
      ⟨n + 1, some ⟨s.startTs + k * chunkS,
        segmentIdText channelId (s.startTs + k * chunkS) (n + 1), s.chunks.drop k⟩⟩
  | closed (n : ℕ) (s : OpenSegment) (endTs : ℚ) (nonempty : s.chunks ≠ []) :
    Move ok channelId ⟨n, some s⟩ []
      [.fanoutPut ⟨channelId, s.startTs, endTs, s.chunks.flatten, s.segmentId, false⟩] ⟨n, none⟩

inductive Run (ok : ℚ → Prop) (channelId : Str) :
    Track → List (List UInt8) → List Effect → Track → Prop
  | refl (t : Track) : Run ok channelId t [] [] t
  | tail {t u v : Track} {chunks more : List (List UInt8)} {effects later : List Effect} :
    Run ok channelId t chunks effects u → Move ok channelId u more later v →
      Run ok channelId t (chunks ++ more) (effects ++ later) v

theorem Run.single {ok : ℚ → Prop} {c : Str} {t u : Track} {chunks : List (List UInt8)}
    {effects : List Effect}
    (h : Move ok c t chunks effects u) : Run ok c t chunks effects u := by
  simpa using (Run.refl t).tail h

theorem Run.trans {ok : ℚ → Prop} {c : Str} {t u v : Track} {chunks more : List (List UInt8)}
    {effects later : List Effect} (first : Run ok c t chunks effects u)
    (second : Run ok c u more later v) : Run ok c t (chunks ++ more) (effects ++ later) v := by
  induction second with
  | refl => simpa using first
  | tail _ move ih => simpa only [List.append_assoc] using ih.tail move

variable {σ : Type} (ok : ℚ → Prop) (cfg : VADWorkerConfig) (it : VADIterator σ)

/-- The fields agree on whether speech is in progress, and with the iterator. -/
structure Coherent (state : ChannelState σ) : Prop where
  iterator : state.triggered = it.triggered state.vadIter
  startTs : state.segmentStartTs.isSome = state.triggered
  segmentId : state.segmentId.isSome = state.triggered
  idle : state.triggered = false → state.segmentChunks = []
  speech : state.triggered = true → state.preroll = []
  prerollBound : state.preroll.length ≤ cfg.prerollChunks.toNat
  times : ∀ entry ∈ state.preroll, ok entry.1

/-- The abstract track of a channel state. -/
def track (state : ChannelState σ) : Track :=
  ⟨state.segCounter,
    match state.segmentStartTs, state.segmentId with
    | some startTs, some segmentId => some ⟨startTs, segmentId, state.segmentChunks⟩
    | _, _ => none⟩

theorem Coherent.fresh (vadIter : σ) (h : it.triggered vadIter = false) :
    Coherent ok cfg it { vadIter := vadIter } := by
  constructor <;> simp [h]

variable {ok cfg it}

theorem Coherent.open {state : ChannelState σ} (h : Coherent ok cfg it state)
    (speaking : state.triggered = true) :
    ∃ startTs segmentId,
      state.segmentStartTs = some startTs ∧ state.segmentId = some segmentId := by
  have hs := h.startTs
  have hi := h.segmentId
  rw [speaking] at hs hi
  obtain ⟨startTs, hs⟩ := Option.isSome_iff_exists.mp hs
  obtain ⟨segmentId, hi⟩ := Option.isSome_iff_exists.mp hi
  exact ⟨startTs, segmentId, hs, hi⟩

theorem Coherent.closed {state : ChannelState σ} (h : Coherent ok cfg it state)
    (quiet : state.triggered = false) :
    state.segmentStartTs = none ∧ state.segmentId = none := by
  have hs := h.startTs
  have hi := h.segmentId
  rw [quiet] at hs hi
  exact ⟨by simpa using hs, by simpa using hi⟩

theorem finalizeSegment_open (c : Str) (endTs : ℚ) {state : ChannelState σ} {startTs : ℚ}
    {segmentId : Str} (hs : state.segmentStartTs = some startTs)
    (hi : state.segmentId = some segmentId) (nonempty : state.segmentChunks ≠ []) :
    finalizeSegment c endTs state =
      ({ state with
          segmentChunks := [], segmentStartTs := none, segmentId := none, lastPartialS := 0 },
        [.fanoutPut ⟨c, startTs, endTs, state.segmentChunks.flatten, segmentId, false⟩]) := by
  simp [finalizeSegment, segmentIdOrNew, hs, hi, nonempty]

theorem cutSegment_open (c : Str) (k : ℕ) (chunkS : ℚ) {state : ChannelState σ} {startTs : ℚ}
    {segmentId : Str} (hs : state.segmentStartTs = some startTs)
    (hi : state.segmentId = some segmentId) (pos : 0 < k)
    (inside : k ≤ state.segmentChunks.length) :
    cutSegment c k chunkS state =
      ({ state with
          segmentChunks := state.segmentChunks.drop k
          segmentStartTs := some (startTs + k * chunkS)
          segmentId := some (segmentIdText c (startTs + k * chunkS) (state.segCounter + 1))
          segCounter := state.segCounter + 1
          scores := (state.scores.filter (k ≤ ·.1)).map fun p => (p.1 - k, p.2)
          lastPartialS := 0 },
        [.fanoutPut ⟨c, startTs, startTs + k * chunkS, (state.segmentChunks.take k).flatten,
            segmentId, false⟩,
          .minted (segmentIdText c (startTs + k * chunkS) (state.segCounter + 1))]) := by
  have head : state.segmentChunks.take k ≠ [] := by
    intro empty
    have short := congrArg List.length empty
    simp only [List.length_take, List.length_nil] at short
    omega
  have valid : ¬(k = 0 ∨ state.segmentChunks.length < k) := by omega
  unfold cutSegment
  simp only [hs, if_neg valid]
  rw [finalizeSegment_open c (startTs + k * chunkS) (show _ = some startTs by simp)
    (show _ = some segmentId by simp [hi]) head]
  simp [newSegmentId]

/-- A cut index outside the buffer leaves the segment alone. -/
theorem cutSegment_cases (c : Str) (k : ℕ) (chunkS : ℚ) (state : ChannelState σ) :
    cutSegment c k chunkS state = (state, []) ∨ (0 < k ∧ k ≤ state.segmentChunks.length) := by
  unfold cutSegment
  split
  · exact Or.inl rfl
  · split
    · exact Or.inl rfl
    · exact Or.inr (by omega)

variable (ok cfg it)

/-- Where `_maybe_cut` cuts a segment of `nChunks` chunks, if it does. -/
def cutIndex (samplesPerChunk nChunks : ℕ) (scores : List (ℕ × ℚ)) (lastScore : ℚ) : Option ℕ :=
  if samplesPerChunk ≤ 0 then none
  else
    let chunkS : ℚ := samplesPerChunk / cfg.sampleRate
    let segS := nChunks * chunkS
    if cfg.maxSegmentS ≤ segS then some nChunks
    else if cfg.softCutEnabled = false then none
    else if segS < cfg.softCutS - cfg.softCutLookaheadS then none
    else
      let scores := scores ++ [(nChunks - 1, lastScore)]
      if segS < cfg.softCutS then none
      else
        let lookaheadChunks := (max 1 (truncate (cfg.softCutLookaheadS / chunkS))).toNat
        match (scores.drop (scores.length - lookaheadChunks)).argmin Prod.snd with
        | none => none
        | some (minIdx, minScore) =>
          if minScore < lastScore - cfg.softCutMinDip then some (minIdx + 1) else none

/-- The duration of a packet. -/
def chunkSeconds (packet : AudioPacket) : ℚ := (packet.samples.length / 2 : ℕ) / cfg.sampleRate

theorem chunkSeconds_nonneg (packet : AudioPacket) : 0 ≤ chunkSeconds cfg packet := by
  unfold chunkSeconds
  positivity

/-- `_maybe_cut` cuts at its index, or only records a score. -/
theorem maybeCut_eq (c : Str) (packet : AudioPacket) (state : ChannelState σ) :
    ∃ scores, maybeCut cfg it c packet state =
      match cutIndex cfg (packet.samples.length / 2) state.segmentChunks.length state.scores
          (it.lastScore state.vadIter) with
      | none => ({ state with scores := scores }, [])
      | some k => cutSegment c k (chunkSeconds cfg packet) { state with scores := scores } := by
  unfold maybeCut cutIndex chunkSeconds
  simp only
  split
  · exact ⟨state.scores, rfl⟩
  split
  · exact ⟨state.scores, rfl⟩
  split
  · exact ⟨state.scores, rfl⟩
  split
  · exact ⟨state.scores, rfl⟩
  refine ⟨state.scores ++ [(state.segmentChunks.length - 1, it.lastScore state.vadIter)], ?_⟩
  split
  · rfl
  generalize (List.argmin Prod.snd _ : Option (ℕ × ℚ)) = best
  cases best with
  | none => rfl
  | some found =>
    simp only
    split <;> rfl

/-- The cut check records a score, cuts, or does nothing. -/
theorem maybeCut_cases (c : Str) (packet : AudioPacket) (state : ChannelState σ) :
    ∃ scores, maybeCut cfg it c packet state = ({ state with scores := scores }, []) ∨
      ∃ k chunkS, 0 ≤ chunkS ∧ 0 < k ∧ k ≤ state.segmentChunks.length ∧
        maybeCut cfg it c packet state =
          cutSegment c k chunkS { state with scores := scores } := by
  obtain ⟨scores, step⟩ := maybeCut_eq cfg it c packet state
  refine ⟨scores, ?_⟩
  rw [step]
  cases cutIndex cfg (packet.samples.length / 2) state.segmentChunks.length state.scores
      (it.lastScore state.vadIter) with
  | none => exact Or.inl rfl
  | some k =>
    rcases cutSegment_cases c k (chunkSeconds cfg packet) { state with scores := scores } with
      same | ⟨pos, inside⟩
    · exact Or.inl same
    · exact Or.inr ⟨k, _, chunkSeconds_nonneg cfg packet, pos, inside, rfl⟩

theorem maybeEmitPartial_cases (c : Str) (packet : AudioPacket) {state : ChannelState σ}
    {startTs : ℚ} {segmentId : Str} (hs : state.segmentStartTs = some startTs)
    (hi : state.segmentId = some segmentId) :
    maybeEmitPartial cfg c packet state = (state, []) ∨
      ∃ segS : ℚ, segS =
          state.segmentChunks.length * ((packet.samples.length / 2 : ℕ) / cfg.sampleRate) ∧
        state.segmentChunks ≠ [] ∧
        maybeEmitPartial cfg c packet state =
          ({ state with lastPartialS := segS },
            [.putNowait ⟨c, startTs, startTs + segS, state.segmentChunks.flatten, segmentId,
              true⟩]) := by
  unfold maybeEmitPartial
  simp only [hs]
  split
  · exact Or.inl rfl
  rename_i audible
  split
  · exact Or.inl rfl
  split
  · exact Or.inl rfl
  · exact Or.inr ⟨_, rfl, fun empty => audible (Or.inr empty),
      by simp [emitPartial, segmentIdOrNew, hi]⟩

theorem track_open {state : ChannelState σ} {startTs : ℚ} {segmentId : Str}
    (hs : state.segmentStartTs = some startTs) (hi : state.segmentId = some segmentId) :
    track state = ⟨state.segCounter, some ⟨startTs, segmentId, state.segmentChunks⟩⟩ := by
  simp [track, hs, hi]

theorem track_closed {state : ChannelState σ} (hs : state.segmentStartTs = none) :
    track state = ⟨state.segCounter, none⟩ := by
  simp [track, hs]

variable {ok cfg it}

/-- A cut keeps speech in progress and everything but the segment fields. -/
theorem cutSegment_run (c : Str) {k : ℕ} {chunkS : ℚ} {state : ChannelState σ}
    (h : Coherent ok cfg it state) (speaking : state.triggered = true) (nonneg : 0 ≤ chunkS)
    (pos : 0 < k) (inside : k ≤ state.segmentChunks.length) :
    Run ok c (track state) [] (cutSegment c k chunkS state).2
        (track (cutSegment c k chunkS state).1) ∧
      Coherent ok cfg it (cutSegment c k chunkS state).1 ∧
      (cutSegment c k chunkS state).1.triggered = true := by
  obtain ⟨startTs, segmentId, hs, hi⟩ := h.open speaking
  rw [cutSegment_open c k chunkS hs hi pos inside, track_open hs hi]
  refine ⟨Run.single
    (Move.cut _ ⟨startTs, segmentId, state.segmentChunks⟩ k chunkS pos inside nonneg),
    ⟨h.iterator, ?_, ?_, ?_, h.speech, h.prerollBound, h.times⟩, speaking⟩
  · simp [speaking]
  · simp [speaking]
  · simp [speaking]

theorem maybeCut_run (c : Str) (packet : AudioPacket) {state : ChannelState σ}
    (h : Coherent ok cfg it state) (speaking : state.triggered = true) :
    Run ok c (track state) [] (maybeCut cfg it c packet state).2
        (track (maybeCut cfg it c packet state).1) ∧
      Coherent ok cfg it (maybeCut cfg it c packet state).1 ∧
      (maybeCut cfg it c packet state).1.triggered = true := by
  obtain ⟨scores, same | ⟨k, chunkS, nonneg, pos, inside, cut⟩⟩ :=
    maybeCut_cases cfg it c packet state
  · rw [same]
    exact ⟨Run.refl _,
      ⟨h.iterator, h.startTs, h.segmentId, h.idle, h.speech, h.prerollBound, h.times⟩,
      speaking⟩
  · rw [cut]
    have scored : Coherent ok cfg it { state with scores := scores } :=
      ⟨h.iterator, h.startTs, h.segmentId, h.idle, h.speech, h.prerollBound, h.times⟩
    exact cutSegment_run c scored speaking nonneg pos inside

theorem maybeEmitPartial_run (c : Str) (packet : AudioPacket) {state : ChannelState σ}
    (h : Coherent ok cfg it state) (speaking : state.triggered = true) :
    Run ok c (track state) [] (maybeEmitPartial cfg c packet state).2
        (track (maybeEmitPartial cfg c packet state).1) ∧
      Coherent ok cfg it (maybeEmitPartial cfg c packet state).1 ∧
      (maybeEmitPartial cfg c packet state).1.triggered = true := by
  obtain ⟨startTs, segmentId, hs, hi⟩ := h.open speaking
  obtain same | ⟨segS, _, nonempty, shown⟩ := maybeEmitPartial_cases cfg c packet hs hi
  · rw [same]
    exact ⟨Run.refl _, h, speaking⟩
  · rw [shown, track_open hs hi, track_open (by simpa using hs) (by simpa using hi)]
    exact ⟨Run.single (Move.shown _ ⟨startTs, segmentId, state.segmentChunks⟩ segS nonempty),
      ⟨h.iterator, h.startTs, h.segmentId, h.idle, h.speech, h.prerollBound, h.times⟩, speaking⟩

theorem continueSegment_run (packet : AudioPacket) {state : ChannelState σ}
    (h : Coherent ok cfg it state) (speaking : state.triggered = true) :
    Run ok packet.channelId (track state) [] (continueSegment cfg it packet state).2
        (track (continueSegment cfg it packet state).1) ∧
      Coherent ok cfg it (continueSegment cfg it packet state).1 ∧
      (continueSegment cfg it packet state).1.triggered = true := by
  unfold continueSegment
  simp only
  generalize hcut : (if cfg.segmentLimitsEnabled then maybeCut cfg it packet.channelId packet state
    else (state, [])) = cut
  have cutRun : Run ok packet.channelId (track state) [] cut.2 (track cut.1) ∧
      Coherent ok cfg it cut.1 ∧ cut.1.triggered = true := by
    rw [← hcut]
    split
    · exact maybeCut_run packet.channelId packet h speaking
    · exact ⟨Run.refl _, h, speaking⟩
  obtain ⟨first, coherent, still⟩ := cutRun
  split
  · obtain ⟨second, coherent', still'⟩ :=
      maybeEmitPartial_run packet.channelId packet coherent still
    exact ⟨by simpa using first.trans second, coherent', still'⟩
  · exact ⟨first, coherent, still⟩

theorem startSegment_run (packet : AudioPacket) {state : ChannelState σ}
    (h : Coherent ok cfg it state) (v : σ) (quiet : state.triggered = false)
    (triggered : it.triggered v = true) (stamp : ok packet.timestamp) :
    Run ok packet.channelId (track state) (state.preroll.map Prod.snd ++ [packet.samples])
        (startSegment packet { state with vadIter := v }).2
        (track (startSegment packet { state with vadIter := v }).1) ∧
      Coherent ok cfg it (startSegment packet { state with vadIter := v }).1 := by
  have valid : ok ((state.preroll.head?.map Prod.fst).getD packet.timestamp) := by
    cases first : state.preroll with
    | nil => simpa using stamp
    | cons entry rest => simpa using h.times entry (by simp [first])
  rw [track_closed (h.closed quiet).1]
  refine ⟨Run.single (Move.opened _ _ _ valid), ⟨?_, ?_, ?_, ?_, ?_, ?_, ?_⟩⟩ <;>
    simp [startSegment, newSegmentId, triggered]

theorem endSegment_run (packet : AudioPacket) {state : ChannelState σ}
    (h : Coherent ok cfg it state) (v : σ) (speaking : state.triggered = true)
    (triggered : it.triggered v = false) :
    Run ok packet.channelId (track state) [packet.samples]
        (endSegment packet { state with
          vadIter := v, segmentChunks := state.segmentChunks ++ [packet.samples] }).2
        (track (endSegment packet { state with
          vadIter := v, segmentChunks := state.segmentChunks ++ [packet.samples] }).1) ∧
      Coherent ok cfg it (endSegment packet { state with
        vadIter := v, segmentChunks := state.segmentChunks ++ [packet.samples] }).1 ∧
      (endSegment packet { state with
        vadIter := v, segmentChunks := state.segmentChunks ++ [packet.samples] }).1.preroll = [] := by
  obtain ⟨startTs, segmentId, hs, hi⟩ := h.open speaking
  simp only [endSegment]
  rw [finalizeSegment_open packet.channelId packet.timestamp
    (show _ = some startTs by simpa using hs) (show _ = some segmentId by simpa using hi)
    (by simp), track_open hs hi]
  refine ⟨?_, ⟨?_, ?_, ?_, ?_, ?_, ?_, ?_⟩, h.speech speaking⟩
  · have extended := Run.single
      (@Move.extended ok packet.channelId state.segCounter
        ⟨startTs, segmentId, state.segmentChunks⟩ packet.samples)
    have closed := extended.tail (Move.closed _ _ packet.timestamp (by simp))
    simpa [track] using closed
  · simp [triggered]
  · simp
  · simp
  · simp
  · simp
  · simpa using h.prerollBound
  · simpa using h.times

theorem pushPreroll_bound (packet : AudioPacket) {state : ChannelState σ}
    (h : state.preroll.length ≤ cfg.prerollChunks.toNat) :
    (pushPreroll cfg packet state).preroll.length ≤ cfg.prerollChunks.toNat := by
  unfold pushPreroll
  simp only
  split
  · simpa using h
  · rename_i fits
    omega

theorem pushPreroll_sublist (packet : AudioPacket) (state : ChannelState σ) :
    (pushPreroll cfg packet state).preroll.Sublist
      (state.preroll ++ [(packet.timestamp, packet.samples)]) := by
  unfold pushPreroll
  simp only
  split
  · exact List.tail_sublist _
  · exact List.Sublist.refl _

theorem pushPreroll_times (packet : AudioPacket) {state : ChannelState σ}
    (stamp : ok packet.timestamp) (h : ∀ entry ∈ state.preroll, ok entry.1) :
    ∀ entry ∈ (pushPreroll cfg packet state).preroll, ok entry.1 := by
  intro entry member
  rcases List.mem_append.mp ((pushPreroll_sublist packet state).subset member) with old | new
  · exact h entry old
  · rw [List.mem_singleton.mp new]
    exact stamp

theorem pushPreroll_coherent (packet : AudioPacket) {state : ChannelState σ}
    (h : Coherent ok cfg it state) (quiet : state.triggered = false)
    (stamp : ok packet.timestamp) : Coherent ok cfg it (pushPreroll cfg packet state) :=
  ⟨h.iterator, h.startTs, h.segmentId, h.idle, by simp [pushPreroll, quiet],
    pushPreroll_bound packet h.prerollBound, pushPreroll_times packet stamp h.times⟩

variable (ok cfg it)

/-- `_handle_packet` raises: the samples do not decode, or the model raises. -/
def raises (packet : AudioPacket) (state : ChannelState σ) : Bool :=
  match pcmToFloat packet.samples with
  | none => true
  | some chunk =>
    !(cfg.rmsGateEnabled && !state.triggered && rmsBelow chunk cfg.silenceRmsFloor) &&
      (it.call state.vadIter chunk).1 = .raised

/-- The four things a packet can be to a coherent channel. -/
inductive PacketCase (packet : AudioPacket) (state : ChannelState σ)
    (result : ChannelState σ × List Effect) : Prop
  | raised (lost : raises cfg it packet state = true) (silent : result.2 = [])
      (same : track result.1 = track state) (preroll : result.1.preroll = state.preroll)
      (still : result.1.triggered = state.triggered)
  | outOfSpeech (heard : raises cfg it packet state = false) (before : state.triggered = false)
      (after : result.1.triggered = false) (silent : result.2 = [])
      (same : track result.1 = track state)
      (preroll : result.1.preroll = (pushPreroll cfg packet state).preroll)
  | started (heard : raises cfg it packet state = false) (before : state.triggered = false)
      (after : result.1.triggered = true)
      (run : Run ok packet.channelId (track state)
        (state.preroll.map Prod.snd ++ [packet.samples]) result.2 (track result.1))
      (preroll : result.1.preroll = [])
  | inSpeech (heard : raises cfg it packet state = false) (before : state.triggered = true)
      (run : Run ok packet.channelId (track state) [packet.samples] result.2 (track result.1))
      (preroll : result.1.preroll = [])

variable {ok cfg it}

theorem handlePacket_cases (packet : AudioPacket) (now : ℚ) {state : ChannelState σ}
    (h : Coherent ok cfg it state) (stamp : ok packet.timestamp) :
    PacketCase ok cfg it packet state (handlePacket cfg it packet now state) ∧
      Coherent ok cfg it (handlePacket cfg it packet now state).1 := by
  have stamped : Coherent ok cfg it { state with lastPacketAt := now } :=
    ⟨h.iterator, h.startTs, h.segmentId, h.idle, h.speech, h.prerollBound, h.times⟩
  have sameTrack : track { state with lastPacketAt := now } = track state := rfl
  unfold handlePacket
  cases decoded : pcmToFloat packet.samples with
  | none => exact ⟨.raised (by simp [raises, decoded]) rfl rfl rfl rfl, stamped⟩
  | some chunk =>
    simp only
    by_cases gated : (cfg.rmsGateEnabled && !state.triggered &&
        rmsBelow chunk cfg.silenceRmsFloor) = true
    · have quiet : state.triggered = false := by
        simp only [Bool.and_eq_true, Bool.not_eq_true'] at gated
        exact gated.1.2
      rw [if_pos gated]
      exact ⟨.outOfSpeech (by simp [raises, decoded, gated]) quiet quiet rfl rfl rfl,
        pushPreroll_coherent packet stamped quiet stamp⟩
    rw [if_neg gated]
    have protocol := it.call_protocol state.vadIter chunk
    cases reply : (it.call state.vadIter chunk).1 with
    | raised =>
      rw [reply] at protocol
      refine ⟨.raised (by simp [raises, decoded, gated, reply]) rfl rfl rfl rfl,
        ⟨?_, h.startTs, h.segmentId, h.idle, h.speech, h.prerollBound, h.times⟩⟩
      simpa only [protocol] using h.iterator
    | started =>
      rw [reply] at protocol
      have quiet : state.triggered = false := h.iterator.trans protocol.1
      have notSpeaking : ¬state.triggered = true := by simp [quiet]
      obtain ⟨run, coherent⟩ := startSegment_run packet stamped _ quiet protocol.2 stamp
      simp only [if_neg notSpeaking]
      exact ⟨.started (by simp [raises, decoded, gated, reply]) quiet rfl run rfl, coherent⟩
    | ended =>
      rw [reply] at protocol
      have speaking : state.triggered = true := h.iterator.trans protocol.1
      obtain ⟨run, coherent, preroll⟩ := endSegment_run packet stamped _ speaking protocol.2
      have heard : raises cfg it packet state = false := by simp [raises, decoded, gated, reply]
      simp only [if_pos speaking]
      exact ⟨.inSpeech heard speaking run preroll, coherent⟩
    | nothing =>
      rw [reply] at protocol
      have heard : raises cfg it packet state = false := by simp [raises, decoded, gated, reply]
      by_cases speaking : state.triggered = true
      · have extended : Coherent ok cfg it { state with
            lastPacketAt := now, vadIter := (it.call state.vadIter chunk).2,
            segmentChunks := state.segmentChunks ++ [packet.samples] } :=
          ⟨h.iterator.trans protocol.symm, h.startTs, h.segmentId, by simp [speaking], h.speech,
            h.prerollBound, h.times⟩
        obtain ⟨run, coherent, still⟩ := continueSegment_run packet extended speaking
        simp only [if_pos speaking]
        refine ⟨.inSpeech heard speaking ?_ (coherent.speech still), coherent⟩
        obtain ⟨startTs, segmentId, hs, hi⟩ := h.open speaking
        have first := Run.single (@Move.extended ok packet.channelId state.segCounter
          ⟨startTs, segmentId, state.segmentChunks⟩ packet.samples)
        rw [track_open hs hi]
        rw [track_open (by simpa using hs) (by simpa using hi)] at run
        simpa using first.trans run
      · have quiet : state.triggered = false := by simpa using speaking
        have still : Coherent ok cfg it { state with
            lastPacketAt := now, vadIter := (it.call state.vadIter chunk).2 } :=
          ⟨h.iterator.trans protocol.symm, h.startTs, h.segmentId, h.idle, h.speech,
            h.prerollBound, h.times⟩
        simp only [if_neg speaking]
        exact ⟨.outOfSpeech heard quiet quiet rfl rfl rfl,
          pushPreroll_coherent packet still quiet stamp⟩

/-- A flush closes the open segment, unless it is still empty just after a cut. -/
theorem flushChannel_run (c : Str) {state : ChannelState σ} (h : Coherent ok cfg it state) :
    Run ok c (track state) [] (flushChannel cfg it c state).2
        (track (flushChannel cfg it c state).1) ∧
      Coherent ok cfg it (flushChannel cfg it c state).1 ∧
      (flushChannel cfg it c state).1.preroll = state.preroll ∧
      ((flushChannel cfg it c state).1.triggered = state.triggered ∨
        (flushChannel cfg it c state).1.triggered = false) := by
  by_cases speaking : state.triggered = true
  · obtain ⟨startTs, segmentId, hs, hi⟩ := h.open speaking
    unfold flushChannel
    simp only [hs]
    split
    · exact ⟨Run.refl _, h, rfl, Or.inl rfl⟩
    · rename_i nonempty
      rw [finalizeSegment_open c _ hs hi nonempty, track_open hs hi]
      refine ⟨Run.single (Move.closed _ ⟨startTs, segmentId, state.segmentChunks⟩ _ nonempty),
        ⟨?_, ?_, ?_, ?_, ?_, ?_, ?_⟩, rfl, Or.inr rfl⟩
      · exact (it.reset_protocol _).symm
      · simp
      · simp
      · simp
      · simp
      · exact h.prerollBound
      · exact h.times
  · have hs := (h.closed (by simpa using speaking)).1
    have silent : flushChannel cfg it c state = (state, []) := by simp [flushChannel, hs]
    rw [silent]
    exact ⟨Run.refl _, h, rfl, Or.inl rfl⟩

/-- Every event of a coherent channel is a run of moves. -/
theorem channelStep_run (c : Str) {state : ChannelState σ} (h : Coherent ok cfg it state)
    (event : VadEvent) (own : ∀ packet now, event = .packet packet now →
      packet.channelId = c ∧ ok packet.timestamp) :
    (∃ chunks, Run ok c (track state) chunks (channelStep cfg it c state event).2
      (track (channelStep cfg it c state event).1)) ∧
      Coherent ok cfg it (channelStep cfg it c state event).1 := by
  cases event with
  | packet packet now =>
    obtain ⟨rfl, stamp⟩ := own packet now rfl
    obtain ⟨outcome, coherent⟩ := handlePacket_cases packet now h stamp
    refine ⟨?_, coherent⟩
    simp only [channelStep]
    cases outcome with
    | raised _ silent same =>
      rw [silent, same]
      exact ⟨[], Run.refl _⟩
    | outOfSpeech _ _ _ silent same =>
      rw [silent, same]
      exact ⟨[], Run.refl _⟩
    | started _ _ _ run => exact ⟨_, run⟩
    | inSpeech _ _ run => exact ⟨_, run⟩
  | idleCheck now =>
    simp only [channelStep]
    split
    · exact ⟨⟨[], Run.refl _⟩, h⟩
    split
    · obtain ⟨run, coherent, _⟩ := flushChannel_run c h
      exact ⟨⟨[], run⟩, coherent⟩
    · exact ⟨⟨[], Run.refl _⟩, h⟩
  | flush =>
    obtain ⟨run, coherent, _⟩ := flushChannel_run c h
    exact ⟨⟨[], run⟩, coherent⟩

/-- The finals handed to `fanout_put`. -/
def finals (effects : List Effect) : List SpeechSegment :=
  effects.filterMap fun
    | .fanoutPut segment => some segment
    | _ => none

@[simp] theorem finals_append (effects later : List Effect) :
    finals (effects ++ later) = finals effects ++ finals later := by
  simp [finals]

/-- The effects on one channel, in order. -/
def effectsOn (c : Str) (effects : List (Str × Effect)) : List Effect :=
  (effects.filter (·.1 = c)).map Prod.snd

@[simp] theorem effectsOn_nil (c : Str) : effectsOn c [] = [] := rfl

@[simp] theorem effectsOn_append (c : Str) (effects later : List (Str × Effect)) :
    effectsOn c (effects ++ later) = effectsOn c effects ++ effectsOn c later := by
  simp [effectsOn]

theorem effectsOn_tagged (c d : Str) (effects : List Effect) :
    effectsOn c (effects.map (d, ·)) = if d = c then effects else [] := by
  by_cases same : d = c
  · simp [effectsOn, same, Function.comp_def, List.filter_map]
  · simp [effectsOn, same, Function.comp_def, List.filter_map]

theorem effectsOn_flatMap (c : Str) (keys : List Str) (distinct : keys.Nodup)
    (configured : c ∈ keys) (effects : Str → List Effect) :
    effectsOn c (keys.flatMap fun d => (effects d).map (d, ·)) = effects c := by
  induction keys with
  | nil => simp at configured
  | cons d keys ih =>
    obtain ⟨fresh, distinct⟩ := List.nodup_cons.mp distinct
    rw [List.flatMap_cons, effectsOn_append, effectsOn_tagged]
    by_cases same : d = c
    · subst same
      have others : effectsOn d (keys.flatMap fun e => (effects e).map (e, ·)) = [] := by
        simp only [effectsOn, List.map_eq_nil_iff, List.filter_eq_nil_iff, List.mem_flatMap,
          List.mem_map, decide_eq_true_eq]
        rintro tagged ⟨e, member, effect, _, rfl⟩ rfl
        exact fresh member
      simp [others]
    · have later : c ∈ keys := by simpa [Ne.symm same] using configured
      simp [same, ih distinct later]

/-- Whether an event is one of this channel's own. -/
def concerns (c : Str) : VadEvent → Bool
  | .packet packet _ => packet.channelId = c
  | .idleCheck _ => true
  | .flush => true

variable (ok cfg it)

/-- The worker does to a configured channel what the channel's own step does. -/
theorem workerStep_channel (keys : ChannelKeys) (channels : Channels σ) (event : VadEvent)
    {c : Str} (configured : c ∈ keys.val) :
    ((workerStep cfg it keys channels event).1 c,
        effectsOn c (workerStep cfg it keys channels event).2) =
      if concerns c event then channelStep cfg it c (channels c) event else (channels c, []) := by
  cases event with
  | packet packet now =>
    simp only [workerStep, concerns, channelStep]
    by_cases own : packet.channelId = c
    · subst own
      simp [configured, effectsOn_tagged]
    · by_cases known : packet.channelId ∈ keys.val
      · simp [known, own, effectsOn_tagged, Function.update_of_ne (Ne.symm own)]
      · simp [known, own]
  | idleCheck now =>
    simp [workerStep, forEachChannel, concerns, configured,
      effectsOn_flatMap c keys.val keys.property configured]
  | flush =>
    simp [workerStep, forEachChannel, concerns, configured,
      effectsOn_flatMap c keys.val keys.property configured]

/-- A run of the worker is, on a configured channel, the run of the channel on the
events that concern it. -/
theorem worker_on_channel (keys : ChannelKeys) (channels : Channels σ) (events : List VadEvent)
    {c : Str} (configured : c ∈ keys.val) :
    ((outputs (workerStep cfg it keys) channels events).1 c,
        effectsOn c (outputs (workerStep cfg it keys) channels events).2) =
      outputs (channelStep cfg it c) (channels c) (events.filter (concerns c)) :=
  outputs_at rfl (effectsOn_append c)
    (fun channels event => workerStep_channel cfg it keys channels event configured) channels
    events

theorem workerStep_unconfigured (keys : ChannelKeys) (channels : Channels σ) (event : VadEvent)
    {c : Str} (other : c ∉ keys.val) :
    effectsOn c (workerStep cfg it keys channels event).2 = [] := by
  have elsewhere (event : VadEvent) :
      effectsOn c (forEachChannel cfg it keys channels event).2 = [] := by
    simp only [forEachChannel, effectsOn, List.map_eq_nil_iff, List.filter_eq_nil_iff,
      List.mem_flatMap, List.mem_map, decide_eq_true_eq]
    rintro tagged ⟨d, member, effect, _, rfl⟩ rfl
    exact other member
  cases event with
  | packet packet now =>
    simp only [workerStep]
    split
    · rename_i known
      have apart : packet.channelId ≠ c := fun same => other (same ▸ known)
      rw [effectsOn_tagged, if_neg apart]
    · rfl
  | idleCheck now => exact elsewhere _
  | flush => exact elsewhere _

theorem freshChannels_coherent (iterators : Str → σ) (c : Str) :
    Coherent ok cfg it (freshChannels it iterators c) :=
  Coherent.fresh ok cfg it _ (it.reset_protocol _)

variable {ok cfg it}

/-- A run of the channel on its own packets is a run of moves. -/
theorem channel_run (c : Str) {state : ChannelState σ} (h : Coherent ok cfg it state)
    (events : List VadEvent)
    (own : ∀ packet now, .packet packet now ∈ events →
      packet.channelId = c ∧ ok packet.timestamp) :
    (∃ chunks, Run ok c (track state) chunks (outputs (channelStep cfg it c) state events).2
      (track (outputs (channelStep cfg it c) state events).1)) ∧
      Coherent ok cfg it (outputs (channelStep cfg it c) state events).1 := by
  induction events generalizing state with
  | nil => exact ⟨⟨[], Run.refl _⟩, h⟩
  | cons event events ih =>
    obtain ⟨⟨chunks, step⟩, coherent⟩ := channelStep_run c h event (by
      rintro packet now rfl
      exact own packet now (by simp))
    obtain ⟨⟨more, run⟩, last⟩ := ih coherent fun packet now member =>
      own packet now (by simp [member])
    exact ⟨⟨chunks ++ more, step.trans run⟩, last⟩

/-- From any coherent state, a run of the worker is a run of moves on the channel. -/
theorem worker_run_from (keys : ChannelKeys) {c : Str} (configured : c ∈ keys.val)
    {channels : Channels σ} (h : Coherent ok cfg it (channels c)) (events : List VadEvent)
    (stamps : ∀ packet now, .packet packet now ∈ events → packet.channelId = c →
      ok packet.timestamp) :
    (∃ chunks, Run ok c (track (channels c)) chunks
      (effectsOn c (outputs (workerStep cfg it keys) channels events).2)
      (track ((outputs (workerStep cfg it keys) channels events).1 c))) ∧
      Coherent ok cfg it ((outputs (workerStep cfg it keys) channels events).1 c) := by
  have own (packet : AudioPacket) (now : ℚ)
      (member : .packet packet now ∈ events.filter (concerns c)) :
      packet.channelId = c ∧ ok packet.timestamp := by
    obtain ⟨member, mine⟩ := List.mem_filter.mp member
    have channel : packet.channelId = c := by simpa [concerns] using mine
    exact ⟨channel, stamps packet now member channel⟩
  have onChannel := channel_run c h (events.filter (concerns c)) own
  rw [← worker_on_channel cfg it keys channels events configured] at onChannel
  exact onChannel

variable (ok cfg it)

/-- A whole run of the worker is, on each configured channel, a run of moves. -/
theorem worker_run (keys : ChannelKeys) (iterators : Str → σ) {c : Str}
    (configured : c ∈ keys.val) (events : List VadEvent)
    (stamps : ∀ packet now, .packet packet now ∈ events → ok packet.timestamp) :
    (∃ chunks, Run ok c ⟨0, none⟩ chunks
      (effectsOn c (outputs (workerStep cfg it keys) (freshChannels it iterators) events).2)
      (track ((outputs (workerStep cfg it keys) (freshChannels it iterators) events).1 c))) ∧
      Coherent ok cfg it
        ((outputs (workerStep cfg it keys) (freshChannels it iterators) events).1 c) :=
  worker_run_from keys configured (freshChannels_coherent ok cfg it iterators c) events
    fun packet now member _ => stamps packet now member

/-- Nothing is emitted for a channel that is not configured. -/
theorem worker_unconfigured (keys : ChannelKeys) (iterators : Str → σ) {c : Str}
    (other : c ∉ keys.val) (events : List VadEvent) :
    effectsOn c (outputs (workerStep cfg it keys) (freshChannels it iterators) events).2 = [] := by
  refine outputs_history (workerStep cfg it keys) (P := fun _ effects _ => effectsOn c effects = [])
    rfl ?_ events
  intro past effects channels event ih
  rw [effectsOn_append, ih, workerStep_unconfigured cfg it keys channels event other]
  rfl

/-- The worker after a run of events. -/
abbrev reached (keys : ChannelKeys) (iterators : Str → σ) (events : List VadEvent) : Channels σ :=
  (outputs (workerStep cfg it keys) (freshChannels it iterators) events).1

theorem reached_concat (keys : ChannelKeys) (iterators : Str → σ) {c : Str}
    (configured : c ∈ keys.val) (past : List VadEvent) (event : VadEvent) :
    reached cfg it keys iterators (past ++ [event]) c =
      if concerns c event then
        (channelStep cfg it c (reached cfg it keys iterators past c) event).1
      else reached cfg it keys iterators past c := by
  have step := congrArg Prod.fst (workerStep_channel cfg it keys
    (reached cfg it keys iterators past) event configured)
  rw [reached, outputs_append, outputs_cons, outputs_nil]
  refine step.trans ?_
  split
  · rfl
  · rfl

theorem effectsOn_concat (keys : ChannelKeys) (iterators : Str → σ) {c : Str}
    (configured : c ∈ keys.val) (past : List VadEvent) (event : VadEvent) :
    effectsOn c (outputs (workerStep cfg it keys) (freshChannels it iterators)
        (past ++ [event])).2 =
      effectsOn c (outputs (workerStep cfg it keys) (freshChannels it iterators) past).2 ++
        if concerns c event then
          (channelStep cfg it c (reached cfg it keys iterators past c) event).2
        else [] := by
  have step := congrArg Prod.snd (workerStep_channel cfg it keys
    (reached cfg it keys iterators past) event configured)
  rw [outputs_append, effectsOn_append, outputs_cons, outputs_nil, List.append_nil]
  congr 1
  simp only at step
  rw [step]
  split
  · rfl
  · rfl

/-- The timestamps of a channel's packets. -/
def stampsOn (c : Str) (events : List VadEvent) : List ℚ :=
  events.filterMap fun
    | .packet packet _ => if packet.channelId = c then some packet.timestamp else none
    | _ => none

@[simp] theorem stampsOn_append (c : Str) (past later : List VadEvent) :
    stampsOn c (past ++ later) = stampsOn c past ++ stampsOn c later := by
  simp [stampsOn]

theorem mem_stampsOn {c : Str} {events : List VadEvent} {packet : AudioPacket} {now : ℚ}
    (member : .packet packet now ∈ events) (own : packet.channelId = c) :
    packet.timestamp ∈ stampsOn c events :=
  List.mem_filterMap.mpr ⟨_, member, by simp [own]⟩

end EdgeVoice.VadTrack
