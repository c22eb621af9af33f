import EdgeVoice.SegmentOrder

/-! What an event leaves of a channel's state, with every field. `channelStep_case` lists
all that can happen to a coherent channel, `continueSegment_case` all that the cut check
and the partial can do to the segment in progress. -/

namespace EdgeVoice.VadCases
open PythonText Models VadWorker VadTrack ChunkTrace SegmentOrder StepSystem

section Numbered

variable {α : Type*} {scores : List (ℕ × α)}

/-- A score with the next number keeps the numbers increasing. -/
theorem increasing_concat {m : ℕ} (increasing : (scores.map Prod.fst).Pairwise (· < ·))
    (inside : ∀ entry ∈ scores, entry.1 < m) (score : α) :
    ((scores ++ [(m, score)]).map Prod.fst).Pairwise (· < ·) := by
  rw [List.map_append, List.pairwise_append]
  refine ⟨increasing, List.pairwise_singleton _ _, fun i old j new => ?_⟩
  obtain ⟨entry, member, rfl⟩ := List.mem_map.mp old
  simp only [List.map_cons, List.map_nil, List.mem_singleton] at new
  rw [new]
  exact inside entry member

/-- So does a cut, which numbers the scores of the tail anew. -/
theorem increasing_cut (increasing : (scores.map Prod.fst).Pairwise (· < ·)) (k : ℕ) :
    (((scores.filter (k ≤ ·.1)).map fun p => (p.1 - k, p.2)).map Prod.fst).Pairwise (· < ·) := by
  have sorted := (List.pairwise_map.mp increasing).sublist
    (List.filter_sublist (p := fun entry => decide (k ≤ entry.1)))
  simp only [List.pairwise_map]
  refine sorted.imp_of_mem fun {i j} first _ before => ?_
  have late := (List.mem_filter.mp first).2
  simp only [decide_eq_true_eq] at late
  omega

theorem mem_of_mem_cut {k : ℕ} {entry : ℕ × α}
    (member : entry ∈ (scores.filter (k ≤ ·.1)).map fun p => (p.1 - k, p.2)) :
    (entry.1 + k, entry.2) ∈ scores := by
  obtain ⟨old, inside, rfl⟩ := List.mem_map.mp member
  obtain ⟨inside, late⟩ := List.mem_filter.mp inside
  simp only [decide_eq_true_eq] at late
  rwa [Nat.sub_add_cancel late]

end Numbered

section Cases

variable {σ : Type} (cfg : VADWorkerConfig) (it : VADIterator σ)

/-- The channel after the iterator answered. -/
def heard (packet : AudioPacket) (now : ℚ) (state : ChannelState σ) : ChannelState σ :=
  { state with lastPacketAt := now, vadIter := heardIter it packet state }

/-- The channel with the packet's chunk in the segment in progress. -/
def extended (packet : AudioPacket) (now : ℚ) (state : ChannelState σ) : ChannelState σ :=
  { heard it packet now state with
    segmentChunks := state.segmentChunks ++ [packet.samples] }

/-- The channel after its segment was closed. -/
def closed (state : ChannelState σ) : ChannelState σ :=
  { state with
    triggered := false
    segmentChunks := []
    segmentStartTs := none
    segmentId := none
    scores := []
    lastPartialS := 0 }

/-- The channel with the score of its last chunk recorded. -/
def scored (state : ChannelState σ) : ChannelState σ :=
  { state with
    scores := state.scores ++ [(state.segmentChunks.length - 1, it.lastScore state.vadIter)] }

/-- The seconds the code takes the buffered chunks to last. -/
def segmentSeconds (packet : AudioPacket) (state : ChannelState σ) : ℚ :=
  state.segmentChunks.length * chunkSeconds cfg packet

def lookaheadChunks (packet : AudioPacket) : ℕ :=
  (max 1 (truncate (cfg.softCutLookaheadS / chunkSeconds cfg packet))).toNat

/-- The scores `_maybe_cut` looks for a dip in. -/
def recent (packet : AudioPacket) (state : ChannelState σ) : List (ℕ × ℚ) :=
  (scored it state).scores.drop ((scored it state).scores.length - lookaheadChunks cfg packet)

/-- The cut check, where there are limits. -/
def cutCheck (packet : AudioPacket) (state : ChannelState σ) : ChannelState σ × List Effect :=
  if cfg.segmentLimitsEnabled then maybeCut cfg it packet.channelId packet state
  else (state, [])

/-- What the cut check makes of the segment in progress. -/
inductive CutCase (packet : AudioPacket) (state : ChannelState σ) :
    ChannelState σ × List Effect → Prop
  | none
      (below : cfg.segmentLimitsEnabled = true → 0 < packet.samples.length / 2 →
        segmentSeconds cfg packet state < cfg.maxSegmentS)
      (early : cfg.segmentLimitsEnabled = true → 0 < packet.samples.length / 2 →
        cfg.softCutEnabled = true →
        segmentSeconds cfg packet state < cfg.softCutS - cfg.softCutLookaheadS) :
    CutCase packet state (state, [])
  | recorded (limited : cfg.segmentLimitsEnabled = true) (audible : 0 < packet.samples.length / 2)
      (below : segmentSeconds cfg packet state < cfg.maxSegmentS)
      (enabled : cfg.softCutEnabled = true) :
    CutCase packet state (scored it state, [])
  | hard (limited : cfg.segmentLimitsEnabled = true) (audible : 0 < packet.samples.length / 2)
      (full : cfg.maxSegmentS ≤ segmentSeconds cfg packet state) :
    CutCase packet state (cutSegment packet.channelId state.segmentChunks.length
      (chunkSeconds cfg packet) state)
  | soft (limited : cfg.segmentLimitsEnabled = true) (audible : 0 < packet.samples.length / 2)
      (below : segmentSeconds cfg packet state < cfg.maxSegmentS)
      (enabled : cfg.softCutEnabled = true)
      (due : cfg.softCutS ≤ segmentSeconds cfg packet state) (i : ℕ) (score : ℚ)
      (found : (recent cfg it packet state).argmin Prod.snd = some (i, score))
      (dip : score < it.lastScore state.vadIter - cfg.softCutMinDip) :
    CutCase packet state (cutSegment packet.channelId (i + 1) (chunkSeconds cfg packet)
      (scored it state))

/-- What the partial check makes of the segment in progress. -/
inductive ShowCase (packet : AudioPacket) (state : ChannelState σ) :
    ChannelState σ × List Effect → Prop
  | silent : ShowCase packet state (state, [])
  | shown (paced : 0 < cfg.partialIntervalS)
      (due : state.lastPartialS + cfg.partialIntervalS ≤ segmentSeconds cfg packet state)
      (startTs : ℚ) (segmentId : Str) (begun : state.segmentStartTs = some startTs)
      (named : state.segmentId = some segmentId) (nonempty : state.segmentChunks ≠ []) :
    ShowCase packet state
      ({ state with lastPartialS := segmentSeconds cfg packet state },
        [.putNowait ⟨packet.channelId, startTs, startTs + segmentSeconds cfg packet state,
          state.segmentChunks.flatten, segmentId, true⟩])

/-- What an event makes of a coherent channel. -/
inductive EventCase (c : Str) (event : VadEvent) (state : ChannelState σ) :
    ChannelState σ × List Effect → Prop
  | idle (noPacket : ∀ packet now, event ≠ .packet packet now)
      (undone : FlushDue cfg event state →
        state.segmentStartTs = none ∨ state.segmentChunks = []) :
    EventCase c event state (state, [])
  | lost (packet : AudioPacket) (now : ℚ) (received : event = .packet packet now)
      (reply : replyTo cfg it packet state = none ∨ replyTo cfg it packet state = some .raised)
      (vadIter : σ)
      (kept : it.triggered vadIter = it.triggered state.vadIter) :
    EventCase c event state ({ state with lastPacketAt := now, vadIter := vadIter }, [])
  | waited (packet : AudioPacket) (now : ℚ) (received : event = .packet packet now)
      (quiet : state.triggered = false)
      (reply : replyTo cfg it packet state = none ∨ replyTo cfg it packet state = some .nothing)
      (vadIter : σ) (still : it.triggered vadIter = false) :
    EventCase c event state
      (pushPreroll cfg packet { state with lastPacketAt := now, vadIter := vadIter }, [])
  | started (packet : AudioPacket) (now : ℚ) (received : event = .packet packet now)
      (quiet : state.triggered = false) (reply : replyTo cfg it packet state = some .started)
      (triggered : it.triggered (heardIter it packet state) = true) :
    EventCase c event state (startSegment packet (heard it packet now state))
  | ended (packet : AudioPacket) (now : ℚ) (received : event = .packet packet now)
      (speaking : state.triggered = true) (reply : replyTo cfg it packet state = some .ended)
      (still : it.triggered (heardIter it packet state) = false) (startTs : ℚ) (segmentId : Str)
      (begun : state.segmentStartTs = some startTs) (named : state.segmentId = some segmentId) :
    EventCase c event state
      (closed (heard it packet now state),
        [.fanoutPut ⟨packet.channelId, startTs, packet.timestamp,
          (state.segmentChunks ++ [packet.samples]).flatten, segmentId, false⟩])
  | continued (packet : AudioPacket) (now : ℚ) (received : event = .packet packet now)
      (speaking : state.triggered = true) (reply : replyTo cfg it packet state = some .nothing)
      (triggered : it.triggered (heardIter it packet state) = true) (startTs : ℚ)
      (segmentId : Str) (begun : state.segmentStartTs = some startTs)
      (named : state.segmentId = some segmentId) :
    EventCase c event state (continueSegment cfg it packet (extended it packet now state))
  | flushed (due : FlushDue cfg event state) (startTs : ℚ) (segmentId : Str)
      (begun : state.segmentStartTs = some startTs) (named : state.segmentId = some segmentId)
      (nonempty : state.segmentChunks ≠ []) :
    EventCase c event state
      (closed { state with vadIter := it.resetStates state.vadIter },
        [.fanoutPut ⟨c, startTs, flushEnd cfg startTs state, state.segmentChunks.flatten,
          segmentId, false⟩])

variable {cfg it}

/-- `_maybe_cut` in the terms above. -/
theorem maybeCut_def (packet : AudioPacket) (state : ChannelState σ) :
    maybeCut cfg it packet.channelId packet state =
      if packet.samples.length / 2 ≤ 0 then (state, [])
      else if cfg.maxSegmentS ≤ segmentSeconds cfg packet state then
        cutSegment packet.channelId state.segmentChunks.length (chunkSeconds cfg packet) state
      else if cfg.softCutEnabled = false then (state, [])
      else if segmentSeconds cfg packet state < cfg.softCutS - cfg.softCutLookaheadS then (state, [])
      else if segmentSeconds cfg packet state < cfg.softCutS then (scored it state, [])
      else
        match (recent cfg it packet state).argmin Prod.snd with
        | none => (scored it state, [])
        | some (i, score) =>
          if score < it.lastScore state.vadIter - cfg.softCutMinDip then
            cutSegment packet.channelId (i + 1) (chunkSeconds cfg packet) (scored it state)
          else (scored it state, []) :=
  rfl

theorem maybeCut_case (packet : AudioPacket) (state : ChannelState σ)
    (limited : cfg.segmentLimitsEnabled = true) :
    CutCase cfg it packet state (maybeCut cfg it packet.channelId packet state) := by
  rw [maybeCut_def]
  by_cases silent : packet.samples.length / 2 ≤ 0
  · rw [if_pos silent]
    exact .none (fun _ audible => absurd silent audible.not_ge)
      fun _ audible => absurd silent audible.not_ge
  have audible := not_le.mp silent
  rw [if_neg silent]
  by_cases full : cfg.maxSegmentS ≤ segmentSeconds cfg packet state
  · rw [if_pos full]
    exact .hard limited audible full
  have below := not_le.mp full
  rw [if_neg full]
  by_cases disabled : cfg.softCutEnabled = false
  · rw [if_pos disabled]
    exact .none (fun _ _ => below) fun _ _ enabled => by simp [disabled] at enabled
  have enabled : cfg.softCutEnabled = true := by simpa using disabled
  rw [if_neg disabled]
  by_cases early : segmentSeconds cfg packet state < cfg.softCutS - cfg.softCutLookaheadS
  · rw [if_pos early]
    exact .none (fun _ _ => below) fun _ _ _ => early
  rw [if_neg early]
  by_cases soon : segmentSeconds cfg packet state < cfg.softCutS
  · rw [if_pos soon]
    exact .recorded limited audible below enabled
  rw [if_neg soon]
  cases found : (recent cfg it packet state).argmin Prod.snd with
  | none => exact .recorded limited audible below enabled
  | some best =>
    obtain ⟨i, score⟩ := best
    by_cases dip : score < it.lastScore state.vadIter - cfg.softCutMinDip
    · simp only [if_pos dip]
      exact .soft limited audible below enabled (not_lt.mp soon) i score found dip
    · simp only [if_neg dip]
      exact .recorded limited audible below enabled

/-- The cut check keeps a segment in progress. -/
theorem CutCase.open {packet : AudioPacket} {state : ChannelState σ}
    {result : ChannelState σ × List Effect} (did : CutCase cfg it packet state result)
    {startTs : ℚ} {segmentId : Str} (begun : state.segmentStartTs = some startTs)
    (named : state.segmentId = some segmentId) :
    result.1.segmentStartTs.isSome = true ∧ result.1.segmentId.isSome = true := by
  have afterCut (k : ℕ) {from_ : ChannelState σ} (begun : from_.segmentStartTs = some startTs)
      (named : from_.segmentId = some segmentId) :
      (cutSegment packet.channelId k (chunkSeconds cfg packet) from_).1.segmentStartTs.isSome =
          true ∧
        (cutSegment packet.channelId k (chunkSeconds cfg packet) from_).1.segmentId.isSome =
          true := by
    rcases cutSegment_cases packet.channelId k (chunkSeconds cfg packet) from_ with
      same | ⟨pos, inside⟩
    · simp [same, begun, named]
    · simp [cutSegment_open packet.channelId k (chunkSeconds cfg packet) begun named pos inside]
  cases did with
  | none => simp [begun, named]
  | recorded => simp [scored, begun, named]
  | hard => exact afterCut _ begun named
  | soft => exact afterCut _ (by simpa [scored] using begun) (by simpa [scored] using named)

theorem maybeEmitPartial_case (packet : AudioPacket) {state : ChannelState σ}
    (paced : 0 < cfg.partialIntervalS) (begun : state.segmentStartTs.isSome = true)
    (named : state.segmentId.isSome = true) :
    ShowCase cfg packet state (maybeEmitPartial cfg packet.channelId packet state) := by
  obtain ⟨startTs, begun⟩ := Option.isSome_iff_exists.mp begun
  obtain ⟨segmentId, named⟩ := Option.isSome_iff_exists.mp named
  have seconds : segmentSeconds cfg packet state = state.segmentChunks.length *
      ((packet.samples.length / 2 : ℕ) / cfg.sampleRate) := rfl
  unfold maybeEmitPartial
  split
  · exact .silent
  rename_i onward found
  obtain rfl := Option.some.inj (begun.symm.trans found)
  simp only [← seconds]
  split
  · exact .silent
  rename_i audible
  split
  · exact .silent
  split
  · exact .silent
  rename_i due
  have nonempty : state.segmentChunks ≠ [] := fun empty => audible (Or.inr empty)
  have emitted : emitPartial packet.channelId startTs (segmentSeconds cfg packet state)
      { state with lastPartialS := segmentSeconds cfg packet state } =
        ({ state with lastPartialS := segmentSeconds cfg packet state },
          [.putNowait ⟨packet.channelId, startTs, startTs + segmentSeconds cfg packet state,
            state.segmentChunks.flatten, segmentId, true⟩]) := by
    simp [emitPartial, segmentIdOrNew, named]
  rw [emitted]
  exact .shown paced (by linarith) startTs segmentId begun named nonempty

theorem cutCheck_case (packet : AudioPacket) (state : ChannelState σ) :
    CutCase cfg it packet state (cutCheck cfg it packet state) := by
  unfold cutCheck
  by_cases limited : cfg.segmentLimitsEnabled = true
  · rw [if_pos limited]
    exact maybeCut_case packet state limited
  · rw [if_neg limited]
    exact .none (fun on => absurd on limited) fun on => absurd on limited

/-- The middle of speech: the cut check, then the partial on what is left. -/
theorem continueSegment_shows (packet : AudioPacket) {state : ChannelState σ} {startTs : ℚ}
    {segmentId : Str} (begun : state.segmentStartTs = some startTs)
    (named : state.segmentId = some segmentId) :
    ∃ shown, ShowCase cfg packet (cutCheck cfg it packet state).1 shown ∧
      continueSegment cfg it packet state =
        (shown.1, (cutCheck cfg it packet state).2 ++ shown.2) := by
  obtain ⟨begun, named⟩ := (cutCheck_case packet state).open begun named
  have split : continueSegment cfg it packet state =
      if 0 < cfg.partialIntervalS then
        ((maybeEmitPartial cfg packet.channelId packet (cutCheck cfg it packet state).1).1,
          (cutCheck cfg it packet state).2 ++
            (maybeEmitPartial cfg packet.channelId packet (cutCheck cfg it packet state).1).2)
      else cutCheck cfg it packet state := rfl
  rw [split]
  by_cases paced : 0 < cfg.partialIntervalS
  · rw [if_pos paced]
    exact ⟨_, maybeEmitPartial_case packet paced begun named, rfl⟩
  · rw [if_neg paced]
    exact ⟨((cutCheck cfg it packet state).1, []), .silent, by simp⟩

theorem continueSegment_case (packet : AudioPacket) {state : ChannelState σ} {startTs : ℚ}
    {segmentId : Str} (begun : state.segmentStartTs = some startTs)
    (named : state.segmentId = some segmentId) :
    ∃ cut shown, CutCase cfg it packet state cut ∧ ShowCase cfg packet cut.1 shown ∧
      continueSegment cfg it packet state = (shown.1, cut.2 ++ shown.2) := by
  obtain ⟨shown, next, same⟩ :=
    @continueSegment_shows σ cfg it packet state startTs segmentId begun named
  exact ⟨_, shown, cutCheck_case packet state, next, same⟩

/-- A packet of a coherent channel, by what the iterator answers to it. -/
theorem handlePacket_case {ok : ℚ → Prop} (packet : AudioPacket) (now : ℚ)
    {state : ChannelState σ} (h : Coherent ok cfg it state) :
    EventCase cfg it packet.channelId (.packet packet now) state
      (handlePacket cfg it packet now state) := by
  rw [handlePacket_eq]
  cases reply : replyTo cfg it packet state with
  | none =>
    have idle := (raises_of_noReply reply).2
    by_cases undecoded : pcmToFloat packet.samples = none
    · simp only [if_pos undecoded]
      exact .lost packet now rfl (Or.inl reply) state.vadIter rfl
    · simp only [if_neg undecoded]
      have quiet := idle undecoded
      exact .waited packet now rfl quiet (Or.inl reply) state.vadIter (h.iterator.symm.trans quiet)
  | some answer =>
    obtain ⟨chunk, answered, after⟩ := replyTo_call reply
    have protocol := it.call_protocol state.vadIter chunk
    rw [answered, ← after] at protocol
    cases answer with
    | raised =>
      exact .lost packet now rfl (Or.inr reply) _ protocol
    | started =>
      have quiet : state.triggered = false := h.iterator.trans protocol.1
      simp only [quiet, Bool.false_eq_true, if_false]
      exact .started packet now rfl quiet reply protocol.2
    | ended =>
      have speaking : state.triggered = true := h.iterator.trans protocol.1
      obtain ⟨startTs, segmentId, begun, named⟩ := h.open speaking
      simp only [if_pos speaking, endSegment]
      rw [finalizeSegment_open packet.channelId packet.timestamp
        (show _ = some startTs by simpa using begun) (show _ = some segmentId by simpa using named)
        (by simp)]
      exact .ended packet now rfl speaking reply protocol.2 startTs segmentId begun named
    | nothing =>
      by_cases speaking : state.triggered = true
      · obtain ⟨startTs, segmentId, begun, named⟩ := h.open speaking
        simp only [if_pos speaking]
        have triggered : it.triggered (heardIter it packet state) = true :=
          protocol.trans (h.iterator.symm.trans speaking)
        exact .continued packet now rfl speaking reply triggered startTs segmentId begun named
      · have quiet : state.triggered = false := by simpa using speaking
        simp only [if_neg speaking]
        exact .waited packet now rfl quiet (Or.inr reply) _ (protocol.trans (h.iterator.symm.trans quiet))

theorem flushChannel_case {ok : ℚ → Prop} (c : Str) {event : VadEvent} {state : ChannelState σ}
    (h : Coherent ok cfg it state) (due : FlushDue cfg event state)
    (noPacket : ∀ packet now, event ≠ .packet packet now) :
    EventCase cfg it c event state (flushChannel cfg it c state) := by
  unfold flushChannel
  by_cases speaking : state.triggered = true
  · obtain ⟨startTs, segmentId, begun, named⟩ := h.open speaking
    simp only [begun]
    by_cases empty : state.segmentChunks = []
    · rw [if_pos empty]
      exact .idle noPacket fun _ => Or.inr empty
    · rw [if_neg empty, finalizeSegment_open c _ begun named empty]
      exact .flushed due startTs segmentId begun named empty
  · have closed := (h.closed (by simpa using speaking)).1
    rw [closed]
    exact .idle noPacket fun _ => Or.inl closed

/-- The step lemma: an event does one of seven things to a coherent channel. -/
theorem channelStep_case {ok : ℚ → Prop} {c : Str} {state : ChannelState σ}
    (h : Coherent ok cfg it state) (event : VadEvent)
    (own : ∀ packet now, event = .packet packet now → packet.channelId = c) :
    EventCase cfg it c event state (channelStep cfg it c state event) := by
  cases event with
  | packet packet now =>
    obtain rfl := own packet now rfl
    exact handlePacket_case packet now h
  | idleCheck now =>
    simp only [channelStep]
    by_cases disabled : cfg.idleFlushS ≤ 0
    · rw [if_pos disabled]
      exact .idle (by simp) fun due => absurd due.1 (not_lt.mpr disabled)
    · rw [if_neg disabled]
      by_cases due : cfg.idleFlushS ≤ now - state.lastPacketAt
      · rw [if_pos due]
        exact flushChannel_case c h ⟨not_le.mp disabled, due⟩ (by simp)
      · rw [if_neg due]
        exact .idle (by simp) fun late => absurd late.2 due
  | flush => exact flushChannel_case c h trivial (by simp)

end Cases

section Run

variable {σ : Type} {cfg : VADWorkerConfig} {it : VADIterator σ}

/-- The run rule for one channel: what every case of an event keeps of a coherent state, and
of what kind its effects are. -/
theorem channel_invariant (keys : ChannelKeys) (iterators : Str → σ) {c : Str}
    (configured : c ∈ keys.val) {good : AudioPacket → Prop} {P : ChannelState σ → Prop}
    {Q : Effect → Prop} (initial : P (freshChannels it iterators c))
    (step : ∀ event state result, Coherent (fun _ => True) cfg it state → P state →
      (∀ packet now, event = .packet packet now → packet.channelId = c ∧ good packet) →
      EventCase cfg it c event state result → P result.1 ∧ ∀ effect ∈ result.2, Q effect)
    {events : List VadEvent}
    (all : ∀ packet now, .packet packet now ∈ events → packet.channelId = c → good packet) :
    P (reached cfg it keys iterators events c) ∧
      ∀ effect ∈ effectsOn c
        (outputs (workerStep cfg it keys) (freshChannels it iterators) events).2, Q effect := by
  let Own (event : VadEvent) : Prop := ∀ packet now, event = .packet packet now →
    packet.channelId = c ∧ good packet
  let Kept (state : ChannelState σ) : Prop := Coherent (fun _ => True) cfg it state ∧ P state
  have preserved (state : ChannelState σ) (event : VadEvent) (kept : Kept state)
      (own : Own event) : Kept (channelStep cfg it c state event).1 ∧
        ∀ effect ∈ (channelStep cfg it c state event).2, Q effect := by
    have coherent := (channelStep_run c kept.1 event fun packet now received =>
      ⟨(own packet now received).1, trivial⟩).2
    obtain ⟨onward, made⟩ := step event state _ kept.1 kept.2 own
      (channelStep_case kept.1 event fun packet now received => (own packet now received).1)
    exact ⟨⟨coherent, onward⟩, made⟩
  have own : ∀ event ∈ events.filter (concerns c), Own event := by
    rintro event member packet now rfl
    obtain ⟨member, mine⟩ := List.mem_filter.mp member
    have own : packet.channelId = c := by simpa [concerns] using mine
    exact ⟨own, all packet now member own⟩
  have run := outputs_invariant (channelStep cfg it c) preserved
    ⟨freshChannels_coherent (fun _ => True) cfg it iterators c, initial⟩ own
  rw [← worker_on_channel cfg it keys (freshChannels it iterators) events configured] at run
  exact ⟨run.1.2, run.2⟩

end Run

end EdgeVoice.VadCases
