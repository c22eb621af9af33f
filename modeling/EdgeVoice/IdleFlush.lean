import EdgeVoice.SegmentLifecycle

/-! What an idle check that is due leaves of a channel's speech. `_flush_channel`
returns early when no chunk is buffered, and a cut at the end of the buffer leaves a
segment open with none: an utterance in that state outlives the check. In every other
reachable state the check ends it, and whatever is emitted later begins later. -/

namespace EdgeVoice.IdleFlush
open PythonText Models VadWorker VadTrack SegmentLifecycle StepSystem

variable {σ : Type} (cfg : VADWorkerConfig) (it : VADIterator σ)

/-- No speech in progress, neither for the worker nor for its iterator. -/
structure SpeechEnded (state : ChannelState σ) : Prop where
  triggered : state.triggered = false
  startTs : state.segmentStartTs = none
  segmentId : state.segmentId = none
  chunks : state.segmentChunks = []
  iterator : it.triggered state.vadIter = false

/-- The segments put belong to utterances these effects themselves began, and none
starts before all of `times`. -/
def BegunSince (times : List ℚ) (effects : List Effect) : Prop :=
  ∀ segment ∈ puts effects,
    segment.segmentId ∈ mintedIds effects ∧ ∃ t ∈ times, t ≤ segment.start

/-- What a run of moves has put and still holds open, if it began with nothing open. -/
structure Begun (ok : ℚ → Prop) (effects : List Effect) (t : Track) : Prop where
  emitted : ∀ segment ∈ puts effects, segment.segmentId ∈ mintedIds effects ∧ ok segment.start
  current : ∀ s, t.current = some s → s.segmentId ∈ mintedIds effects ∧ ok s.startTs

theorem Move.begun {ok : ℚ → Prop} (later : ∀ t u, t ≤ u → ok t → ok u) {c : Str} {t u : Track}
    {chunks : List (List UInt8)} {effects more : List Effect} (h : Begun ok effects t)
    (move : Move ok c t chunks more u) : Begun ok (effects ++ more) u := by
  have old (segment : SpeechSegment) (member : segment ∈ puts effects) :
      segment.segmentId ∈ mintedIds (effects ++ more) ∧ ok segment.start := by
    rw [mintedIds_append]
    exact ⟨List.mem_append_left _ (h.emitted segment member).1, (h.emitted segment member).2⟩
  cases move with
  | opened n startTs chunks valid =>
    refine ⟨?_, ?_⟩
    · intro segment member
      exact old segment (by simpa [puts] using member)
    · rintro s ⟨⟩
      exact ⟨by simp [mintedIds], valid⟩
  | extended n s chunk =>
    obtain ⟨minted, valid⟩ := h.current s rfl
    refine ⟨by simpa using h.emitted, ?_⟩
    rintro s' ⟨⟩
    exact ⟨by simpa using minted, valid⟩
  | shown n s segS nonempty =>
    obtain ⟨minted, valid⟩ := h.current s rfl
    refine ⟨?_, ?_⟩
    · intro segment member
      rw [puts_append, List.mem_append] at member
      rcases member with before | now
      · exact old segment before
      · rw [show segment = _ from by simpa [puts] using now]
        exact ⟨by simp [minted], valid⟩
    · rintro s' ⟨⟩
      exact ⟨by simp [minted], valid⟩
  | cut n s k chunkS pos inside nonneg =>
    obtain ⟨minted, valid⟩ := h.current s rfl
    have onward : ok (s.startTs + k * chunkS) :=
      later _ _ (le_add_of_nonneg_right (by positivity)) valid
    refine ⟨?_, ?_⟩
    · intro segment member
      rw [puts_append, List.mem_append] at member
      rcases member with before | now
      · exact old segment before
      · rw [show segment = _ from by simpa [puts] using now]
        exact ⟨by simp [minted], valid⟩
    · rintro s' ⟨⟩
      exact ⟨by simp [mintedIds], onward⟩
  | closed n s endTs nonempty =>
    obtain ⟨minted, valid⟩ := h.current s rfl
    refine ⟨?_, by simp⟩
    intro segment member
    rw [puts_append, List.mem_append] at member
    rcases member with before | now
    · exact old segment before
    · rw [show segment = _ from by simpa [puts] using now]
      exact ⟨by simp [minted], valid⟩

theorem Run.begun {ok : ℚ → Prop} (later : ∀ t u, t ≤ u → ok t → ok u) {c : Str}
    {t u : Track} {chunks : List (List UInt8)} {effects : List Effect} (closed : t.current = none)
    (run : Run ok c t chunks effects u) : Begun ok effects u := by
  induction run with
  | refl => exact ⟨by simp [puts], by simp [closed]⟩
  | tail _ move ih => exact Move.begun later ih move

variable {cfg it}

theorem Coherent.changeTimes {ok ok' : ℚ → Prop} {state : ChannelState σ}
    (h : Coherent ok cfg it state) (times : ∀ entry ∈ state.preroll, ok' entry.1) :
    Coherent ok' cfg it state :=
  ⟨h.iterator, h.startTs, h.segmentId, h.idle, h.speech, h.prerollBound, times⟩

theorem SpeechEnded.of_quiet {ok : ℚ → Prop} {state : ChannelState σ}
    (h : Coherent ok cfg it state) (quiet : state.triggered = false) : SpeechEnded it state :=
  ⟨quiet, (h.closed quiet).1, (h.closed quiet).2, h.idle quiet, h.iterator.symm.trans quiet⟩

/-- A flush ends the speech of a coherent channel unless a segment is open with no chunk. -/
theorem flushChannel_ends_iff {ok : ℚ → Prop} (c : Str) {state : ChannelState σ}
    (h : Coherent ok cfg it state) :
    SpeechEnded it (flushChannel cfg it c state).1 ↔
      (state.triggered = true → state.segmentChunks ≠ []) := by
  have coherent := (flushChannel_run c h).2.1
  by_cases speaking : state.triggered = true
  · obtain ⟨startTs, segmentId, hs, hi⟩ := h.open speaking
    by_cases empty : state.segmentChunks = []
    · -- the early return: nothing changes, and speech stays in progress
      have unchanged : flushChannel cfg it c state = (state, []) := by
        simp [flushChannel, hs, empty]
      rw [unchanged]
      refine iff_of_false (fun ended => ?_) (by simp [speaking, empty])
      have quiet := ended.triggered
      rw [speaking] at quiet
      cases quiet
    · have quiet : (flushChannel cfg it c state).1.triggered = false := by
        simp [flushChannel, hs, empty]
      exact iff_of_true (SpeechEnded.of_quiet coherent quiet) fun _ => empty
  · have quiet : state.triggered = false := by simpa using speaking
    have silent : flushChannel cfg it c state = (state, []) := by
      simp [flushChannel, (h.closed quiet).1]
    rw [silent]
    exact iff_of_true (SpeechEnded.of_quiet h quiet) fun absurd => by simp [quiet] at absurd

/-- After speech has ended, later segments belong to later speech: each starts at or
after a chunk that was waiting in the preroll or came in later. -/
theorem begunSince_of_ended (keys : ChannelKeys) {c : Str} (configured : c ∈ keys.val)
    {channels : Channels σ} {ok : ℚ → Prop} (h : Coherent ok cfg it (channels c))
    (ended : SpeechEnded it (channels c)) (events : List VadEvent) :
    BegunSince ((channels c).preroll.map Prod.fst ++ stampsOn c events)
      (effectsOn c (outputs (workerStep cfg it keys) channels events).2) := by
  let since : ℚ → Prop := fun u =>
    ∃ t ∈ (channels c).preroll.map Prod.fst ++ stampsOn c events, t ≤ u
  have upward : ∀ t u, t ≤ u → since t → since u := by
    rintro t u le ⟨first, member, below⟩
    exact ⟨first, member, below.trans le⟩
  have coherent : Coherent since cfg it (channels c) := by
    refine Coherent.changeTimes h fun entry member => ⟨entry.1, ?_, le_refl _⟩
    exact List.mem_append_left _ (List.mem_map_of_mem member)
  obtain ⟨⟨chunks, run⟩, _⟩ := worker_run_from keys configured coherent events
    fun packet now member own =>
      ⟨packet.timestamp, List.mem_append_right _ (mem_stampsOn member own), le_refl _⟩
  have closed : (track (channels c)).current = none := by rw [track_closed ended.startTs]
  exact (Run.begun upward closed run).emitted

variable (cfg it)

/-- An idle check that is due flushes the channel. -/
theorem reached_due (keys : ChannelKeys) (iterators : Str → σ) {past : List VadEvent} {now : ℚ}
    {c : Str} (configured : c ∈ keys.val) (enabled : 0 < cfg.idleFlushS)
    (due : cfg.idleFlushS ≤ now - (reached cfg it keys iterators past c).lastPacketAt) :
    reached cfg it keys iterators (past ++ [.idleCheck now]) c =
      (flushChannel cfg it c (reached cfg it keys iterators past c)).1 := by
  rw [reached_concat cfg it keys iterators configured, concerns, if_pos rfl]
  simp only [channelStep, if_neg (not_le.mpr enabled), if_pos due]

/-- An idle check that is due ends the channel's speech, with every later segment begun
later, exactly when the segment it finds in progress, if any, has a chunk buffered. -/
theorem idle_check_ends_speech_iff (keys : ChannelKeys) (iterators : Str → σ)
    (past : List VadEvent) (now : ℚ) {c : Str} (configured : c ∈ keys.val)
    (enabled : 0 < cfg.idleFlushS)
    (due : cfg.idleFlushS ≤ now - (reached cfg it keys iterators past c).lastPacketAt) :
    (SpeechEnded it (reached cfg it keys iterators (past ++ [.idleCheck now]) c) ∧
      ∀ later, BegunSince
        ((reached cfg it keys iterators (past ++ [.idleCheck now]) c).preroll.map Prod.fst ++
          stampsOn c later)
        (effectsOn c (outputs (workerStep cfg it keys)
          (reached cfg it keys iterators (past ++ [.idleCheck now])) later).2)) ↔
      ((reached cfg it keys iterators past c).triggered = true →
        (reached cfg it keys iterators past c).segmentChunks ≠ []) := by
  obtain ⟨_, coherent⟩ := worker_run (fun _ => True) cfg it keys iterators configured past
    fun _ _ _ => trivial
  obtain ⟨_, after⟩ := worker_run (fun _ => True) cfg it keys iterators configured
    (past ++ [.idleCheck now]) fun _ _ _ => trivial
  have flushed := reached_due cfg it keys iterators configured enabled due
  have ends := flushChannel_ends_iff c coherent
  rw [← flushed] at ends
  constructor
  · rintro ⟨ended, _⟩
    exact ends.mp ended
  · intro buffered
    exact ⟨ends.mpr buffered, begunSince_of_ended keys configured after (ends.mpr buffered)⟩

section Runs

/-- A start, and an idle check ten seconds later. -/
theorem open_segment_ended_by_idle_check :
    SpeechEnded levelIterator
      (reached ungated levelIterator channelR (fun _ => false)
        ([.packet ⟨['r'], 0, [1, 0]⟩ 0] ++ [.idleCheck 10]) ['r']) :=
  ((idle_check_ends_speech_iff ungated levelIterator channelR (fun _ => false)
    [.packet ⟨['r'], 0, [1, 0]⟩ 0] 10 (by decide) (by decide +kernel) (by decide +kernel)).mpr
      (by decide +kernel)).1

/-- Segments of two chunks at most. -/
def twoChunkCap : VADWorkerConfig :=
  { ungated with segmentLimitsEnabled := true, maxSegmentS := 1 / 8000 }

/-- Two chunks of speech, which the hard cap cuts off whole. -/
def cutAtEnd : List VadEvent :=
  [.packet ⟨['r'], 0, [1, 0]⟩ 0, .packet ⟨['r'], 1 / 16000, [1, 0]⟩ (1 / 16000)]

/-- After the hard cut the check ten seconds later leaves the channel mid-speech, and the
speech of a minute later goes into the segment that began before the gap. -/
theorem hard_cut_survives_idle_check :
    twoChunkCap.idleFlushS ≤ 10 -
        (reached twoChunkCap levelIterator channelR (fun _ => false) cutAtEnd ['r']).lastPacketAt ∧
      ¬SpeechEnded levelIterator (reached twoChunkCap levelIterator channelR (fun _ => false)
        (cutAtEnd ++ [.idleCheck 10]) ['r']) ∧
      ∃ segment ∈ puts (effectsOn ['r'] (outputs (workerStep twoChunkCap levelIterator channelR)
          (reached twoChunkCap levelIterator channelR (fun _ => false)
            (cutAtEnd ++ [.idleCheck 10]))
          [.packet ⟨['r'], 60, [1, 0]⟩ 60, .packet ⟨['r'], 61, [0, 0]⟩ 61]).2),
        segment.start = 1 / 8000 := by
  refine ⟨by decide +kernel, fun ended => ?_, by decide +kernel⟩
  have quiet := ended.triggered
  revert quiet
  decide +kernel

end Runs

end EdgeVoice.IdleFlush
