import EdgeVoice.VadCases

/-! The hard cap as a bound on every segment. The cut check runs on the continue path only,
after the append: a start may load the preroll, an `end` adds one chunk more, and a flush
takes what is there. -/

namespace EdgeVoice.SegmentCap
open PythonText Models VadWorker VadTrack ChunkTrace SegmentOrder VadCases StepSystem

/-- Audio of at most `most` chunks of `size` bytes each. -/
def MadeOf (size most : ℕ) (audio : List UInt8) : Prop :=
  ∃ chunks : List (List UInt8), audio = chunks.flatten ∧
    (∀ chunk ∈ chunks, chunk.length = size) ∧ chunks.length ≤ most

variable (cfg : VADWorkerConfig) (size cap : ℕ)

/-- The most chunks of a final. -/
def mostFinal : ℕ := max cap (cfg.prerollChunks.toNat + 2)

/-- The most chunks in the buffer after a packet, and of a partial. -/
def mostBuffered : ℕ := max (cap - 1) (cfg.prerollChunks.toNat + 1)

/-- The packets' chunks wait and are buffered whole, and few enough are buffered. -/
structure Capped {σ : Type} (state : ChannelState σ) : Prop where
  sizes : ∀ chunk ∈ state.segmentChunks, chunk.length = size
  preroll : ∀ entry ∈ state.preroll, entry.2.length = size
  buffered : state.segmentChunks.length ≤ mostBuffered cfg cap

/-- An effect keeps to the bounds. -/
def Fits : Effect → Prop
  | .minted _ => True
  | .putNowait segment => MadeOf size (mostBuffered cfg cap) segment.audio
  | .fanoutPut segment => MadeOf size (mostFinal cfg cap) segment.audio

variable {cfg size cap} {σ : Type} {it : VADIterator σ} {state : ChannelState σ}

theorem buffered_lt_final : mostBuffered cfg cap + 1 ≤ mostFinal cfg cap := by
  unfold mostBuffered mostFinal
  omega

/-- A cut of a segment of few enough chunks, of which few enough stay. -/
theorem cut_capped (c : Str) (k : ℕ) (chunkS : ℚ)
    (sizes : ∀ chunk ∈ state.segmentChunks, chunk.length = size)
    (preroll : ∀ entry ∈ state.preroll, entry.2.length = size)
    (few : state.segmentChunks.length ≤ mostFinal cfg cap)
    (left : state.segmentChunks.length - k ≤ mostBuffered cfg cap) {startTs : ℚ}
    {segmentId : Str} (begun : state.segmentStartTs = some startTs)
    (named : state.segmentId = some segmentId) (pos : 0 < k)
    (inside : k ≤ state.segmentChunks.length) :
    Capped cfg size cap (cutSegment c k chunkS state).1 ∧
      ∀ effect ∈ (cutSegment c k chunkS state).2, Fits cfg size cap effect := by
  rw [cutSegment_open c k chunkS begun named pos inside]
  refine ⟨⟨?_, preroll, ?_⟩, ?_⟩
  · intro chunk member
    exact sizes chunk (List.mem_of_mem_drop member)
  · rw [List.length_drop]
    exact left
  · intro effect member
    simp only [List.mem_cons, List.not_mem_nil, or_false] at member
    rcases member with rfl | rfl
    · refine ⟨_, rfl, fun chunk member => sizes chunk (List.mem_of_mem_take member), ?_⟩
      rw [List.length_take]
      omega
    · trivial

variable (least : IsLeast {n : ℕ | cfg.maxSegmentS ≤ n * ((size / 2 : ℕ) / cfg.sampleRate : ℚ)} cap)
variable (audible : 0 < size / 2) (limited : cfg.segmentLimitsEnabled = true)
include least

/-- Fewer chunks than the cap allows. -/
theorem lt_cap {packet : AudioPacket} (length : packet.samples.length = size)
    (below : segmentSeconds cfg packet state < cfg.maxSegmentS) :
    state.segmentChunks.length < cap := by
  by_contra enough
  have more : (cap : ℚ) ≤ state.segmentChunks.length := by exact_mod_cast not_lt.mp enough
  have seconds := mul_le_mul_of_nonneg_right more (chunkSeconds_nonneg cfg packet)
  have full : cfg.maxSegmentS ≤ cap * chunkSeconds cfg packet := by
    rw [chunkSeconds, length]
    exact least.1
  exact absurd (full.trans seconds) (not_le.mpr below)

include audible limited

/-- The middle of speech keeps to the bounds. -/
theorem continueSegment_capped {packet : AudioPacket} (length : packet.samples.length = size)
    (sizes : ∀ chunk ∈ state.segmentChunks, chunk.length = size)
    (preroll : ∀ entry ∈ state.preroll, entry.2.length = size)
    (few : state.segmentChunks.length ≤ mostFinal cfg cap)
    (nonempty : state.segmentChunks ≠ []) {startTs : ℚ} {segmentId : Str}
    (begun : state.segmentStartTs = some startTs) (named : state.segmentId = some segmentId) :
    Capped cfg size cap (continueSegment cfg it packet state).1 ∧
      ∀ effect ∈ (continueSegment cfg it packet state).2, Fits cfg size cap effect := by
  obtain ⟨cut, shown, did, next, same⟩ :=
    @continueSegment_case σ cfg it packet state startTs segmentId begun named
  have heard : 0 < packet.samples.length / 2 := by rwa [length]
  have short (below : segmentSeconds cfg packet state < cfg.maxSegmentS) :
      state.segmentChunks.length ≤ mostBuffered cfg cap := by
    have fewer := @lt_cap cfg size cap σ state least packet length below
    unfold mostBuffered
    omega
  have checked : Capped cfg size cap cut.1 ∧ ∀ effect ∈ cut.2, Fits cfg size cap effect := by
    cases did with
    | none below => exact ⟨⟨sizes, preroll, short (below limited heard)⟩, by simp⟩
    | recorded _ _ below => exact ⟨⟨sizes, preroll, short below⟩, by simp⟩
    | hard =>
      apply cut_capped _ _ _ sizes preroll few _ begun named (List.length_pos_iff.mpr nonempty)
        (le_refl _)
      rw [Nat.sub_self]
      exact Nat.zero_le _
    | soft _ _ below _ _ i score =>
      rcases cutSegment_cases packet.channelId (i + 1) (chunkSeconds cfg packet)
          (scored it state) with outside | ⟨pos, inside⟩
      · rw [outside]
        exact ⟨⟨sizes, preroll, short below⟩, by simp⟩
      · exact cut_capped _ _ _ sizes preroll few ((Nat.sub_le _ _).trans (short below)) begun named
          pos inside
  rw [same]
  cases next with
  | silent =>
    refine ⟨checked.1, fun effect member => ?_⟩
    rw [List.append_nil] at member
    exact checked.2 effect member
  | shown =>
    obtain ⟨⟨sizes, preroll, buffered⟩, fits⟩ := checked
    refine ⟨⟨sizes, preroll, buffered⟩, fun effect member => ?_⟩
    rcases List.mem_append.mp member with cutOff | partly
    · exact fits effect cutOff
    · rw [List.mem_singleton.mp partly]
      exact ⟨_, rfl, sizes, buffered⟩

/-- The step lemma. -/
theorem Capped.step {ok : ℚ → Prop} {c : Str} {event : VadEvent}
    {result : ChannelState σ × List Effect} (coherent : Coherent ok cfg it state)
    (h : Capped cfg size cap state)
    (own : ∀ packet now, event = .packet packet now →
      packet.channelId = c ∧ packet.samples.length = size)
    (did : EventCase cfg it c event state result) :
    Capped cfg size cap result.1 ∧ ∀ effect ∈ result.2, Fits cfg size cap effect := by
  cases did with
  | idle => exact ⟨h, by simp⟩
  | lost => exact ⟨⟨h.sizes, h.preroll, h.buffered⟩, by simp⟩
  | waited packet now received =>
    refine ⟨⟨h.sizes, fun entry member => ?_, h.buffered⟩, by simp⟩
    rcases List.mem_append.mp ((pushPreroll_sublist packet _).subset member) with old | new
    · exact h.preroll entry old
    · rw [List.mem_singleton.mp new]
      exact (own packet now received).2
  | started packet now received =>
    refine ⟨⟨?_, by simp [startSegment, newSegmentId], ?_⟩, by
      simp [startSegment, newSegmentId, Fits]⟩
    · intro chunk member
      rcases List.mem_append.mp member with old | new
      · obtain ⟨entry, inside, rfl⟩ := List.mem_map.mp old
        exact h.preroll entry inside
      · rw [List.mem_singleton.mp new]
        exact (own packet now received).2
    · have bound := coherent.prerollBound
      simp only [startSegment, newSegmentId, heard, List.length_append, List.length_map,
        List.length_singleton, mostBuffered]
      omega
  | ended packet now received speaking reply still startTs segmentId =>
    refine ⟨⟨by simp [closed], h.preroll, Nat.zero_le _⟩, fun effect member => ?_⟩
    rw [List.mem_singleton.mp member]
    refine ⟨_, rfl, fun chunk inside => ?_, ?_⟩
    · rcases List.mem_append.mp inside with old | new
      · exact h.sizes chunk old
      · rw [List.mem_singleton.mp new]
        exact (own packet now received).2
    · have bound := h.buffered
      have more := @buffered_lt_final cfg cap
      rw [List.length_append, List.length_singleton]
      omega
  | continued packet now received speaking reply triggered startTs segmentId begun named =>
    have length := (own packet now received).2
    have bound := h.buffered
    have more := @buffered_lt_final cfg cap
    have sizes : ∀ chunk ∈ (extended it packet now state).segmentChunks, chunk.length = size := by
      intro chunk member
      rcases List.mem_append.mp member with old | new
      · exact h.sizes chunk old
      · rw [List.mem_singleton.mp new]
        exact length
    have few : (extended it packet now state).segmentChunks.length ≤ mostFinal cfg cap := by
      simp only [extended, List.length_append, List.length_singleton]
      omega
    exact continueSegment_capped least audible limited length sizes h.preroll few
      (by simp [extended]) begun named
  | flushed due startTs segmentId begun named nonempty =>
    refine ⟨⟨by simp [closed], h.preroll, Nat.zero_le _⟩, fun effect member => ?_⟩
    rw [List.mem_singleton.mp member]
    refine ⟨_, rfl, h.sizes, ?_⟩
    have bound := h.buffered
    have more := @buffered_lt_final cfg cap
    omega

omit least audible limited

variable (cfg it)

/-- With segment limits, and packets of one length on the channel, of which `cap` are the
fewest that last `max_segment_s`: the chunks of every final, of every partial, and those in the
buffer after every event are bounded. -/
theorem segments_capped (keys : ChannelKeys) (iterators : Str → σ) {c : Str}
    (configured : c ∈ keys.val) (limited : cfg.segmentLimitsEnabled = true)
    (audible : 0 < size / 2)
    (least : IsLeast {n : ℕ | cfg.maxSegmentS ≤ n * ((size / 2 : ℕ) / cfg.sampleRate : ℚ)} cap)
    (events : List VadEvent)
    (length : ∀ packet now, .packet packet now ∈ events → packet.channelId = c →
      packet.samples.length = size) :
    (∀ segment, .fanoutPut segment ∈ effectsOn c
        (outputs (workerStep cfg it keys) (freshChannels it iterators) events).2 →
      MadeOf size (max cap (cfg.prerollChunks.toNat + 2)) segment.audio) ∧
    (reached cfg it keys iterators events c).segmentChunks.length ≤
      max (cap - 1) (cfg.prerollChunks.toNat + 1) ∧
    ∀ segment, .putNowait segment ∈ effectsOn c
        (outputs (workerStep cfg it keys) (freshChannels it iterators) events).2 →
      MadeOf size (max (cap - 1) (cfg.prerollChunks.toNat + 1)) segment.audio := by
  have fresh : Capped cfg size cap (freshChannels it iterators c) := by
    constructor <;> simp [freshChannels]
  obtain ⟨capped, fits⟩ := channel_invariant keys iterators configured fresh
    (fun event state result coherent h own did =>
      h.step least audible limited coherent own did) length
  exact ⟨fun segment put => fits _ put, capped.buffered, fun segment put => fits _ put⟩

section ThreeChunks

/-- Four packets of one sample under a limit of three: the first starts speech, and the
third is cut off with it. -/
def cappedRun : List VadEvent :=
  [.packet ⟨['r'], 0, [1, 0]⟩ 0, .packet ⟨['r'], 1, [1, 0]⟩ 1, .packet ⟨['r'], 2, [1, 0]⟩ 2,
    .packet ⟨['r'], 3, [1, 0]⟩ 3]

theorem threeChunks_capped :
    (reached SegmentLifecycle.eager levelIterator channelR (fun _ => false) cappedRun
      ['r']).segmentChunks.length ≤ 4 := by
  refine (@segments_capped SegmentLifecycle.eager 2 3 Bool levelIterator channelR
    (fun _ => false) ['r'] (by decide) rfl (by decide) ?_ cappedRun ?_).2.1
  · refine ⟨by norm_num [SegmentLifecycle.eager, ungated], fun n enough => ?_⟩
    simp only [SegmentLifecycle.eager, ungated, Set.mem_ofPred_eq] at enough
    by_contra less
    have small : n ≤ 2 := by omega
    interval_cases n <;> norm_num at enough
  · intro packet now member _
    simp only [cappedRun, List.mem_cons, VadEvent.packet.injEq, List.not_mem_nil, or_false]
      at member
    rcases member with ⟨rfl, _⟩ | ⟨rfl, _⟩ | ⟨rfl, _⟩ | ⟨rfl, _⟩ <;> rfl

end ThreeChunks

end EdgeVoice.SegmentCap
