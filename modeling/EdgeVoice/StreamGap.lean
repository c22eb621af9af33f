import EdgeVoice.IdleFlush
import EdgeVoice.ChunkTrace

/-! Segments and gaps in the stream. Between two packets of a channel an idle check that
is due closes the segment in progress, but two things can cross the gap: the preroll,
which a flush does not clear (`reset_channel` does, and nothing calls it), and the start
time of a segment that a cut left open without a chunk. Where neither happens, no
segment has audio from both sides or a start from before. -/

namespace EdgeVoice.StreamGap
open PythonText Models VadWorker VadTrack SegmentLifecycle IdleFlush ChunkTrace StepSystem

section LastPacket

variable {σ : Type} (cfg : VADWorkerConfig) (it : VADIterator σ)

theorem segmentIdOrNew_lastPacketAt (c : Str) (startTs : ℚ) (state : ChannelState σ) :
    (segmentIdOrNew c startTs state).2.1.lastPacketAt = state.lastPacketAt := by
  unfold segmentIdOrNew
  split
  · rfl
  · rfl

theorem finalizeSegment_lastPacketAt (c : Str) (endTs : ℚ) (state : ChannelState σ) :
    (finalizeSegment c endTs state).1.lastPacketAt = state.lastPacketAt := by
  unfold finalizeSegment
  split
  · rfl
  · split
    · rfl
    · exact segmentIdOrNew_lastPacketAt c _ state

theorem cutSegment_lastPacketAt (c : Str) (k : ℕ) (chunkS : ℚ) (state : ChannelState σ) :
    (cutSegment c k chunkS state).1.lastPacketAt = state.lastPacketAt := by
  unfold cutSegment
  split
  · rfl
  · split
    · rfl
    · exact finalizeSegment_lastPacketAt c _ _

theorem maybeCut_lastPacketAt (c : Str) (packet : AudioPacket) (state : ChannelState σ) :
    (maybeCut cfg it c packet state).1.lastPacketAt = state.lastPacketAt := by
  obtain ⟨scores, same | ⟨k, chunkS, _, _, _, cut⟩⟩ := maybeCut_cases cfg it c packet state
  · rw [same]
  · rw [cut, cutSegment_lastPacketAt]

theorem maybeEmitPartial_lastPacketAt (c : Str) (packet : AudioPacket) (state : ChannelState σ) :
    (maybeEmitPartial cfg c packet state).1.lastPacketAt = state.lastPacketAt := by
  unfold maybeEmitPartial
  simp only
  split
  · rfl
  split
  · rfl
  split
  · rfl
  split
  · rfl
  · exact segmentIdOrNew_lastPacketAt c _ _

theorem continueSegment_lastPacketAt (packet : AudioPacket) (state : ChannelState σ) :
    (continueSegment cfg it packet state).1.lastPacketAt = state.lastPacketAt := by
  unfold continueSegment
  by_cases limited : cfg.segmentLimitsEnabled = true
  · have cut := maybeCut_lastPacketAt cfg it packet.channelId packet state
    simp only [if_pos limited]
    split
    · rw [maybeEmitPartial_lastPacketAt, cut]
    · exact cut
  · simp only [if_neg limited]
    split
    · exact maybeEmitPartial_lastPacketAt cfg packet.channelId packet state
    · rfl

theorem handlePacket_lastPacketAt (packet : AudioPacket) (now : ℚ) (state : ChannelState σ) :
    (handlePacket cfg it packet now state).1.lastPacketAt = now := by
  unfold handlePacket
  simp only
  split
  · rfl
  split
  · rfl
  split
  · rfl
  · simp only [startSegment, newSegmentId]
    split
    · rfl
    · rfl
  · simp only [endSegment, finalizeSegment_lastPacketAt]
    split
    · rfl
    · rfl
  · by_cases speaking : state.triggered = true
    · simp only [if_pos speaking, continueSegment_lastPacketAt]
    · simp only [if_neg speaking]
      rfl

theorem flushChannel_lastPacketAt (c : Str) (state : ChannelState σ) :
    (flushChannel cfg it c state).1.lastPacketAt = state.lastPacketAt := by
  unfold flushChannel
  split
  · rfl
  split
  · rfl
  · exact finalizeSegment_lastPacketAt c _ _

theorem channelStep_lastPacketAt (c : Str) (state : ChannelState σ) (event : VadEvent) :
    (channelStep cfg it c state event).1.lastPacketAt =
      match event with
      | .packet _ now => now
      | _ => state.lastPacketAt := by
  cases event with
  | packet packet now => exact handlePacket_lastPacketAt cfg it packet now state
  | idleCheck now =>
    simp only [channelStep]
    split
    · rfl
    split
    · exact flushChannel_lastPacketAt cfg it c state
    · rfl
  | flush => exact flushChannel_lastPacketAt cfg it c state

end LastPacket

variable {σ : Type} (cfg : VADWorkerConfig) (it : VADIterator σ)

/-- Two consecutive packets of a channel with an idle check between them that is due. -/
structure Gap (c : Str) (events : List VadEvent) where
  before : List VadEvent
  p : AudioPacket
  received : ℚ
  waited : List VadEvent
  now : ℚ
  resumed : List VadEvent
  q : AudioPacket
  again : ℚ
  rest : List VadEvent
  whole : events = (before ++ .packet p received :: waited) ++
    .idleCheck now :: (resumed ++ .packet q again :: rest)
  own : p.channelId = c ∧ q.channelId = c
  consecutive : stampsOn c waited = [] ∧ stampsOn c resumed = []
  due : cfg.idleFlushS ≤ now - received

variable {cfg}

/-- The events up to the idle check, and those after it. -/
def Gap.past {c : Str} {events : List VadEvent} (gap : Gap cfg c events) : List VadEvent :=
  gap.before ++ .packet gap.p gap.received :: gap.waited

def Gap.later {c : Str} {events : List VadEvent} (gap : Gap cfg c events) : List VadEvent :=
  gap.resumed ++ .packet gap.q gap.again :: gap.rest

variable (cfg)

/-- A final with audio from both sides, or a segment first spoken after the gap that
starts before it. -/
def Stitched (p q : AudioPacket) (e : Emission) : Prop :=
  (e.segment.isPartial = false ∧ (∃ a ∈ e.chunks, a.timestamp ≤ p.timestamp) ∧
      ∃ b ∈ e.chunks, q.timestamp ≤ b.timestamp) ∨
    ∃ first, e.chunks.find? Chunk.speech = some first ∧ q.timestamp ≤ first.timestamp ∧
      e.segment.start ≤ p.timestamp

/-- Nothing crosses the gap: a segment the check finds open without a chunk starts after
`p`, and a packet that starts speech later finds no chunk from before in the preroll. -/
structure Uncrossed (keys : ChannelKeys) (iterators : Str → σ) {c : Str}
    {events : List VadEvent} (gap : Gap cfg c events) : Prop where
  closes : ∀ startTs, (reached cfg it keys iterators gap.past c).segmentStartTs = some startTs →
    (reached cfg it keys iterators gap.past c).segmentChunks = [] → gap.p.timestamp < startTs
  refilled : ∀ seen packet now unseen, gap.later = seen ++ .packet packet now :: unseen →
    packet.channelId = c →
    replyTo cfg it packet
      (reached cfg it keys iterators (gap.past ++ .idleCheck gap.now :: seen) c) = some .started →
    ∀ entry ∈ (reached cfg it keys iterators (gap.past ++ .idleCheck gap.now :: seen) c).preroll,
      gap.p.timestamp < entry.1

variable {cfg it}

theorem not_stitched_before {p q : AudioPacket} {e : Emission} (apart : p.timestamp < q.timestamp)
    (early : ∀ chunk ∈ e.chunks, chunk.timestamp ≤ p.timestamp) : ¬Stitched p q e := by
  rintro (⟨_, _, b, member, late⟩ | ⟨first, found, late, _⟩)
  · exact absurd (late.trans (early b member)) (not_le.mpr apart)
  · exact absurd (late.trans (early first (List.mem_of_find?_eq_some found))) (not_le.mpr apart)

theorem not_stitched_after {p q : AudioPacket} {e : Emission}
    (late : ∀ chunk ∈ e.chunks, p.timestamp < chunk.timestamp)
    (start : p.timestamp < e.segment.start) : ¬Stitched p q e := by
  rintro (⟨_, ⟨a, member, early⟩, _⟩ | ⟨_, _, _, early⟩)
  · exact absurd early (not_le.mpr (late a member))
  · exact absurd early (not_le.mpr start)

/-- Everything buffered came after `p`, and so does the start of the segment in progress. -/
structure Past (p : AudioPacket) (t : Traced σ) : Prop where
  chunks : ∀ chunk ∈ t.chunks, p.timestamp < chunk.timestamp
  start : ∀ startTs, t.state.segmentStartTs = some startTs → p.timestamp < startTs

theorem Past.of_idle {ok : ℚ → Prop} {p : AudioPacket} {t : Traced σ} (sound : Sound cfg it ok t)
    (still : t.state.triggered = false) : Past p t :=
  ⟨by simp [sound.closed still], by simp [(sound.coherent.closed still).1]⟩

/-- Chunks and a start from after `p`. -/
structure HeldPast (p : AudioPacket) (startTs : ℚ) (held : Held) : Prop where
  chunks : ∀ chunk ∈ held.chunks, p.timestamp < chunk.timestamp
  start : p.timestamp < startTs

theorem HeldPast.made {p q : AudioPacket} {startTs : ℚ} {held : Held}
    (h : HeldPast p startTs held) (c : Str) (endTs : ℚ) (segmentId : Str) (isPartial : Bool) :
    ¬Stitched p q (made c startTs endTs held segmentId isPartial) :=
  not_stitched_after h.chunks h.start

/-- The head of a cut starts where the segment did, and the tail later. -/
theorem cut_past {c : Str} {index : Option ℕ} {chunkS startTs onward : ℚ} {p q : AudioPacket}
    {held left : Held} {head : List Emission}
    (cut : CutOutcome c index chunkS startTs held head onward left) (nonneg : 0 ≤ chunkS)
    (h : HeldPast p startTs held) :
    HeldPast p onward left ∧ ∀ e ∈ head, ¬Stitched p q e := by
  cases cut with
  | whole => exact ⟨h, by simp⟩
  | cut k segmentId found pos inside =>
    have later : startTs ≤ startTs + k * chunkS := le_add_of_nonneg_right (by positivity)
    have front : HeldPast p startTs ⟨held.chunks.take k, held.cutFrom⟩ :=
      ⟨fun chunk member => h.chunks chunk (List.mem_of_mem_take member), h.start⟩
    refine ⟨⟨fun chunk member => h.chunks chunk (List.mem_of_mem_drop member),
      h.start.trans_le later⟩, ?_⟩
    intro e member
    rw [List.mem_singleton.mp member]
    exact front.made c _ segmentId false

theorem shown_past {c : Str} {chunkS startTs : ℚ} {p q : AudioPacket} {held : Held}
    {shown : List Emission} (partials : ShowOutcome c chunkS startTs held shown)
    (h : HeldPast p startTs held) : ∀ e ∈ shown, ¬Stitched p q e := by
  intro e member
  cases partials with
  | silent => simp at member
  | shown segmentId nonempty =>
    rw [List.mem_singleton.mp member]
    exact h.made c _ segmentId true

/-- The step lemma: after the gap only later chunks and later starts are taken up. -/
theorem Past.step {c : Str} {p q : AudioPacket} {t : Traced σ} {event : VadEvent}
    {r : Traced σ × List Emission} (h : Past p t) (after : Sound cfg it (fun _ => True) r.1)
    (outcome : Outcome cfg it c t event r)
    (late : ∀ packet now, event = .packet packet now → p.timestamp < packet.timestamp)
    (refilled : ∀ packet now, event = .packet packet now →
      replyTo cfg it packet t.state = some .started →
      ∀ entry ∈ t.state.preroll, p.timestamp < entry.1) :
    Past p r.1 ∧ ∀ e ∈ r.2, ¬Stitched p q e := by
  have withPacket {packet : AudioPacket} {now : ℚ} (received : event = .packet packet now) :
      ∀ chunk ∈ t.chunks ++ [spoken packet], p.timestamp < chunk.timestamp := by
    intro chunk member
    rcases List.mem_append.mp member with old | new
    · exact h.chunks chunk old
    · rw [List.mem_singleton.mp new]
      exact late packet now received
  cases outcome with
  | quiet lost silent same startTs kept =>
    refine ⟨⟨?_, ?_⟩, by simp [silent]⟩
    · rw [same]
      exact h.chunks
    · rw [startTs]
      exact h.start
  | waited packet now received heard silent still kept =>
    exact ⟨Past.of_idle after still, by simp [silent]⟩
  | started packet now received reply silent same startTs kept =>
    have preroll := refilled packet now received reply
    refine ⟨⟨?_, ?_⟩, by simp [silent]⟩
    · intro chunk member
      rw [same] at member
      rcases List.mem_append.mp member with old | new
      · obtain ⟨entry, inside, rfl⟩ := List.mem_map.mp old
        exact preroll entry inside
      · rw [List.mem_singleton.mp new]
        exact late packet now received
    · intro start begun
      rw [startTs] at begun
      rw [← Option.some.inj begun]
      cases first : t.state.preroll with
      | nil => exact late packet now received
      | cons entry rest => exact preroll entry (by simp [first])
  | ended packet now received reply startTs segmentId begun emitted still kept =>
    have whole : HeldPast p startTs ⟨t.chunks ++ [spoken packet], t.cutFrom⟩ :=
      ⟨withPacket received, h.start startTs begun⟩
    refine ⟨Past.of_idle after still, ?_⟩
    intro e member
    rw [emitted, List.mem_singleton] at member
    rw [member]
    exact whole.made c _ segmentId false
  | continued packet now received reply startTs begun head shown onward cut partials emitted
      after_start kept =>
    have whole : HeldPast p startTs ⟨t.chunks ++ [spoken packet], t.cutFrom⟩ :=
      ⟨withPacket received, h.start startTs begun⟩
    obtain ⟨left, unstitched⟩ := cut_past cut (chunkSeconds_nonneg cfg packet) whole
    refine ⟨⟨left.chunks, ?_⟩, ?_⟩
    · intro start begun'
      rw [after_start] at begun'
      rw [← Option.some.inj begun']
      exact left.start
    · intro e member
      rw [emitted, List.mem_append] at member
      rcases member with cutOff | partly
      · exact unstitched e cutOff
      · exact shown_past partials left e partly
  | flushed noPacket startTs segmentId begun nonempty emitted still kept =>
    have buffered : HeldPast p startTs t.toHeld := ⟨h.chunks, h.start startTs begun⟩
    refine ⟨Past.of_idle after still, ?_⟩
    intro e member
    rw [emitted, List.mem_singleton] at member
    rw [member]
    exact buffered.made c _ segmentId false

variable (cfg it)

/-- The channel remembers when its last packet was handled. -/
theorem reached_lastPacketAt (keys : ChannelKeys) (iterators : Str → σ) {c : Str}
    (configured : c ∈ keys.val) (before : List VadEvent) (p : AudioPacket) (received : ℚ)
    (own : p.channelId = c) (waited : List VadEvent) (quiet : stampsOn c waited = []) :
    (reached cfg it keys iterators (before ++ .packet p received :: waited) c).lastPacketAt =
      received := by
  induction waited using List.reverseRecOn with
  | nil =>
    rw [reached_concat cfg it keys iterators configured, concerns, if_pos (by simp [own]),
      channelStep_lastPacketAt]
  | append_singleton waited event ih =>
    rw [stampsOn_append, List.append_eq_nil_iff] at quiet
    have earlier := ih quiet.1
    have split_last : before ++ .packet p received :: (waited ++ [event]) =
        (before ++ .packet p received :: waited) ++ [event] := by simp
    rw [split_last, reached_concat cfg it keys iterators configured]
    by_cases mine : concerns c event = true
    · rw [if_pos mine, channelStep_lastPacketAt]
      cases event with
      | packet packet now =>
        have foreign := quiet.2
        simp only [concerns, decide_eq_true_eq] at mine
        simp [stampsOn, mine] at foreign
      | idleCheck now => exact earlier
      | flush => exact earlier
    · rw [if_neg mine]
      exact earlier

section Crossing

variable {c : Str} {events : List VadEvent} {cfg it}

theorem Gap.stamps (gap : Gap cfg c events) :
    stampsOn c gap.past = stampsOn c gap.before ++ [gap.p.timestamp] := by
  have waited : List.filterMap _ gap.waited = [] := gap.consecutive.1
  simp [Gap.past, stampsOn, gap.own.1, waited]

theorem Gap.stamps_whole (gap : Gap cfg c events) :
    stampsOn c events = stampsOn c gap.past ++ stampsOn c gap.later := by
  have check : stampsOn c (.idleCheck gap.now :: gap.later) = stampsOn c gap.later := by
    simp [stampsOn]
  rw [← check, ← stampsOn_append]
  exact congrArg (stampsOn c) gap.whole

/-- With increasing timestamps a stamp tells the side of the gap. -/
theorem Gap.sides (gap : Gap cfg c events) (increasing : (stampsOn c events).Pairwise (· < ·)) :
    (∀ a ∈ stampsOn c gap.past, a ≤ gap.p.timestamp) ∧
      ∀ b ∈ stampsOn c gap.later, gap.p.timestamp < b := by
  rw [gap.stamps_whole, List.pairwise_append] at increasing
  obtain ⟨early, _, apart⟩ := increasing
  rw [gap.stamps] at early apart ⊢
  refine ⟨?_, fun b member => apart _ (by simp) b member⟩
  intro a member
  rcases List.mem_append.mp member with old | new
  · exact ((List.pairwise_append.mp early).2.2 a old _ (by simp)).le
  · exact (List.mem_singleton.mp new).le

/-- The check leaves nothing in the segment buffer, and no start from before the gap. -/
theorem Gap.past_check (gap : Gap cfg c events) (keys : ChannelKeys) (iterators : Str → σ)
    (configured : c ∈ keys.val) (enabled : 0 < cfg.idleFlushS)
    (uncrossed : Uncrossed cfg it keys iterators gap) :
    Past gap.p (traced cfg it iterators c (gap.past ++ [.idleCheck gap.now])).1 := by
  have sound := traced_sound cfg it iterators c (gap.past ++ [.idleCheck gap.now])
  have same := (traced_faithful cfg it keys iterators configured
    (gap.past ++ [.idleCheck gap.now])).1
  obtain ⟨_, coherent⟩ := worker_run (fun _ => True) cfg it keys iterators configured gap.past
    fun _ _ _ => trivial
  have due :
      cfg.idleFlushS ≤ gap.now - (reached cfg it keys iterators gap.past c).lastPacketAt := by
    rw [Gap.past, reached_lastPacketAt cfg it keys iterators configured gap.before gap.p
      gap.received gap.own.1 gap.waited gap.consecutive.1]
    exact gap.due
  have flushed := reached_due cfg it keys iterators configured enabled due
  by_cases ends : (reached cfg it keys iterators gap.past c).triggered = true →
      (reached cfg it keys iterators gap.past c).segmentChunks ≠ []
  · have ended := (flushChannel_ends_iff c coherent).mpr ends
    rw [← flushed, ← same] at ended
    exact Past.of_idle sound ended.triggered
  · -- the early return: the segment stays open, without a chunk
    obtain ⟨speaking, empty⟩ := Classical.not_imp.mp ends
    have empty : (reached cfg it keys iterators gap.past c).segmentChunks = [] := by
      simpa using empty
    obtain ⟨startTs, segmentId, hs, _⟩ := coherent.open speaking
    have unchanged : reached cfg it keys iterators (gap.past ++ [.idleCheck gap.now]) c =
        reached cfg it keys iterators gap.past c := by
      rw [flushed]
      simp [flushChannel, hs, empty]
    have chunks := sound.chunks
    rw [same, unchanged, empty, List.map_eq_nil_iff] at chunks
    refine ⟨by simp [chunks], ?_⟩
    rw [same, unchanged]
    exact fun start begun => uncrossed.closes start begun empty

variable (cfg it)

/-- Every run of strictly increasing timestamps, at every gap that nothing crosses: no
segment is stitched across it. -/
theorem no_segment_stitched (keys : ChannelKeys) (iterators : Str → σ)
    (configured : c ∈ keys.val) (enabled : 0 < cfg.idleFlushS)
    (increasing : (stampsOn c events).Pairwise (· < ·)) (gap : Gap cfg c events)
    (uncrossed : Uncrossed cfg it keys iterators gap) :
    puts (effectsOn c (outputs (workerStep cfg it keys) (freshChannels it iterators) events).2) =
        (traced cfg it iterators c events).2.map Emission.segment ∧
      ∀ e ∈ (traced cfg it iterators c events).2,
        e.segment.audio = e.chunks.flatMap Chunk.samples ∧ ¬Stitched gap.p gap.q e := by
  obtain ⟨early, late⟩ := gap.sides increasing
  have resumed : gap.q.timestamp ∈ stampsOn c gap.later := by
    have member : .packet gap.q gap.again ∈ gap.later := by simp [Gap.later]
    exact mem_stampsOn member gap.own.2
  have apart := late _ resumed
  have whole : gap.past ++ [.idleCheck gap.now] ++ gap.later = events := by
    rw [List.append_assoc]
    exact gap.whole.symm
  have checked : stampsOn c (gap.past ++ [.idleCheck gap.now]) = stampsOn c gap.past := by
    rw [stampsOn_append]
    simp [stampsOn]
  have run := traced_history_from cfg it iterators c (gap.past ++ [.idleCheck gap.now])
    (I := fun seen t emitted => (∃ unseen, seen ++ unseen = gap.later) →
      Past gap.p t ∧ ∀ e ∈ emitted, ¬Stitched gap.p gap.q e)
    ?_ ?_ ?_ gap.later
  · refine ⟨(traced_faithful cfg it keys iterators configured events).2.symm, ?_⟩
    rw [whole] at run
    intro e member
    exact ⟨traced_audio cfg it iterators c events e member,
      (run ⟨[], List.append_nil _⟩).2 e member⟩
  · intro _
    refine ⟨gap.past_check keys iterators configured enabled uncrossed, ?_⟩
    intro e member
    refine not_stitched_before apart fun chunk inside => early _ ?_
    rw [← checked]
    exact (traced_received cfg it iterators c _).2.2 e member chunk inside
  · rintro seen event t emitted before _ ⟨unseen, rest⟩
    exact before ⟨event :: unseen, by rw [← rest]; simp⟩
  · rintro seen event t emitted r before reachedBy _ after own outcome ⟨unseen, rest⟩
    obtain ⟨past, unstitched⟩ := before ⟨event :: unseen, by rw [← rest]; simp⟩
    have state : t.state =
        reached cfg it keys iterators (gap.past ++ .idleCheck gap.now :: seen) c := by
      have faithful := (traced_faithful cfg it keys iterators configured
        (gap.past ++ [.idleCheck gap.now] ++ seen)).1
      rw [← reachedBy] at faithful
      simpa using faithful
    obtain ⟨kept, fresh⟩ := past.step (q := gap.q) after outcome
      (by
        rintro packet now rfl
        have member : .packet packet now ∈ gap.later := by
          rw [← rest]
          simp
        exact late _ (mem_stampsOn member (own packet now rfl)))
      (by
        rintro packet now rfl reply
        rw [state] at reply ⊢
        refine uncrossed.refilled seen packet now unseen ?_ (own packet now rfl) reply
        rw [← rest]
        simp)
    refine ⟨kept, ?_⟩
    intro e member
    rcases List.mem_append.mp member with old | new
    · exact unstitched e old
    · exact fresh e new

end Crossing

section Runs

/-- Two packets with an idle check ten seconds after the first, and the shutdown flush. -/
def pausedRun (p q : AudioPacket) : List VadEvent :=
  [.packet p 0, .idleCheck 10, .packet q 60, .flush]

def pausedGap (p q : AudioPacket) (own : p.channelId = ['r'] ∧ q.channelId = ['r']) :
    Gap ungated ['r'] (pausedRun p q) where
  before := []
  p := p
  received := 0
  waited := []
  now := 10
  resumed := []
  q := q
  again := 60
  rest := [.flush]
  whole := rfl
  own := own
  consecutive := ⟨rfl, rfl⟩
  due := by decide +kernel

/-- Speech on both sides: the check closes the first segment, and the preroll is empty. -/
theorem segments_apart_when_uncrossed :
    Uncrossed ungated levelIterator channelR (fun _ => false)
        (pausedGap ⟨['r'], 0, [1, 0]⟩ ⟨['r'], 60, [1, 0]⟩ ⟨rfl, rfl⟩) ∧
      ∀ e ∈ (traced ungated levelIterator (fun _ => false) ['r']
          (pausedRun ⟨['r'], 0, [1, 0]⟩ ⟨['r'], 60, [1, 0]⟩)).2,
        ¬Stitched ⟨['r'], 0, [1, 0]⟩ ⟨['r'], 60, [1, 0]⟩ e := by
  have empty : ∀ entry ∈ (reached ungated levelIterator channelR (fun _ => false)
      [.packet ⟨['r'], 0, [1, 0]⟩ 0, .idleCheck 10] ['r']).preroll, 0 < entry.1 := by
    decide +kernel
  have uncrossed : Uncrossed ungated levelIterator channelR (fun _ => false)
      (pausedGap ⟨['r'], 0, [1, 0]⟩ ⟨['r'], 60, [1, 0]⟩ ⟨rfl, rfl⟩) := by
    refine ⟨fun startTs _ none_buffered => absurd none_buffered (by decide +kernel), ?_⟩
    intro seen packet now unseen split _ _
    cases seen with
    | nil => exact empty
    | cons event seen =>
      -- after `q` comes the flush only, which is no packet
      cases seen with
      | nil => simp [Gap.later, pausedGap] at split
      | cons event seen => simp [Gap.later, pausedGap] at split
  refine ⟨uncrossed, ?_⟩
  intro e member
  exact ((no_segment_stitched ungated levelIterator channelR (fun _ => false) (by decide)
    (by decide +kernel) (by decide +kernel) _ uncrossed).2 e member).2

/-- Silence and then speech: the silent packet stays in the preroll over the check, and the
segment of a minute later begins with it. -/
theorem preroll_crosses_gap :
    ∃ e ∈ (traced ungated levelIterator (fun _ => false) ['r']
        (pausedRun ⟨['r'], 0, [0, 0]⟩ ⟨['r'], 60, [1, 0]⟩)).2,
      e.segment ∈ puts (effectsOn ['r'] (outputs (workerStep ungated levelIterator channelR)
        (freshChannels levelIterator fun _ => false)
        (pausedRun ⟨['r'], 0, [0, 0]⟩ ⟨['r'], 60, [1, 0]⟩)).2) ∧
      Stitched (pausedGap ⟨['r'], 0, [0, 0]⟩ ⟨['r'], 60, [1, 0]⟩ ⟨rfl, rfl⟩).p
        ⟨['r'], 60, [1, 0]⟩ e ∧
      e.segment.start = 0 ∧ e.segment.audio = [0, 0, 1, 0] := by
  have emitted : ∀ e ∈ (traced ungated levelIterator (fun _ => false) ['r']
      (pausedRun ⟨['r'], 0, [0, 0]⟩ ⟨['r'], 60, [1, 0]⟩)).2,
      e.chunks = [⟨0, [0, 0], false⟩, ⟨60, [1, 0], true⟩] ∧ e.segment.isPartial = false ∧
        e.segment.start = 0 ∧ e.segment.audio = [0, 0, 1, 0] ∧
        e.segment ∈ puts (effectsOn ['r'] (outputs (workerStep ungated levelIterator channelR)
          (freshChannels levelIterator fun _ => false)
          (pausedRun ⟨['r'], 0, [0, 0]⟩ ⟨['r'], 60, [1, 0]⟩)).2) := by
    decide +kernel
  have some_emitted : (traced ungated levelIterator (fun _ => false) ['r']
      (pausedRun ⟨['r'], 0, [0, 0]⟩ ⟨['r'], 60, [1, 0]⟩)).2 ≠ [] := by
    decide +kernel
  obtain ⟨e, member⟩ := List.exists_mem_of_ne_nil _ some_emitted
  obtain ⟨chunks, final, start, audio, put⟩ := emitted e member
  refine ⟨e, member, put, Or.inl ⟨final, ?_, ?_⟩, start, audio⟩
  · exact ⟨⟨0, [0, 0], false⟩, by simp [chunks], le_refl _⟩
  · exact ⟨⟨60, [1, 0], true⟩, by simp [chunks], le_refl _⟩

end Runs

end EdgeVoice.StreamGap
